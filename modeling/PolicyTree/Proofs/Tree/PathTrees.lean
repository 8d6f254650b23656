import PolicyTree.Proofs.Paths
import PolicyTree.Proofs.Tree.History
import PolicyTree.Proofs.Tree.Nesting

/-! Trees of paths, each one segment beyond its parent's: what a lookup finds in them. -/

namespace PolicyTree

variable {α κ : Type} [Ord α] [Ord κ] [PathLike α κ]

/-! ## Edits -/

/-- The path that the children of `p`, whose value is `x`, are to go on from. The root stands for
`base`, whatever its value is. -/
def Tree.baseAt (base : List κ) (t : Tree α) (p : Handle) (x : α) : List κ :=
  if t.root = some p then base else PathLike.route x

/-- The edit stores no value but by an insertion, and that one segment beyond its parent. -/
def Edit.Deepens (base : List κ) (t : Tree α) : Edit (Tree α) α → Prop
  | insert p x => ∀ y, t.get? p = some y → PathLike.Extends (t.baseAt base p y) x
  | replaceValue _ _ | replaceSubtree _ _ | replaceWithSubtree _ _ _ => False
  | _ => True

namespace Tree

open Forest PathLike

variable {base : List κ} {t t' : Tree α} {f f' : Forest α} {s : Sprig α} {a b p : Handle}
  {m n : Node α} {x y target : α} {e : Edit (Tree α) α} {es : List (Edit (Tree α) α)}

/-- Every node but the root goes one segment beyond its parent. -/
def Spreads (base : List κ) (t : Tree α) : Prop :=
  ∀ p c m n, t.node? p = some m → t.node? c = some n → n.parent = some p →
    Extends (t.baseAt base p m.value) n.value

/-! ## Runs -/

theorem Spreads.of_subset (spreads : t.Spreads base) (shows : t.Shows f) (shown : t'.Shows f')
    (roots : f'.roots = f.roots) (fewer : f'.stems none ⊆ f.stems none) : t'.Spreads base := by
  intro p c m n above stored parent
  obtain ⟨m', above', -, same⟩ := shows.mem_stems_iff.mp
    (fewer (shown.mem_stems_iff.mpr ⟨m, above, rfl, rfl⟩))
  obtain ⟨n', stored', parent', valued⟩ := shows.mem_stems_iff.mp
    (fewer (shown.mem_stems_iff.mpr ⟨n, stored, rfl, rfl⟩))
  rw [baseAt, shows.root_eq_of_roots shown roots, ← same, ← valued]
  exact spreads p c m' n' above' stored' (parent'.trans parent)

theorem Spreads.setRoot (base : List κ) (t : Tree α) (x : α) : (t.setRoot x).Spreads base := by
  intro p c m n _ stored parent
  have listed := (shows_setRoot t x).mem_stems_iff.mpr ⟨n, stored, parent, rfl⟩
  cases List.mem_singleton.mp listed

theorem Spreads.clear (base : List κ) (t : Tree α) : t.clear.Spreads base := by
  intro p c m n _ stored parent
  cases (shows_clear t).mem_stems_iff.mpr ⟨n, stored, parent, rfl⟩

theorem Spreads.insert (spreads : t.Spreads base) (shows : t.Shows f)
    (deepens : (Edit.insert p x).Deepens base t) : (t.insert p x).tree.Spreads base := by
  rcases shows.insert_cases p x with
    ⟨-, dead⟩ | ⟨s, mem, rfl, ⟨i, -, refused⟩ | ⟨i, -, fresh, -, shown⟩⟩
  · rw [dead]
    exact spreads
  · rw [refused]
    exact spreads
  · intro p c m n above stored parent
    have after := stems_mapBelow_plantAt_perm shows.nodup mem i ⟨t.arena.fresh, x, nil⟩
    rw [baseAt, shows.root_eq_of_roots shown (roots_mapBelow ..)]
    have upper := after.mem_iff.mp (shown.mem_stems_iff.mpr ⟨m, above, rfl, rfl⟩)
    have lower := after.mem_iff.mp (shown.mem_stems_iff.mpr ⟨n, stored, parent, rfl⟩)
    rw [Sprig.stems_eq, List.cons_append] at upper lower
    rcases List.mem_cons.mp lower with new | old
    · obtain ⟨rfl, rfl, valued⟩ : c = t.arena.fresh ∧ p = s.handle ∧ n.value = x := by
        simpa using new
      rcases List.mem_cons.mp upper with new | old
      · have here : s.handle = t.arena.fresh := congrArg Stem.handle new
        exact absurd (mem_handles mem) (here ▸ fresh)
      · obtain ⟨m', above', -, same⟩ := shows.mem_stems_iff.mp old
        rw [valued]
        apply deepens
        rw [get?, above', Option.map_some, same]
    · obtain ⟨n', stored', parent', valued⟩ := shows.mem_stems_iff.mp old
      obtain ⟨m', above', -⟩ := shows.lists_parent stored' parent'
      rcases List.mem_cons.mp upper with new | old
      · have here : p = t.arena.fresh := congrArg Stem.handle new
        have live := shows.contains_iff.mp (Arena.contains_iff.mpr ⟨m', above'⟩)
        exact absurd live (here ▸ fresh)
      · obtain ⟨m', above', -, same⟩ := shows.mem_stems_iff.mp old
        rw [← same, ← valued]
        exact spreads p c m' n' above' stored' parent'

theorem Spreads.perform (spreads : t.Spreads base) (shows : t.Shows f)
    (keyed : t.policy.keyed = true) (deepens : e.Deepens base t) :
    (t.perform e).tree.Spreads base := by
  have sorted : ∀ {t' : Tree α} {cmp : α → α → Ordering}, (t' = t ∨ ∃ s ∈ f.nodes, ∃ i j, i ≤ j ∧
      t.policy.keyed = false ∧ t'.Shows (f.mapBelow s.handle (sortAt i j cmp))) →
      t'.Spreads base := by
    rintro t' cmp (rfl | ⟨s, -, i, j, -, unkeyed, -⟩)
    · exact spreads
    · rw [keyed] at unkeyed
      cases unkeyed
  cases e with
  | setRoot x => exact .setRoot base t x
  | clear => exact .clear base t
  | insert p x => exact spreads.insert shows deepens
  | replaceValue h x => exact deepens.elim
  | replaceSubtree h source => exact deepens.elim
  | replaceWithSubtree h source k => exact deepens.elim
  | erase h =>
    rcases shows.erase_cases h with ⟨-, dead⟩ | ⟨s, -, -, -, shown⟩ |
      ⟨s, mem, i, c, child, -, -, shown⟩
    · rw [Tree.perform, tree_map, dead]
      exact spreads
    · intro p c m n _ stored parent
      cases shown.mem_stems_iff.mpr ⟨n, stored, parent, rfl⟩
    · obtain ⟨around, before, plucked, -⟩ := exists_around_child shows.nodup mem child
      apply spreads.of_subset shows shown (roots_mapBelow ..)
      exact fun e left => before.mem_iff.mpr (List.mem_append_right _ (plucked.mem_iff.mp left))
  | eraseChildren h =>
    rcases shows.eraseChildren_cases h with ⟨-, dead⟩ | ⟨s, mem, rfl, -, shown⟩
    · rw [Tree.perform, tree_map, dead]
      exact spreads
    · obtain ⟨around, before, split⟩ := exists_around shows.nodup mem none
      apply spreads.of_subset shows shown (roots_mapBelow ..)
      exact fun e left => before.mem_iff.mpr (List.mem_append_right _ ((split _).mem_iff.mp left))
  | sortBy first last cmp => exact sorted (shows.sortBy_cases first last cmp)
  | sortChildrenBy h cmp => exact sorted (shows.sortChildrenBy_cases h cmp)
  | sortChildren h => exact sorted (shows.sortChildrenBy_cases h compare)

theorem Spreads.performAll (spreads : t.Spreads base) (shows : t.Shows f)
    (inRange : t.policy.InRange) (keyed : t.policy.keyed = true)
    (deepens : ∀ s ∈ t.steps es, s.2.Deepens base s.1) : (t.performAll es).Spreads base := by
  induction es generalizing t f with
  | nil => exact spreads
  | cons e es ih =>
    rw [steps, List.forall_mem_cons] at deepens
    obtain ⟨f', -, shown⟩ := shows.perform inRange e
    have policy := policy_perform t e
    exact ih (spreads.perform shows keyed deepens.1) shown (policy ▸ inRange) (policy ▸ keyed)
      deepens.2

/-- A tree of at most one node has no child to ask anything of. -/
theorem Shows.spreads_of_bare (shows : t.Shows f) (bare : t.len ≤ 1) (base : List κ) :
    t.Spreads base := by
  intro p c m n above stored parent
  obtain ⟨m', above', listed⟩ := shows.lists_parent stored parent
  obtain ⟨s, mem, rfl, -, children⟩ := shows.exists_node above'
  rw [← children] at listed
  obtain ⟨k, child, rfl⟩ := List.mem_map.mp listed
  have few : s.nodes.length ≤ 1 := by
    have fewer := (nodes_sublist mem).length_le
    rw [shows.len_eq, Forest.handles, List.length_map] at bare
    omega
  have some_below := List.length_pos_of_mem (mem_nodes_of_mem_sprigs child)
  rw [Sprig.nodes, List.length_cons] at few
  omega

/-! ## Nesting -/

/-- What stands below a node other than the root goes on from it. -/
theorem Spreads.beyond (spreads : t.Spreads base) (rooted : t.Rooted) (inner : t.root ≠ some a)
    (above : t.Above a b) (upper : t.get? a = some x) (lower : t.get? b = some y) :
    ∃ c tail, route y = route x ++ c :: tail := by
  obtain ⟨m, stored, rfl⟩ := Option.map_eq_some_iff.mp upper
  induction above generalizing y with
  | single link =>
    obtain ⟨n, stored', parent⟩ := rooted.points_back _ _ link
    obtain rfl : n.value = y := by simpa [get?, stored'] using lower
    obtain ⟨c, further⟩ := spreads _ _ m n stored stored' parent
    rw [baseAt, if_neg inner] at further
    exact ⟨c, [], further⟩
  | tail path link ih =>
    obtain ⟨n, stored', parent⟩ := rooted.points_back _ _ link
    obtain rfl : n.value = y := by simpa [get?, stored'] using lower
    obtain ⟨k, between, -⟩ := link
    obtain ⟨c, tail, onward⟩ := ih (y := k.value) (by rw [get?, between, Option.map_some])
    obtain ⟨d, further⟩ := spreads _ _ k n between stored' parent
    obtain ⟨_, -, last⟩ := Relation.TransGen.tail'_iff.mp path
    rw [baseAt, if_neg (rooted.ne_root_of_lists last), onward] at further
    exact ⟨c, tail ++ [d], by simpa using further⟩

theorem Spreads.nests [Std.TransOrd κ] (spreads : t.Spreads base) (shows : t.Shows f)
    (ordered : f.Ordered compare) : t.Nests where
  above a b x y inner path upper lower := by
    obtain ⟨c, tail, beyond⟩ := spreads.beyond shows.rooted inner path upper lower
    exact lt_of_beyond beyond
  apart p n stored := by
    obtain ⟨s, mem, rfl, same, children⟩ := shows.exists_node stored
    have asc := ordered s mem
    rw [Ascending, rootValues, List.pairwise_map] at asc
    rw [← children, roots, List.pairwise_map]
    apply asc.imp_of_mem
    intro c d first second less b y z path lower upper
    have further : ∀ k ∈ s.below.sprigs, Extends (t.baseAt base s.handle n.value) k.value :=
      fun k child => spreads _ _ n _ stored (shows.stores.node?_of_child mem child) rfl
    rw [shows.stores.get?_eq (mem_nodes_of_child mem second)] at upper
    cases upper
    have here := shows.stores.get?_eq (mem_nodes_of_child mem first)
    rcases Relation.reflTransGen_iff_eq_or_transGen.mp path with rfl | under
    · rw [here] at lower
      cases lower
      exact less
    · have inner := shows.rooted.ne_root_of_lists (shows.stores.lists_child mem first)
      obtain ⟨e, tail, beyond⟩ := spreads.beyond shows.rooted inner under here lower
      exact lt_of_beyond_sibling (further c first) (further d second) less beyond

/-! ## Lookups -/

/-- A lookup in a tree that nests comes to the root if that compares equal to the target, and else to
the only node that does. -/
theorem Nests.find_cases [Std.TransOrd α] (nests : t.Nests) (shows : t.Shows f)
    (policy : t.policy = .pathOrder) (target : α) :
    (∀ r x, t.root = some r → t.get? r = some x → compare x target = .eq →
        t.find target = some r) ∧
      ((∀ r x, t.root = some r → t.get? r = some x → ¬compare x target = .eq) →
        ∀ h, t.find target = some h ↔ ∃ x, t.get? h = some x ∧ compare x target = .eq) := by
  obtain ⟨hits, agree⟩ : ∃ hits : α → Bool, ∀ x, hits x = true ↔ compare x target = .eq :=
    ⟨fun x => compare x target == .eq, fun _ => beq_iff_eq⟩
  simp only [← agree, nests.find_eq_findBy_hits shows policy agree]
  refine ⟨fun r x root valued hit => ?_, fun others h => ⟨shows.of_findBy_eq_some, ?_⟩⟩
  · obtain ⟨s, rfl, rfl⟩ := shows.eq_single root
    rw [shows.stores.get?_eq (mem_nodes_single s)] at valued
    cases valued
    rw [shows.findBy_eq, nodes_single, Sprig.find?_nodes_of_pos hit, Option.map_some]
  · rintro ⟨x, valued, hit⟩
    rcases shows.sprigs_eq with ⟨-, rfl⟩ | ⟨s, root, rfl⟩
    · obtain ⟨n, live, -⟩ := Option.map_eq_some_iff.mp valued
      cases shows.node?_eq_some_iff.mp live
    have inside : ∀ {k x}, t.get? k = some x → hits x = true →
        ∃ d ∈ s.below.nodes, d.handle = k ∧ d.value = x := by
      intro k x valued hit
      obtain ⟨n, live, rfl⟩ := Option.map_eq_some_iff.mp valued
      obtain ⟨d, mem, rfl, same, -⟩ := shows.exists_node live
      rw [nodes_single] at mem
      rcases List.mem_cons.mp mem with rfl | under
      · exact absurd hit (others d.handle _ root valued)
      · exact ⟨d, under, rfl, same⟩
    cases found : t.findBy hits with
    | none => exact absurd hit (shows.findBy_eq_none_iff.mp found h x valued)
    | some k =>
      obtain ⟨y, valued', hit'⟩ := shows.of_findBy_eq_some found
      obtain ⟨c, first, rfl, rfl⟩ := inside valued hit
      obtain ⟨d, second, rfl, rfl⟩ := inside valued' hit'
      have same : compare d.value c.value = .eq :=
        Std.TransCmp.eq_trans ((agree _).mp hit') (Std.OrientedCmp.eq_symm ((agree _).mp hit))
      rw [(nests.nested shows).eq_of_compare second first same]

/-- In a tree of paths under the path policy that has grown from at most a root, by insertions that go
one segment beyond the parent, where the root stands for `base`, a lookup finds the root if its path is
the target's, and else the one node whose path that is. -/
theorem Reachable.find_path [Std.TransOrd κ] [Std.LawfulEqOrd κ] (reached : t.Reachable)
    (policy : t.policy = .pathOrder) (bare : t.len ≤ 1) (base : List κ)
    (deepens : ∀ s ∈ t.steps es, s.2.Deepens base s.1) (target : α) :
    (∀ r x, (t.performAll es).root = some r → (t.performAll es).get? r = some x →
        route x = route target → (t.performAll es).find target = some r) ∧
      ((∀ r x, (t.performAll es).root = some r → (t.performAll es).get? r = some x →
          ¬route x = route target) →
        ∀ h, (t.performAll es).find target = some h ↔
          ∃ x, (t.performAll es).get? h = some x ∧ route x = route target) := by
  have : Std.TransOrd α := transOrd
  have sorts : t.policy.SortsBy compare := policy ▸ Policy.BuiltInKeyed.pathOrder.sortsBy
  obtain ⟨f, shows, ordered⟩ := reached.exists_ordered_forest sorts
  obtain ⟨f', shown, ordered'⟩ := shows.performAll_ordered ordered sorts es
  have spreads : (t.performAll es).Spreads base :=
    (shows.spreads_of_bare bare base).performAll shows sorts.inRange sorts.keyed deepens
  simp only [← compare_eq_iff]
  exact (spreads.nests shown ordered').find_cases shown
    (by rw [policy_performAll, policy]) target

/-- A root of a file tree, which stands for the empty path. -/
def fileRoot : Tree FileEntry := (Tree.withRoot ⟨"/", true⟩ .pathOrder .start).1

/-- A directory, a file whose name goes on from the directory's, and a file in the directory. -/
def fileEdits : List (Edit (Tree FileEntry) FileEntry) :=
  [.insert ⟨1, 0, 0⟩ ⟨"/b/", true⟩, .insert ⟨1, 0, 0⟩ ⟨"/b-x", false⟩,
    .insert ⟨1, 1, 0⟩ ⟨"/b/y", false⟩]

theorem find_path_sample :
    ((fileRoot.performAll fileEdits).get? ⟨1, 2, 0⟩).map FileEntry.path = some "/b-x" ∧
      ((fileRoot.performAll fileEdits).get? ⟨1, 3, 0⟩).map FileEntry.path = some "/b/y" ∧
      (fileRoot.performAll fileEdits).find ⟨"b//y/", true⟩ = some ⟨1, 3, 0⟩ := by
  have deepens : ∀ s ∈ fileRoot.steps fileEdits, s.2.Deepens ([] : List String) s.1 := by
    have insert : ∀ {t : Tree FileEntry} {p x} b c,
        (t.get? p).map (t.baseAt ([] : List String) p) = some b → route x = b ++ [c] →
        (Edit.insert p x).Deepens ([] : List String) t := by
      rintro t p x b c above here y stored
      rw [stored] at above
      cases above
      exact ⟨c, here⟩
    intro s mem
    simp only [fileEdits, steps, List.mem_cons, List.not_mem_nil, or_false] at mem
    rcases mem with rfl | rfl | rfl
    · exact insert [] "b" (by decide +kernel) (by decide +kernel)
    · exact insert [] "b-x" (by decide +kernel) (by decide +kernel)
    · exact insert ["b"] "y" (by decide +kernel) (by decide +kernel)
  have reached : fileRoot.Reachable :=
    ⟨[.withRoot ⟨"/", true⟩ .pathOrder], List.mem_singleton.mpr rfl⟩
  have found := (reached.find_path rfl (by decide +kernel) [] deepens ⟨"b//y/", true⟩).2
  refine ⟨by decide +kernel, by decide +kernel, (found ?_ _).mpr ?_⟩
  · intro r x root valued
    have top : ((fileRoot.performAll fileEdits).root.bind fun r =>
        (fileRoot.performAll fileEdits).get? r).map route = some [] := by decide +kernel
    rw [root, Option.bind_some, valued, Option.map_some, Option.some.injEq] at top
    rw [top]
    decide +kernel
  · have stored : ((fileRoot.performAll fileEdits).get? ⟨1, 3, 0⟩).map route =
        some (route (⟨"b//y/", true⟩ : FileEntry)) := by decide +kernel
    exact Option.map_eq_some_iff.mp stored

/-- Names that only begin alike do not come between a directory and its entries. -/
example : (fileRoot.performAll fileEdits).values.map FileEntry.path =
    ["/", "/b/", "/b/y", "/b-x"] := by
  decide +kernel

end Tree

end PolicyTree
