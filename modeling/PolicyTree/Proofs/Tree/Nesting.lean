import PolicyTree.Proofs.Tree.Search
import PolicyTree.Proofs.Tree.Soundness

/-! Where a tree nests, a lookup by the path policy finds what a full scan finds. -/

namespace PolicyTree

variable {α β : Type}

/-- A search ends at an index if nothing before it is a hit, and nothing after it unless it is. -/
theorem findSome?_eq_at {xs : List α} {k : α → Option β} {i : Nat} {x : α} (entry : xs[i]? = some x)
    (before : ∀ (j : Nat) y, j < i → xs[j]? = some y → k y = none)
    (after : k x = none → ∀ (j : Nat) y, i < j → xs[j]? = some y → k y = none) :
    xs.findSome? k = k x := by
  induction xs generalizing i with
  | nil => simp at entry
  | cons y ys ih =>
    rw [List.findSome?_cons]
    cases i with
    | zero =>
      obtain rfl : y = x := by simpa using entry
      cases here : k y with
      | some b => rfl
      | none =>
        apply List.findSome?_eq_none_iff.mpr
        intro z mem
        obtain ⟨j, later⟩ := List.mem_iff_getElem?.mp mem
        exact after here (j + 1) z (Nat.succ_pos j) (by simpa using later)
    | succ i =>
      rw [before 0 y (Nat.succ_pos i) (by simp)]
      apply ih (by simpa using entry)
      · intro j z lt at_j
        exact before (j + 1) z (by omega) (by simpa using at_j)
      · intro miss j z lt at_j
        exact after miss (j + 1) z (by omega) (by simpa using at_j)

theorem Sprig.find?_nodes_of_pos {s : Sprig α} {p : α → Bool} (hit : p s.value = true) :
    s.nodes.find? (p ·.value) = some s :=
  List.find?_cons_of_pos hit

theorem Sprig.find?_nodes_of_neg {s : Sprig α} {p : α → Bool} (miss : ¬p s.value = true) :
    s.nodes.find? (p ·.value) = s.below.nodes.find? (p ·.value) :=
  List.find?_cons_of_neg miss

/-! ## Nested forests -/

namespace Forest

/-- Every subtree comes before the later siblings of its root. -/
def Apart (cmp : α → α → Ordering) (b : Forest α) : Prop :=
  b.sprigs.Pairwise fun c d => ∀ k ∈ c.nodes, cmp k.value d.value = .lt

/-- Nodes come before what stands below them, and subtrees do not interleave. -/
structure Nested (cmp : α → α → Ordering) (f : Forest α) : Prop where
  above : ∀ s ∈ f.nodes, ∀ k ∈ s.below.nodes, cmp s.value k.value = .lt
  apart : f.Apart cmp
  apart_below : ∀ s ∈ f.nodes, s.below.Apart cmp

namespace Nested

variable {cmp : α → α → Ordering} {f : Forest α} {s : Sprig α} {target : α} {hits : α → Bool}
  {i : Nat}

theorem below (nested : f.Nested cmp) (mem : s ∈ f.nodes) : s.below.Nested cmp where
  above c under := nested.above c (mem_nodes_of_mem_below mem under)
  apart := nested.apart_below s mem
  apart_below c under := nested.apart_below c (mem_nodes_of_mem_below mem under)

theorem later {h : Handle} {x : α} {below later : Forest α}
    (nested : (cons h x below later).Nested cmp) : later.Nested cmp where
  above c mem := nested.above c (by simp [nodes, mem])
  apart := List.Pairwise.of_cons nested.apart
  apart_below c mem := nested.apart_below c (by simp [nodes, mem])

theorem ascending (nested : f.Nested cmp) : Ascending cmp f.rootValues := by
  rw [Ascending, rootValues, List.pairwise_map]
  exact nested.apart.imp fun apart => apart _ (List.mem_cons_self ..)

variable [Std.TransCmp cmp]

theorem gt_of_mem_nodes (nested : f.Nested cmp) (mem : s ∈ f.nodes) (gt : cmp s.value target = .gt)
    {k : Sprig α} (inside : k ∈ s.nodes) : cmp k.value target = .gt := by
  rcases List.mem_cons.mp inside with rfl | under
  · exact gt
  · exact Std.TransCmp.gt_trans (Std.OrientedCmp.gt_of_lt (nested.above s mem k under)) gt

/-- The pre-order of a nested forest is strictly increasing. -/
theorem pairwise_nodes (nested : f.Nested cmp) :
    f.nodes.Pairwise fun k d => cmp k.value d.value = .lt := by
  induction f with
  | nil => exact .nil
  | cons h x below later ihBelow ihLater =>
    have first : (⟨h, x, below⟩ : Sprig α) ∈ (cons h x below later).nodes := List.mem_cons_self ..
    have before : ∀ k ∈ (⟨h, x, below⟩ : Sprig α).nodes, ∀ d ∈ later.nodes,
        cmp k.value d.value = .lt := by
      intro k inside d mem
      rw [nodes_eq_flatMap] at mem
      obtain ⟨e, top, under⟩ := List.mem_flatMap.mp mem
      have less := (List.pairwise_cons.mp nested.apart).1 e top k inside
      rcases List.mem_cons.mp under with rfl | under
      · exact less
      · exact Std.TransCmp.lt_trans less
          (nested.later.above e (mem_nodes_of_mem_sprigs top) d under)
    rw [nodes, List.pairwise_cons, List.pairwise_append]
    refine ⟨fun k mem => ?_, ihBelow (nested.below first), ihLater nested.later, fun k mem => ?_⟩
    · rcases List.mem_append.mp mem with under | mem
      · exact nested.above _ first k under
      · exact before _ (List.mem_cons_self ..) k mem
    · exact before k (List.mem_cons_of_mem _ mem)

/-- No two nodes of a nested forest compare equal. -/
theorem eq_of_compare (nested : f.Nested cmp) {k d : Sprig α} (first : k ∈ f.nodes)
    (second : d ∈ f.nodes) (same : cmp k.value d.value = .eq) : k = d := by
  have below : f.nodes.Pairwise fun k d => cmp k.value d.value = .eq → k = d := by
    refine nested.pairwise_nodes.imp fun less equal => ?_
    rw [less] at equal
    cases equal
  have above : f.nodes.Pairwise fun k d => cmp d.value k.value = .eq → d = k := by
    refine nested.pairwise_nodes.imp fun less equal => ?_
    rw [Std.OrientedCmp.eq_symm equal] at less
    cases less
  exact below.forall_of_forall_of_flip (fun _ _ _ => rfl) above first second same

/-- A scan in pre-order gets to the subtree of a sibling that is not above the target, and past it
only if some later sibling is not above the target either. -/
theorem find?_nodes (nested : f.Nested cmp) (agree : ∀ x, hits x = true ↔ cmp x target = .eq)
    (entry : f.sprigs[i]? = some s) (notAbove : cmp s.value target ≠ .gt)
    (last : cmp s.value target ≠ .eq →
      ∀ (j : Nat) d, i < j → f.sprigs[j]? = some d → cmp d.value target = .gt) :
    f.nodes.find? (hits ·.value) = s.nodes.find? (hits ·.value) := by
  rw [nodes_eq_flatMap, List.find?_flatMap]
  -- Subtrees before this one end below its root, those after it start above the target.
  apply findSome?_eq_at entry
  · intro j c before at_j
    apply List.find?_eq_none.mpr
    intro k inside hit
    obtain ⟨hi, rfl⟩ := List.getElem?_eq_some_iff.mp entry
    obtain ⟨hj, rfl⟩ := List.getElem?_eq_some_iff.mp at_j
    have less := List.pairwise_iff_getElem.mp nested.apart j i hj hi before k inside
    have equal := (agree _).mp hit
    apply notAbove
    apply Std.OrientedCmp.gt_of_lt
    exact Std.TransCmp.lt_of_eq_of_lt (Std.OrientedCmp.eq_symm equal) less
  · intro missed j d after at_j
    have differs : cmp s.value target ≠ .eq := by
      intro equal
      rw [Sprig.find?_nodes_of_pos ((agree _).mpr equal)] at missed
      cases missed
    have gt := last differs j d after at_j
    apply List.find?_eq_none.mpr
    intro k inside hit
    have above := nested.gt_of_mem_nodes
      (mem_nodes_of_mem_sprigs (List.mem_of_getElem? at_j)) gt inside
    rw [(agree _).mp hit] at above
    cases above

end Nested

/-! ## Lookups -/

variable [Ord α] [Std.TransOrd α] {target : α} {hits : α → Bool} {b f : Forest α}

/-- Among nested siblings the path policy comes to the first hit of a scan in pre-order. -/
theorem judge_nested (nested : b.Nested compare)
    (agree : ∀ x, hits x = true ↔ compare x target = .eq) :
    b.judge .pathOrder target (b.sprigs.map fun s =>
        (s.below.nodes.find? (hits ·.value)).map fun k => some k.handle) =
      (b.nodes.find? (hits ·.value)).map fun k => some k.handle := by
  have descend : (Policy.pathOrder : Policy α).descend = Policy.keyedDescend compare := rfl
  rw [judge, descend]
  rcases nested.ascending.keyedDescend_cases target with
    ⟨miss, great⟩ | ⟨i, y, found, entry, same⟩ | ⟨i, y, into, entry, less, last⟩
  · have nowhere : b.nodes.find? (hits ·.value) = none := by
      apply List.find?_eq_none.mpr
      intro k inside hit
      rw [nodes_eq_flatMap] at inside
      obtain ⟨s, top, inside⟩ := List.mem_flatMap.mp inside
      have gt := great s.value (List.mem_map.mpr ⟨s, top, rfl⟩)
      have above := nested.gt_of_mem_nodes (mem_nodes_of_mem_sprigs top) gt inside
      rw [(agree _).mp hit] at above
      cases above
    rw [miss, nowhere]
    rfl
  · rw [getElem?_rootValues] at entry
    obtain ⟨s, place, rfl⟩ := Option.map_eq_some_iff.mp entry
    have here : b.roots[i]? = some s.handle := by simp [place]
    rw [found, nested.find?_nodes agree place (by simp [same]) (fun differs => absurd same differs),
      Sprig.find?_nodes_of_pos ((agree _).mpr same)]
    simp [here]
  · rw [getElem?_rootValues] at entry
    obtain ⟨s, place, rfl⟩ := Option.map_eq_some_iff.mp entry
    have passed : ¬hits s.value = true := by
      intro hit
      rw [(agree _).mp hit] at less
      cases less
    rw [into, nested.find?_nodes agree place (by simp [less]) (fun _ j d after at_j => ?_),
      Sprig.find?_nodes_of_neg passed]
    · simp [place]
    · exact last j d.value after (by simp [at_j])

theorem verdictsBelow_nested (nested : f.Nested compare)
    (agree : ∀ x, hits x = true ↔ compare x target = .eq) :
    f.verdictsBelow .pathOrder target = f.sprigs.map fun s =>
      (s.below.nodes.find? (hits ·.value)).map fun k => some k.handle := by
  induction f with
  | nil => rfl
  | cons h x below later ihBelow ihLater =>
    have inside : below.Nested compare := nested.below (s := ⟨h, x, below⟩) (by simp [nodes])
    rw [verdictsBelow, ihBelow inside, judge_nested inside agree, ihLater nested.later]
    rfl

theorem verdict_nested (nested : f.Nested compare)
    (agree : ∀ x, hits x = true ↔ compare x target = .eq) :
    f.verdict .pathOrder target =
      (f.nodes.find? (hits ·.value)).map fun k => some k.handle := by
  rw [verdict, verdictsBelow_nested nested agree, judge_nested nested agree]

end Forest

namespace Tree

open Forest

variable [Ord α] {t : Tree α} {f : Forest α} {s : Sprig α}

/-- Apart from the root, nodes come before all that stands below them, and every subtree comes
before the later siblings of its root. -/
structure Nests (t : Tree α) : Prop where
  above : ∀ a b x y, t.root ≠ some a → Relation.TransGen t.Lists a b → t.get? a = some x →
    t.get? b = some y → compare x y = .lt
  apart : ∀ p n, t.node? p = some n → n.children.Pairwise fun c d => ∀ b y z,
    Relation.ReflTransGen t.Lists c b → t.get? b = some y → t.get? d = some z → compare y z = .lt

theorem Nests.apart_below (nests : t.Nests) (shows : t.Shows f) (mem : s ∈ f.nodes) :
    s.below.Apart compare := by
  obtain ⟨p, stored⟩ := shows.stores.exists_node? mem
  have apart := nests.apart s.handle _ stored
  rw [roots, List.pairwise_map] at apart
  apply apart.imp_of_mem
  intro c d first second less k inside
  have top := mem_nodes_of_child mem first
  apply less k.handle k.value d.value (shows.stores.reaches top inside)
  · exact shows.stores.get?_eq ((nodes_sublist top).subset inside)
  · exact shows.stores.get?_eq (mem_nodes_of_child mem second)

/-- In a tree that nests the forest below the root is nested. -/
theorem Nests.nested (nests : t.Nests) (shows : t.Shows (ofSprigs [s])) :
    s.below.Nested compare where
  above c mem k under := by
    have whole := shows.nodup
    rw [ofSprigs, handles_cons, List.nodup_cons, List.mem_append, not_or] at whole
    have inside := mem_nodes_of_mem_below (mem_nodes_single s) mem
    apply nests.above c.handle k.handle c.value k.value _
      (shows.stores.reaches_below inside under) (shows.stores.get?_eq inside)
      (shows.stores.get?_eq (mem_nodes_of_mem_below inside under))
    intro root
    have top : (ofSprigs [s]).roots = [c.handle] := by rw [shows.roots_eq, root, Option.toList_some]
    obtain same : s.handle = c.handle := by simpa using top
    exact whole.1.1 (same ▸ mem_handles mem)
  apart := nests.apart_below shows (mem_nodes_single s)
  apart_below c mem := nests.apart_below shows (mem_nodes_of_mem_below (mem_nodes_single s) mem)

/-- Where a tree nests, a lookup comes to the first value of a scan that compares equal. -/
theorem Nests.find_eq_findBy_hits [Std.TransOrd α] (nests : t.Nests) (shows : t.Shows f)
    (policy : t.policy = .pathOrder) {target : α} {hits : α → Bool}
    (agree : ∀ x, hits x = true ↔ compare x target = .eq) : t.find target = t.findBy hits := by
  rw [shows.find_eq, shows.findBy_eq, policy]
  rcases shows.sprigs_eq with ⟨-, rfl⟩ | ⟨s, -, rfl⟩
  · rfl
  · have agrees : Policy.pathOrder.agrees s.value target = hits s.value := by
      rw [Bool.eq_iff_iff, agree]
      exact beq_iff_eq
    rw [sprigs_ofSprigs, List.head?_cons, Option.bind_some, nodes_single, agrees,
      verdict_nested (nests.nested shows) agree]
    split
    case isTrue hit => rw [Sprig.find?_nodes_of_pos hit, Option.map_some]
    case isFalse miss =>
      rw [Sprig.find?_nodes_of_neg miss]
      cases s.below.nodes.find? (hits ·.value) <;> rfl

/-- In a tree under the path policy that nests, the descent through one child per level finds what a
scan of the whole tree for the target finds: no stored value is missed, and no other is found. -/
theorem Reachable.find_eq_findBy [BEq α] [Std.TransOrd α] [Std.LawfulBEqOrd α]
    (reached : t.Reachable) (policy : t.policy = .pathOrder) (nests : t.Nests) (target : α) :
    t.find target = t.findBy (· == target) ∧
      (∀ h, t.find target = some h → ∃ x, t.get? h = some x ∧ (x == target) = true) ∧
      (t.find target = none ↔ ∀ h x, t.get? h = some x → ¬(x == target) = true) := by
  have builtIn : t.policy.BuiltIn := policy ▸ .keyed .pathOrder
  obtain ⟨f, shows, -⟩ := reached.exists_forest builtIn.inRange
  have equal : t.find target = t.findBy (· == target) :=
    nests.find_eq_findBy_hits shows policy fun _ => Std.LawfulBEqOrd.compare_eq_iff_beq.symm
  rw [equal]
  exact ⟨rfl, fun h => shows.of_findBy_eq_some, shows.findBy_eq_none_iff⟩

/-- Whether a tree nests can be told from pairs of nodes, if each node is paired with its children
and with theirs in turn. -/
theorem Shows.nests_of_pairs (shows : t.Shows f) (pairs : List (Handle × Handle))
    (links : ∀ a ∈ t.handles, ∀ b ∈ t.childrenAt a, (a, b) ∈ pairs)
    (onward : ∀ e ∈ pairs, ∀ c ∈ t.childrenAt e.2, (e.1, c) ∈ pairs)
    (above : ∀ e ∈ pairs, t.root ≠ some e.1 → ∀ x ∈ t.get? e.1, ∀ y ∈ t.get? e.2,
      compare x y = .lt)
    (apart : ∀ p ∈ t.handles, (t.childrenAt p).Pairwise fun c d =>
      ∀ e ∈ (c, c) :: pairs, e.1 = c → ∀ y ∈ t.get? e.2, ∀ z ∈ t.get? d, compare y z = .lt) :
    t.Nests := by
  have paired : ∀ {a b : Handle}, Relation.TransGen t.Lists a b → (a, b) ∈ pairs := by
    intro a b path
    induction path with
    | single link =>
      obtain ⟨inside, child⟩ := shows.mem_of_lists link
      exact links _ inside _ child
    | tail _ link ih => exact onward _ ih _ (shows.mem_of_lists link).2
  constructor
  · intro a b x y other path first second
    exact above (a, b) (paired path) other x first y second
  · intro p n live
    have listed : t.childrenAt p = n.children := by
      rw [childrenAt, live]
      rfl
    have inside : p ∈ t.handles := by
      rw [shows.handles_eq]
      exact shows.contains_iff.mp (Arena.contains_iff.mpr ⟨n, live⟩)
    rw [← listed]
    refine (apart p inside).imp fun {c d} less b y z path first second => ?_
    rcases Relation.reflTransGen_iff_eq_or_transGen.mp path with rfl | path
    · exact less _ (List.mem_cons_self ..) rfl y first z second
    · exact less (c, b) (List.mem_cons_of_mem _ (paired path)) rfl y first z second

/-- Both 9 and 13 are found by way of 7, and 10 is between them. -/
theorem find_eq_findBy_sample :
    (Tree.sampleDeep .pathOrder).find 9 = some ⟨1, 4, 0⟩ ∧
      (Tree.sampleDeep .pathOrder).find 9 = (Tree.sampleDeep .pathOrder).findBy (· == 9) ∧
      ∀ h x, (Tree.sampleDeep .pathOrder).get? h = some x → ¬(x == 10) = true := by
  have inRange : (Tree.sampleDeep .pathOrder).policy.InRange := by
    rw [policy_sampleDeep]
    exact Policy.inRange_of_place_eq rfl
  obtain ⟨f, shows, -⟩ := (reachable_sampleDeep .pathOrder).exists_forest inRange
  have nests : (Tree.sampleDeep .pathOrder).Nests := by
    apply shows.nests_of_pairs
      [(⟨1, 0, 0⟩, ⟨1, 1, 0⟩), (⟨1, 0, 0⟩, ⟨1, 2, 0⟩), (⟨1, 0, 0⟩, ⟨1, 3, 0⟩),
        (⟨1, 0, 0⟩, ⟨1, 4, 0⟩), (⟨1, 1, 0⟩, ⟨1, 3, 0⟩), (⟨1, 1, 0⟩, ⟨1, 4, 0⟩)]
    all_goals decide +kernel
  have spec := (reachable_sampleDeep .pathOrder).find_eq_findBy (policy_sampleDeep _) nests
  have missed : (Tree.sampleDeep .pathOrder).find 10 = none := by decide +kernel
  exact ⟨by decide +kernel, (spec 9).1, (spec 10).2.2.mp missed⟩

end Tree

end PolicyTree
