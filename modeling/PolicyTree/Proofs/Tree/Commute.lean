import PolicyTree.Proofs.Tree.Concord
import PolicyTree.Proofs.Tree.History
import PolicyTree.Proofs.Tree.Nesting

/-! Edits in two subtrees that have nothing in common can be made in either order. -/

namespace PolicyTree

open Forest
open scoped List

variable {α β : Type}

/-! ## Nodes apart -/

namespace Forest

variable {f : Forest α} {s c : Sprig α}

/-- Of two nodes one stands below the other, or their subtrees have nothing in common. -/
theorem nested_or_apart (nodup : f.handles.Nodup) (first : s ∈ f.nodes) (second : c ∈ f.nodes) :
    s ∈ c.nodes ∨ c ∈ s.nodes ∨ ∀ h ∈ s.handles, h ∉ c.handles := by
  induction f with
  | nil => simp at first
  | cons h x below later ihBelow ihLater =>
    obtain ⟨-, nodupBelow, nodupLater, apart⟩ := nodup_cons_iff.mp nodup
    have under : ∀ {g : Forest α} {k : Sprig α}, k ∈ g.nodes → ∀ m ∈ k.handles, m ∈ g.handles :=
      fun mem => (handles_sublist mem).subset
    simp only [nodes, List.mem_cons, List.mem_append] at first second
    rcases first with rfl | first | first
    · rcases second with rfl | second | second
      · exact .inl (List.mem_cons_self ..)
      · exact .inr (.inl (List.mem_cons_of_mem _ second))
      · refine .inr (.inr fun m inside there => ?_)
        have elsewhere := under second m there
        rcases List.mem_cons.mp inside with rfl | inside
        · exact (nodup_cons_iff.mp nodup).1.2 elsewhere
        · exact apart m inside elsewhere
    · rcases second with rfl | second | second
      · exact .inl (List.mem_cons_of_mem _ first)
      · exact ihBelow nodupBelow first second
      · exact .inr (.inr fun m inside there => apart m (under first m inside) (under second m there))
    · rcases second with rfl | second | second
      · refine .inr (.inr fun m inside there => ?_)
        have elsewhere := under first m inside
        rcases List.mem_cons.mp there with rfl | there
        · exact (nodup_cons_iff.mp nodup).1.2 elsewhere
        · exact apart m there elsewhere
      · exact .inr (.inr fun m inside there => apart m (under second m there) (under first m inside))
      · exact ihLater nodupLater first second

/-- The stored nodes of a forest are those of one node, those of another apart from it, and
others. -/
theorem exists_split_apart (nodup : f.handles.Nodup) (first : s ∈ f.nodes) (second : c ∈ f.nodes)
    (apart : ∀ h ∈ s.handles, h ∉ c.handles) (p : Option Handle) :
    ∃ q q' others, (f.records p).Perm (s.records q ++ (c.records q' ++ others)) := by
  have part : ∀ {k : Sprig α}, k ∈ f.nodes → ∃ q, k.records q ⊆ f.records p := by
    intro k mem
    obtain ⟨front, back, q, split⟩ := exists_split nodup mem p
    have whole : f.records p = front ++ k.records q ++ back := by simpa using split fun b => b
    refine ⟨q, fun e inside => ?_⟩
    rw [whole]
    exact List.mem_append_left _ (List.mem_append_right _ inside)
  obtain ⟨q, inside⟩ := part first
  obtain ⟨q', inside'⟩ := part second
  have distinct : (s.records q ++ c.records q').Nodup := by
    apply List.Nodup.of_map Prod.fst
    rw [List.map_append, map_fst_records_sprig, map_fst_records_sprig, List.nodup_append']
    refine ⟨?_, ?_, fun h here there => apart h here there⟩
    · exact nodup.sublist (handles_sublist first)
    · exact nodup.sublist (handles_sublist second)
  obtain ⟨whole, same, sub⟩ :=
    List.subperm_iff.mp (List.subperm_of_subset distinct (List.append_subset.mpr ⟨inside, inside'⟩))
  obtain ⟨others, split⟩ := sub.exists_perm_append
  refine ⟨q, q', others, ?_⟩
  rw [← List.append_assoc]
  exact same.symm.trans split

end Forest

theorem Arena.Holds.perm_of_holds {a : Arena α} {bs cs : List (Handle × α)} (first : a.Holds bs)
    (second : a.Holds cs) : bs.Perm cs := by
  rw [List.perm_ext_iff_of_nodup (first.nodup.of_map _) (second.nodup.of_map _)]
  rintro ⟨h, x⟩
  rw [← first.bound, ← second.bound]

/-! ## Trees under other handles -/

def Answer.rename (σ : Handle → Handle) : Answer α → Answer α
  | handle h => handle (σ h)
  | answer => answer

theorem Edit.rename_id {τ : Type} (e : Edit τ α) : e.rename id = e := by
  cases e with
  | sortBy first last cmp => rw [rename, Option.map_id]; rfl
  | _ => rfl

namespace Tree

variable {t u : Tree α} {f g : Forest α} {s c : Sprig α} {π σ : Handle → Handle} {h : Handle}
  {n : Node α} {a b : Edit (Tree α) α}

theorem Shows.copies_rename (shows : t.Shows f) (shown : u.Shows (f.rename π)) :
    u.Copies t {h | t.contains h = true} t.root some π := by
  have listed : (f.rename π).records none = (f.records none).map (renameEntry π) :=
    records_rename π f none
  refine ⟨?_, ⟨fun h live => ?_, fun h live k live' same => ?_, fun k live => ?_⟩,
    fun h live n stored => ⟨n.children, rfl, ?_⟩⟩
  · have top : u.root.toList = t.root.toList.map π := by
      rw [← shown.roots_eq, roots_rename, shows.roots_eq]
    cases root : t.root with
    | none => simpa [root] using top
    | some r => simpa [root, Option.toList_eq_singleton_iff] using top
  · apply shown.contains_iff.mpr
    rw [handles_rename]
    exact List.mem_map_of_mem (shows.contains_iff.mp live)
  · have nodup := shown.nodup
    rw [handles_rename] at nodup
    exact List.inj_on_of_nodup_map nodup (shows.contains_iff.mp live) (shows.contains_iff.mp live')
      same
  · have inside := shown.contains_iff.mp live
    rw [handles_rename] at inside
    obtain ⟨h, here, same⟩ := List.mem_map.mp inside
    exact ⟨h, shows.contains_iff.mpr here, same⟩
  · have parent : (if t.root = some h then none else n.parent.map π) = n.parent.map π := by
      split
      case isTrue root =>
        obtain ⟨m, live, top⟩ := shows.rooted.parentless h root
        rw [stored] at live
        rw [Option.some.inj live, top]
        rfl
      case isFalse => rfl
    rw [parent, shown.node?_eq_some_iff, listed]
    exact List.mem_map_of_mem (f := renameEntry π) (shows.node?_eq_some_iff.mp stored)

theorem Shows.preOrder_rename (shows : t.Shows f) (shown : u.Shows (f.rename π)) :
    u.preOrder = t.preOrder.map (·.rename π) := by
  rw [shown.preOrder_eq, shows.preOrder_eq]
  exact visits_rename π f 0

/-- A stored node refers to live nodes only. -/
theorem Shows.renameEntry_eq (shows : t.Shows f) (fixed : ∀ h, t.contains h = true → π h = h)
    (stored : t.node? h = some n) : renameEntry π (h, n) = (h, n) := by
  have here := fixed h (Arena.contains_iff.mpr ⟨n, stored⟩)
  have parent : n.parent.map π = n.parent := by
    cases up : n.parent with
    | none => rfl
    | some p =>
      obtain ⟨m, live, -⟩ := shows.lists_parent stored up
      exact congrArg some (fixed p (Arena.contains_iff.mpr ⟨m, live⟩))
  have children : n.children.map π = n.children := by
    refine (List.map_congr_left fun c listed => ?_).trans (List.map_id _)
    obtain ⟨m, live, -⟩ := shows.rooted.points_back h c ⟨n, stored, listed⟩
    exact fixed c (Arena.contains_iff.mpr ⟨m, live⟩)
  rw [renameEntry, Node.rename, here, parent, children]

/-! ## Two edits -/

/-- A handle that one edit kills is not issued again by the next. -/
theorem Shows.not_revived (shows : t.Shows f) (live : t.contains h = true)
    (dead : ¬(t.perform a).tree.contains h = true) : ¬(t.performAll [a, b]).contains h = true := by
  intro again
  have freed := shows.frees_of_dead live dead
  have often := dvd_timesFreed live again
  have counted : t.timesFreed h.index [a, b] = 1 ∨ t.timesFreed h.index [a, b] = 2 := by
    rw [timesFreed, steps, steps, steps, List.countP_cons, List.countP_cons, List.countP_nil,
      if_pos freed]
    split
    · exact .inr rfl
    · exact .inl rfl
  rcases counted with once | twice
  · rw [once] at often
    omega
  · rw [twice] at often
    omega

theorem Stores.twins_self {q : Option Handle} {rest : List (Handle × Node α)}
    (stores : t.Stores q f rest) : Twins t q rest t q rest f id :=
  ⟨stores, by rwa [rename_id], rfl⟩

theorem outcome_eq_map {o o' : Outcome (Answer α)} {foreign : Handle → Prop}
    (alike : Outcome.Alike (TreeError.Alike (f.Names id) foreign) (Answer.Alike (g.Names σ)) o o')
    (named : ∀ h ∈ g.handles, π h = σ h) : o' = o.map (Answer.rename π) := by
  cases alike with
  | refused same =>
    cases same with
    | taken here => rw [here.2]; rfl
    | notSiblings first last => rw [first.2, last.2]; rfl
    | _ => rfl
  | done same =>
    cases same with
    | handle here => rw [here.2, ← named _ here.1]; rfl
    | _ => rfl

theorem map_fst_append (s : Sprig α) (q : Option Handle) (others : List (Handle × Node α)) :
    h ∈ (s.records q ++ others).map Prod.fst ↔ h ∈ s.handles ∨ h ∈ others.map Prod.fst := by
  rw [List.map_append, List.mem_append, map_fst_records_sprig]

/-- A tree that holds the stored nodes of another under other handles, with the root where it was,
shows its forest under these handles. -/
theorem Shows.of_renamed (shows : t.Shows f)
    (holds : u.arena.Holds ((f.records none).map (renameEntry π)))
    (root : u.root.toList = t.root.toList.map π) : u.Shows (f.rename π) where
  roots_eq := by rw [roots_rename, shows.roots_eq, root]
  stores := by
    have listed : (f.rename π).records none = (f.records none).map (renameEntry π) :=
      records_rename π f none
    rwa [stores_nil_iff, listed]

/-- `σ` on the handles of `x`, `ρ` on those of `y`, and no change to others. -/
def merge (σ ρ : Handle → Handle) (x y : Forest α) (h : Handle) : Handle :=
  if h ∈ x.handles then σ h else if h ∈ y.handles then ρ h else h

section Parts

variable {q q' : Option Handle} {others : List (Handle × Node α)} {x y y' : Forest α}
  {ρ : Handle → Handle}

/-- The forests that two edits make of the parts `s` and `c` can be put under handles of their own
without a change to those that were there before. -/
theorem Shows.merge_eq_self (shows : t.Shows f)
    (here : t.Stores q (ofSprigs [s]) (c.records q' ++ others))
    (once : (t.perform a).tree.Stores q x (c.records q' ++ others))
    (twice : (t.performAll [a, b]).Stores q' y (x.records q ++ others))
    (agree : ∀ h ∈ s.handles, σ h = h) (agree' : ∀ h ∈ c.handles, ρ h = h)
    (live : t.contains h = true) : merge σ ρ x y h = h := by
  have place := here.contains_iff.mp live
  rw [handles_single, map_fst_append] at place
  rw [merge]
  split
  case isTrue new =>
    have elsewhere := once.notMem_rest new
    rw [map_fst_append] at elsewhere
    exact agree h (place.resolve_right elsewhere)
  case isFalse gone =>
    split
    case isTrue new =>
      have elsewhere := twice.notMem_rest new
      have survives := twice.contains_iff.mpr (.inl new)
      rw [List.map_append, List.mem_append, not_or] at elsewhere
      rcases place with inside | inside | outside
      · -- What the first edit took away from `s` is not issued again for `c`.
        refine absurd survives (shows.not_revived live fun stays => ?_)
        have alone := here.notMem_rest (handles_single s ▸ inside)
        exact (once.contains_iff.mp stays).elim gone alone
      · exact agree' h inside
      · exact absurd outside elsewhere.2
    case isFalse => rfl

theorem merge_of_right (twice : u.Stores q' y (x.records q ++ others)) (mem : h ∈ y.handles) :
    merge σ ρ x y h = ρ h := by
  have elsewhere := twice.notMem_rest mem
  rw [List.map_append, List.mem_append, not_or, map_fst_records] at elsewhere
  rw [merge, if_neg elsewhere.1, if_pos mem]

/-- If the parts and what surrounds them are stored under other handles, so is the whole. -/
theorem Shows.holds_renamed {v : Tree α} (shows : v.Shows g)
    (stores : v.Stores q' y (x.records q ++ others))
    (renamed : u.Stores q (x.rename σ) (y'.records q' ++ others))
    (same : (y'.records q').Perm ((y.rename ρ).records q')) (named : ∀ h ∈ x.handles, π h = σ h)
    (named' : ∀ h ∈ y.handles, π h = ρ h) (up : q.map π = q) (up' : q'.map π = q')
    (unmoved : ∀ e ∈ others, renameEntry π e = e) :
    u.arena.Holds ((g.records none).map (renameEntry π)) := by
  have there : (x.records q).map (renameEntry π) = (x.rename σ).records q := by
    rw [← records_rename, up, rename_congr named]
  have there' : (y.records q').map (renameEntry π) = (y.rename ρ).records q' := by
    rw [← records_rename, up', rename_congr named']
  have moved := (shows.holds.perm_of_holds stores).map (renameEntry π)
  rw [List.map_append, List.map_append, there, there', (List.map_congr_left unmoved).trans
    (List.map_id _)] at moved
  apply Arena.Holds.perm renamed
  calc (x.rename σ).records q ++ (y'.records q' ++ others)
      ~ y'.records q' ++ ((x.rename σ).records q ++ others) := List.perm_append_comm_assoc ..
    _ ~ (y.rename ρ).records q' ++ ((x.rename σ).records q ++ others) := same.append_right _
    _ ~ (g.records none).map (renameEntry π) := moved.symm

end Parts

/-- What two edits in different parts of a tree come to in either order. -/
theorem Shows.swap (shows : t.Shows f) (inRange : t.policy.InRange) (first : s ∈ f.nodes)
    (second : c ∈ f.nodes) (apart : ∀ h ∈ s.handles, h ∉ c.handles)
    (within : a.Within (ofSprigs [s])) (within' : b.Within (ofSprigs [c])) :
    ∃ g π, (t.performAll [a, b]).Shows g ∧ (t.performAll [b, a]).Shows (g.rename π) ∧
      (∀ h, t.contains h = true → π h = h) ∧
      ((t.perform b).tree.perform a).outcome = (t.perform a).outcome.map (Answer.rename π) ∧
      (t.perform b).outcome = ((t.perform a).tree.perform b).outcome.map (Answer.rename π) := by
  obtain ⟨q, q', others, split⟩ := exists_split_apart shows.nodup first second apart none
  have here : t.Stores q (ofSprigs [s]) (c.records q' ++ others) := by
    rw [Stores, records_single]
    exact shows.holds.perm split
  have there : t.Stores q' (ofSprigs [c]) (s.records q ++ others) := by
    have beside := here.beside
    rwa [records_single] at beside
  -- `b` alone, `a` before and after `b`, and `b` after and before `a`.
  obtain ⟨y, -, stored, -⟩ := there.twins_self.concur inRange within'
  have aside : Twins t q (c.records q' ++ others) (t.perform b).tree q (y.records q' ++ others)
      (ofSprigs [s]) id := by
    refine ⟨here, ?_, policy_perform t b⟩
    rw [rename_id]
    exact stored.beside
  obtain ⟨x₁, σ, left, right, -, agree, kept, keptAfter, alike⟩ := aside.concur inRange within
  have aside' : Twins (t.perform a).tree q' (x₁.records q ++ others) t q' (s.records q ++ others)
      (ofSprigs [c]) id :=
    ⟨left.beside, by rwa [rename_id], (policy_perform t a).symm⟩
  obtain ⟨y₁, ρ, left', right', -, agree', keptAfter', kept', alike'⟩ :=
    aside'.concur (by rwa [policy_perform]) within'
  rw [Edit.rename_id] at right keptAfter alike right' kept' alike'
  rw [handles_single] at agree agree'
  have fixed : ∀ h, t.contains h = true → merge σ ρ x₁ y₁ h = h :=
    fun h live => shows.merge_eq_self here left left' agree agree' live
  have named : ∀ h ∈ x₁.handles, merge σ ρ x₁ y₁ h = σ h := fun h mem => if_pos mem
  have named' : ∀ h ∈ y₁.handles, merge σ ρ x₁ y₁ h = ρ h := fun h mem => merge_of_right left' mem
  generalize merge σ ρ x₁ y₁ = π at fixed named named'
  obtain ⟨g, shown⟩ := shows.performAll inRange [a, b]
  refine ⟨g, π, shown, shown.of_renamed ?_ ?_, fixed, outcome_eq_map alike named,
    outcome_eq_map alike' named'⟩
  · have same := Arena.Holds.perm_of_holds stored right'
    have up := shows.renameEntry_eq fixed (here.node?_of_mem_sprigs (s := s) (by simp))
    have up' := shows.renameEntry_eq fixed (there.node?_of_mem_sprigs (s := c) (by simp))
    refine shown.holds_renamed left' right ((List.perm_append_right_iff _).mp same) named named'
      (congrArg (·.2.parent) up) (congrArg (·.2.parent) up') fun e mem => ?_
    apply shows.renameEntry_eq fixed
    exact Arena.Holds.get? here (List.mem_append_right _ (List.mem_append_right _ mem))
  · have roots : (t.performAll [a, b]).root = t.root := keptAfter'.trans kept
    have roots' : (t.performAll [b, a]).root = t.root := keptAfter.trans kept'
    rw [roots, roots']
    cases root : t.root with
    | none => rfl
    | some r =>
      obtain ⟨n, stored, -⟩ := shows.rooted.parentless r root
      rw [Option.toList_some, List.map_singleton, fixed r (Arena.contains_iff.mpr ⟨n, stored⟩)]

end Tree

/-! ## Edits inside subtrees -/

/-- The edit concerns only the subtree at `x`: it is asked for at `x` or below, or, if it moves a node
or takes it away, below. -/
def Edit.Inside {τ : Type} (t : Tree α) (x : Handle) : Edit τ α → Prop
  | insert h _ | eraseChildren h | sortChildrenBy h _ | sortChildren h => x = h ∨ t.Above x h
  | replaceValue h _ | replaceSubtree h _ | replaceWithSubtree h _ _ | erase h => t.Above x h
  | setRoot _ | clear | sortBy .. => False

namespace Tree

variable {t : Tree α} {f : Forest α} {s : Sprig α} {x y : Handle} {a b : Edit (Tree α) α}

theorem Shows.within_of_inside (shows : t.Shows f) (mem : s ∈ f.nodes)
    (inside : a.Inside t s.handle) : a.Within (ofSprigs [s]) := by
  have any : ∀ {h}, s.handle = h ∨ t.Above s.handle h → h ∈ (ofSprigs [s]).handles := by
    intro h here
    rw [handles_single]
    exact (shows.self_or_above_iff mem).mp here
  have below : ∀ {h}, t.Above s.handle h → ∃ k ∈ (ofSprigs [s]).nodes, h ∈ k.below.roots := by
    intro h under
    obtain ⟨k, stands, rfl⟩ := List.mem_map.mp ((shows.above_iff mem).mp under)
    rw [nodes_single]
    rcases top_or_child stands with top | ⟨d, inside, child⟩
    · exact ⟨s, List.mem_cons_self .., List.mem_map_of_mem top⟩
    · exact ⟨d, List.mem_cons_of_mem _ inside, List.mem_map_of_mem child⟩
  cases a with
  | setRoot | clear | sortBy => exact inside.elim
  | insert | eraseChildren | sortChildrenBy | sortChildren => exact any inside
  | replaceValue | replaceSubtree | replaceWithSubtree | erase => exact below inside

/-- Edits inside two subtrees, neither of which contains the other, can be made in either order.
Each has the same outcome, and the same nodes are left in the same places, with the same values. New
nodes may have other handles, those that were there keep theirs. -/
theorem Reachable.edits_commute (reached : t.Reachable) (builtIn : t.policy.BuiltIn)
    (liveX : t.contains x = true) (liveY : t.contains y = true) (other : x ≠ y)
    (notAbove : ¬t.Above x y) (notBelow : ¬t.Above y x) (insideX : a.Inside t x)
    (insideY : b.Inside t y) :
    (∃ π, (∀ h, t.contains h = true → π h = h) ∧
        ((t.perform b).tree.perform a).outcome = (t.perform a).outcome.map (Answer.rename π) ∧
        (t.perform b).outcome = ((t.perform a).tree.perform b).outcome.map (Answer.rename π) ∧
        (t.performAll [b, a]).Copies (t.performAll [a, b])
          {h | (t.performAll [a, b]).contains h = true} (t.performAll [a, b]).root some π ∧
        (t.performAll [b, a]).preOrder = (t.performAll [a, b]).preOrder.map (·.rename π)) ∧
      ∀ h, t.contains h = true →
        ((t.performAll [a, b]).contains h = true ↔ (t.performAll [b, a]).contains h = true) := by
  obtain ⟨f, shows, -⟩ := reached.exists_forest builtIn.inRange
  obtain ⟨s, first, rfl⟩ := List.mem_map.mp (shows.contains_iff.mp liveX)
  obtain ⟨c, second, rfl⟩ := List.mem_map.mp (shows.contains_iff.mp liveY)
  rw [shows.above_iff first] at notAbove
  rw [shows.above_iff second] at notBelow
  have apart : ∀ h ∈ s.handles, h ∉ c.handles := by
    rcases nested_or_apart shows.nodup first second with under | under | apart
    · rcases List.mem_cons.mp under with rfl | under
      · exact absurd rfl other
      · exact absurd (mem_handles under) notBelow
    · rcases List.mem_cons.mp under with rfl | under
      · exact absurd rfl other
      · exact absurd (mem_handles under) notAbove
    · exact apart
  have within := shows.within_of_inside first insideX
  have within' := shows.within_of_inside second insideY
  obtain ⟨g, π, shown, shown', fixed, same, same'⟩ :=
    shows.swap builtIn.inRange first second apart within within'
  obtain ⟨g', π', otherShown, otherShown', fixed', -⟩ :=
    shows.swap builtIn.inRange second first (fun h here there => apart h there here) within' within
  refine ⟨⟨π, fixed, same, same', shown.copies_rename shown', shown.preOrder_rename shown'⟩,
    fun h live => ⟨fun stays => ?_, fun stays => ?_⟩⟩
  · have image := shown'.contains_iff.mpr
      (handles_rename π g ▸ List.mem_map_of_mem (shown.contains_iff.mp stays))
    rwa [fixed h live] at image
  · have image := otherShown'.contains_iff.mpr
      (handles_rename π' g' ▸ List.mem_map_of_mem (otherShown.contains_iff.mp stays))
    rwa [fixed' h live] at image

/-- Each insertion takes the slot that the other one would take if it came first. -/
theorem edits_commute_sample :
    (Tree.sample .pathOrder).contains ⟨1, 1, 0⟩ = true ∧
      (Tree.sample .pathOrder).contains ⟨1, 2, 0⟩ = true ∧
      (Edit.insert ⟨1, 1, 0⟩ 9 : Edit (Tree Nat) Nat).Inside (Tree.sample .pathOrder) ⟨1, 1, 0⟩ ∧
      (Edit.insert ⟨1, 2, 0⟩ 4 : Edit (Tree Nat) Nat).Inside (Tree.sample .pathOrder) ⟨1, 2, 0⟩ ∧
      ∃ π : Handle → Handle, π ⟨1, 3, 0⟩ = ⟨1, 4, 0⟩ ∧ π ⟨1, 4, 0⟩ = ⟨1, 3, 0⟩ ∧
        ((Tree.sample .pathOrder).performAll
            [.insert ⟨1, 2, 0⟩ 4, .insert ⟨1, 1, 0⟩ 9]).preOrder =
          ((Tree.sample .pathOrder).performAll
            [.insert ⟨1, 1, 0⟩ 9, .insert ⟨1, 2, 0⟩ 4]).preOrder.map (·.rename π) := by
  have builtIn : (Tree.sample .pathOrder).policy.BuiltIn := by
    rw [policy_sample]
    exact .keyed .pathOrder
  have liveX : (Tree.sample .pathOrder).contains ⟨1, 1, 0⟩ = true := by decide +kernel
  have liveY : (Tree.sample .pathOrder).contains ⟨1, 2, 0⟩ = true := by decide +kernel
  have bare : ∀ {x y : Handle}, x ≠ ⟨1, 0, 0⟩ → ¬(Tree.sample .pathOrder).Above x y := by
    intro x y other above
    obtain ⟨c, link, -⟩ := Relation.TransGen.head'_iff.mp above
    obtain ⟨f, shows, -⟩ := (reachable_sample .pathOrder).exists_forest builtIn.inRange
    obtain ⟨inside, child⟩ := shows.mem_of_lists link
    have flat : ∀ h ∈ (Tree.sample .pathOrder).handles,
        ∀ k ∈ (Tree.sample .pathOrder).childrenAt h, h = ⟨1, 0, 0⟩ := by decide +kernel
    exact other (flat x inside c child)
  obtain ⟨⟨π, -, same, same', -, listed⟩, -⟩ :=
    (reachable_sample .pathOrder).edits_commute (a := .insert ⟨1, 1, 0⟩ 9)
      (b := .insert ⟨1, 2, 0⟩ 4) builtIn liveX liveY (by decide) (bare (by decide))
      (bare (by decide)) (.inl rfl) (.inl rfl)
  have outcome : ((Tree.sample .pathOrder).perform (.insert ⟨1, 1, 0⟩ 9)).outcome =
      .done (.handle ⟨1, 3, 0⟩) := by cbv
  have outcome' : ((Tree.sample .pathOrder).perform (.insert ⟨1, 2, 0⟩ 4)).outcome =
      .done (.handle ⟨1, 3, 0⟩) := by cbv
  have outcomeAfter : (((Tree.sample .pathOrder).perform (.insert ⟨1, 2, 0⟩ 4)).tree.perform
      (.insert ⟨1, 1, 0⟩ 9)).outcome = .done (.handle ⟨1, 4, 0⟩) := by cbv
  have outcomeAfter' : (((Tree.sample .pathOrder).perform (.insert ⟨1, 1, 0⟩ 9)).tree.perform
      (.insert ⟨1, 2, 0⟩ 4)).outcome = .done (.handle ⟨1, 4, 0⟩) := by cbv
  rw [outcome, outcomeAfter] at same
  rw [outcome', outcomeAfter'] at same'
  simp only [Outcome.map, Answer.rename, Outcome.done.injEq, Answer.handle.injEq] at same same'
  exact ⟨liveX, liveY, .inl rfl, .inl rfl, π, same.symm, same'.symm, listed⟩

end Tree

end PolicyTree
