import PolicyTree.Proofs.StableOrder
import PolicyTree.Proofs.Tree.Edits
import PolicyTree.Proofs.Tree.Frame

/-! Which sort requests are accepted, and how an accepted one rearranges siblings. -/

namespace PolicyTree

open Forest

variable {α : Type}

namespace Tree

variable {t t' u : Tree α} {f : Forest α} {q : Option Handle} {rest : List (Handle × Node α)}
  {s c : Sprig α} {i j : Nat} {cmp : α → α → Ordering} {p first : Handle} {last : Option Handle}

/-! ## Accepted requests -/

/-- A range among the children of `p` that goes to before `last` ends at index `j`. -/
def EndsAt (t : Tree α) (p : Handle) : Option Handle → Nat → Prop
  | none, j => j = (t.childrenAt p).length
  | some k, j => t.parent k = .ok (some p) ∧ t.position? k = some j

theorem Shows.rangeEnd_eq_ok_iff (shows : t.Shows f) :
    t.rangeEnd p first last = .ok j ↔ t.EndsAt p last j := by
  cases last with
  | none =>
    rw [rangeEnd, EndsAt, Except.ok.injEq, eq_comm]
  | some k =>
    rw [rangeEnd, EndsAt]
    rcases shows.locate k with ⟨dead, slot⟩ | ⟨s, rfl, rfl, -, slot⟩ | ⟨s, mem, i, c, child, rfl, slot⟩
    · rw [slot, parent, node, dead]
      apply iff_of_false
      · intro found
        cases found
      · rintro ⟨above, -⟩
        cases above
    · rw [slot, shows.parent_of_root]
      apply iff_of_false
      · intro found
        cases found
      · rintro ⟨above, -⟩
        cases above
    · rw [slot, shows.stores.parent_of_child mem child, shows.stores.position?_of_child mem child]
      show (if s.handle = p then _ else _) = _ ↔ _
      by_cases here : s.handle = p
      · rw [if_pos here, here]
        simp [pure, Except.pure]
      · rw [if_neg here]
        apply iff_of_false
        · intro found
          cases found
        · rintro ⟨above, -⟩
          cases above
          exact here rfl

theorem EndsAt.le (ends : t.EndsAt s.handle last j) (shows : t.Shows f) (mem : s ∈ f.nodes) :
    j ≤ s.below.sprigs.length := by
  rw [← length_roots, ← shows.stores.childrenAt_eq mem]
  rcases shows.rangeEnd_cases s.handle s.handle last with ⟨k, inside, found⟩ | ⟨k, -, wrong⟩
  · rw [shows.rangeEnd_eq_ok_iff.mpr ends] at found
    cases found
    exact inside
  · rw [shows.rangeEnd_eq_ok_iff.mpr ends] at wrong
    rcases wrong with ⟨-, wrong⟩ | wrong <;> cases wrong

/-- Among the children of a node a range is accepted if it ends there and not before it begins. -/
theorem Shows.sortBy_of_child (shows : t.Shows f) (mem : s ∈ f.nodes)
    (child : s.below.sprigs[i]? = some c) (last : Option Handle) (cmp : α → α → Ordering) :
    (t.sortBy c.handle last cmp).outcome = .done () ↔ ∃ j, t.EndsAt s.handle last j ∧ i ≤ j := by
  constructor
  · intro done
    rw [sortBy, shows.stores.slotInParent_of_child mem child, require_ok] at done
    dsimp only at done
    cases found : t.rangeEnd s.handle c.handle last with
    | error e =>
      rw [found] at done
      cases done
    | ok j =>
      refine ⟨j, shows.rangeEnd_eq_ok_iff.mp found, ?_⟩
      rw [found, require_ok] at done
      by_cases reversed : j < i
      · rw [if_pos reversed] at done
        cases done
      · omega
  · rintro ⟨j, ends, le⟩
    obtain ⟨t', done, -⟩ :=
      shows.stores.sortBy_eq mem child (shows.rangeEnd_eq_ok_iff.mpr ends) le cmp
    rw [done, answer_outcome]

/-- A request is accepted from a live node on: to the end, from the root to itself, or to a sibling
that does not stand before the first. -/
theorem Shows.sortBy_accepts_iff (shows : t.Shows f) (first : Handle) (last : Option Handle)
    (cmp : α → α → Ordering) :
    (t.sortBy first last cmp).outcome = .done () ↔ t.contains first = true ∧
      (last = none ∨ ∃ k, last = some k ∧ (t.root = some first ∧ k = first ∨
        ∃ p i j, t.parent first = .ok (some p) ∧ t.parent k = .ok (some p) ∧
          t.position? first = some i ∧ t.position? k = some j ∧ i ≤ j)) := by
  rcases shows.locate first with
    ⟨dead, slot⟩ | ⟨s, rfl, rfl, top, slot⟩ | ⟨s, mem, i, c, child, rfl, slot⟩
  · rw [sortBy, slot, require_error]
    apply iff_of_false
    · intro done
      cases done
    · rintro ⟨live, -⟩
      exact Arena.not_contains_iff.mpr dead live
  · have live := shows.stores.contains (mem_nodes_single s)
    have above := shows.parent_of_root
    rw [sortBy, slot, require_ok]
    cases last with
    | none => exact iff_of_true rfl ⟨live, .inl rfl⟩
    | some k =>
      show (t.require (if k = s.handle then _ else _) _).outcome = _ ↔ _
      by_cases same : k = s.handle
      · rw [if_pos same]
        exact iff_of_true rfl ⟨live, .inr ⟨k, rfl, .inl ⟨top, same⟩⟩⟩
      · rw [if_neg same]
        apply iff_of_false
        · intro done
          cases done
        · rintro ⟨-, toEnd | ⟨_, before, accepted⟩⟩
          · cases toEnd
          · cases before
            rcases accepted with ⟨-, here⟩ | ⟨p, i, j, under, -⟩
            · exact same here
            · rw [above] at under
              cases under
  · have live := shows.stores.contains (mem_nodes_of_child mem (List.mem_of_getElem? child))
    have above := shows.stores.parent_of_child mem child
    have position := shows.stores.position?_of_child mem child
    rw [shows.sortBy_of_child mem child]
    cases last with
    | none =>
      have inside := (List.getElem?_eq_some_iff.mp child).1
      refine iff_of_true ⟨_, rfl, ?_⟩ ⟨live, .inl rfl⟩
      rw [shows.stores.childrenAt_eq mem, length_roots]
      omega
    | some k =>
      constructor
      · rintro ⟨j, ⟨beside, there⟩, le⟩
        exact ⟨live, .inr ⟨k, rfl, .inr ⟨s.handle, i, j, above, beside, position, there, le⟩⟩⟩
      · rintro ⟨-, toEnd | ⟨_, before, accepted⟩⟩
        · cases toEnd
        · cases before
          rcases accepted with ⟨top, -⟩ | ⟨p, i', j, under, beside, here, there, le⟩
          · rw [shows.slotInParent_of_root top] at slot
            cases slot
          · rw [above] at under
            rw [position] at here
            cases under
            cases here
            exact ⟨j, ⟨beside, there⟩, le⟩

/-! ## What an accepted request does -/

/-- The value of `a` is not above that of `b`. -/
def AtMost (t : Tree α) (cmp : α → α → Ordering) (a b : Handle) : Prop :=
  ∃ x y, t.get? a = some x ∧ t.get? b = some y ∧ (cmp x y).isLE = true

/-- From `t` to `t'` the children of `p` from index `i` to before index `j` were put in stable order
of their values, each along with all below it. Everything else stayed as it was. -/
structure Rearranges (t t' : Tree α) (cmp : α → α → Ordering) (p : Handle) (i j : Nat) : Prop where
  childrenAt_eq : ∃ sorted,
    t'.childrenAt p = (t.childrenAt p).take i ++ sorted ++ (t.childrenAt p).drop j ∧
    ∀ hs, StablySorted (t.AtMost cmp) (((t.childrenAt p).take j).drop i) hs ↔ hs = sorted
  below : ∀ c ∈ t.childrenAt p, t'.preOrderFrom c = t.preOrderFrom c
  kept : t.Keeps t' ∅ (some p)
  contains_iff : ∀ h, t'.contains h = true ↔ t.contains h = true
  root_eq : t'.root = t.root
  policy_eq : t'.policy = t.policy

theorem Stores.atMost_iff (stores : t.Stores q f rest) (first : s ∈ f.nodes) (second : c ∈ f.nodes) :
    t.AtMost cmp s.handle c.handle ↔ (cmp s.value c.value).isLE = true := by
  rw [AtMost, stores.get?_eq first, stores.get?_eq second]
  simp

/-- The handles of sorted siblings are in stable order. -/
theorem Stores.stablySorted (stores : t.Stores q f rest) (cmp : α → α → Ordering)
    [Std.TransCmp cmp] {ss : List (Sprig α)} (all : ∀ s ∈ ss, s ∈ f.nodes) :
    StablySorted (t.AtMost cmp) (ss.map Sprig.handle)
      ((ss.mergeSort fun s c => (cmp s.value c.value).isLE).map Sprig.handle) := by
  refine (stablySorted_mergeSort cmp Sprig.value ss).map ?_
  intro s first c second
  exact stores.atMost_iff (all s first) (all c second)

theorem Shows.rearranges (shows : t.Shows f) (mem : s ∈ f.nodes) (le : i ≤ j) [Std.TransCmp cmp]
    (shown : t'.Shows (f.mapBelow s.handle (sortAt i j cmp))) (policy : t'.policy = t.policy) :
    t.Rearranges t' cmp s.handle i j := by
  have here := mem_nodes_mapBelow_self shows.nodup mem (sortAt i j cmp)
  have exchanged := exchanged_sortAt shows.nodup mem le cmp
  refine ⟨⟨((((s.below.sprigs.take j).drop i).mergeSort fun s c =>
      (cmp s.value c.value).isLE).map Sprig.handle), ?_, fun hs => ?_⟩, fun k listed => ?_, ?_,
    fun h => ?_, shows.root_eq_of_roots shown (roots_mapBelow ..), policy⟩
  · rw [shown.stores.childrenAt_eq here, shows.stores.childrenAt_eq mem]
    exact roots_sortAt ..
  · have distinct : ((s.below.roots.take j).drop i).Nodup :=
      (nodup_roots_below shows.nodup mem).sublist
        ((List.drop_sublist ..).trans (List.take_sublist ..))
    have sorted := shows.stores.stablySorted cmp (mem_nodes_of_mem_range mem i j)
    rw [shows.stores.childrenAt_eq mem]
    rw [← range_roots] at sorted
    constructor
    · intro other
      exact other.eq sorted distinct
    · rintro rfl
      exact sorted
  · rw [shows.stores.childrenAt_eq mem] at listed
    obtain ⟨d, child, rfl⟩ := List.mem_map.mp listed
    have stays := (sprigs_sortAt_perm le cmp s.below).mem_iff.mpr child
    rw [shows.stores.preOrderFrom_eq (mem_nodes_of_child mem child),
      shown.stores.preOrderFrom_eq (mem_nodes_of_child here stays)]
  · have keeps := shows.keeps_of_exchanged shown exchanged
    simpa using keeps
  · rw [shows.contains_iff_of_exchanged shown exchanged]
    simp

/-! ## Sorting again -/

/-- A change that leaves the children as they are leaves the tree as it is. -/
theorem updateChildren_of_fixed {h : Handle} {k : List Handle → List Handle}
    (fixed : k (t.childrenAt h) = t.childrenAt h) : t.updateChildren h k = t := by
  have same : t.arena.modify h (fun n => { n with children := k n.children }) = t.arena := by
    apply Arena.modify_of_fixed
    intro n stored
    have listed : t.childrenAt h = n.children := by
      rw [childrenAt, node?, stored]
      rfl
    rw [← listed, fixed, listed]
  rw [updateChildren, updateNode, same]

theorem Stores.sortRange_of_sorted (stores : t.Stores q f rest) (mem : s ∈ f.nodes) (le : i ≤ j)
    (sorted : ((s.below.sprigs.take j).drop i).Pairwise fun s c =>
      (cmp s.value c.value).isLE = true) :
    t.sortRange s.handle i j cmp = t.answer () := by
  rw [stores.sortRange_eq_answer mem, List.mergeSort_of_pairwise sorted, ← range_roots,
    updateChildren_of_fixed]
  rw [stores.childrenAt_eq mem]
  exact take_append_range_append_drop le _

section Again

variable (shows : t.Shows f) (mem : s ∈ f.nodes) (le : i ≤ j) (ends : t.EndsAt s.handle last j)
  (shown : t'.Shows (f.mapBelow s.handle (sortAt i j cmp)))

include shows mem le ends shown

/-- A range that has been sorted ends where it ended. -/
theorem Shows.endsAt_sorted : t'.EndsAt s.handle last j := by
  have here := mem_nodes_mapBelow_self shows.nodup mem (sortAt i j cmp)
  have inside := ends.le shows mem
  cases last with
  | none =>
    have length : j = (t.childrenAt s.handle).length := ends
    rw [shows.stores.childrenAt_eq mem, length_roots] at length
    rw [EndsAt, shown.stores.childrenAt_eq here, length_roots,
      (sprigs_sortAt_perm le cmp s.below).length_eq]
    exact length
  | some k =>
    obtain ⟨above, position⟩ := ends
    obtain ⟨d, other, m, c, child, same, rfl⟩ := shows.exists_child_of_parent above
    obtain rfl := node_unique shows.nodup other mem same
    rw [shows.stores.position?_of_child mem child, Option.some.injEq] at position
    subst position
    have stays : (d.below.sortAt i m cmp).sprigs[m]? = some c := by
      rw [getElem?_sortAt_of_le le inside cmp (Nat.le_refl m), child]
    have above' := shown.stores.parent_of_child here stays
    have position' := shown.stores.position?_of_child here stays
    exact ⟨above', position'⟩

/-- To sort a range again, from the child that is first in it now, changes nothing. -/
theorem Shows.sortBy_again (unkeyed : t'.policy.keyed = false) [Std.TransCmp cmp] {again : Handle}
    (entry : (t'.childrenAt s.handle)[i]? = some again) :
    t'.sortBy again last cmp = t'.answer () := by
  have here := mem_nodes_mapBelow_self shows.nodup mem (sortAt i j cmp)
  have sorted := range_sortAt le (ends.le shows mem) cmp
  have endsThere := shows.endsAt_sorted mem le ends shown
  rw [shown.stores.childrenAt_eq here, getElem?_roots] at entry
  obtain ⟨c, child, rfl⟩ := Option.map_eq_some_iff.mp entry
  rw [sortBy, shown.stores.slotInParent_of_child here child, require_ok]
  dsimp only
  rw [shown.rangeEnd_eq_ok_iff.mpr endsThere, require_ok, if_neg (Nat.not_lt.mpr le), unkeyed,
    if_neg Bool.false_ne_true]
  apply shown.stores.sortRange_of_sorted here le
  rw [sorted]
  exact (stablySorted_mergeSort cmp Sprig.value _).ascending

end Again

/-- Under an unkeyed policy a request from a child of `p` that is accepted puts its range in stable
order. To sort the same range again changes nothing. -/
theorem Reachable.sortBy_rearranges (reached : t.Reachable) (unkeyed : t.policy.keyed = false)
    (first : Handle) (last : Option Handle) (cmp : α → α → Ordering) [Std.TransCmp cmp] :
    ((t.sortBy first last cmp).outcome = .done () ↔ t.contains first = true ∧
      (last = none ∨ ∃ k, last = some k ∧ (t.root = some first ∧ k = first ∨
        ∃ p i j, t.parent first = .ok (some p) ∧ t.parent k = .ok (some p) ∧
          t.position? first = some i ∧ t.position? k = some j ∧ i ≤ j))) ∧
    ∀ p i, t.parent first = .ok (some p) → t.position? first = some i →
      (t.sortBy first last cmp).outcome = .done () →
      ∃ t' j, t.sortBy first last cmp = t'.answer () ∧ i ≤ j ∧ t.EndsAt p last j ∧
        t.Rearranges t' cmp p i j ∧ t'.EndsAt p last j ∧
        ∀ again, (t'.childrenAt p)[i]? = some again → t'.sortBy again last cmp = t'.answer () := by
  obtain ⟨f, shows, -⟩ := reached.exists_forest (Policy.inRange_of_unkeyed unkeyed)
  refine ⟨shows.sortBy_accepts_iff first last cmp, fun p i above position accepted => ?_⟩
  obtain ⟨s, mem, i', c, child, rfl, rfl⟩ := shows.exists_child_of_parent above
  rw [shows.stores.position?_of_child mem child, Option.some.injEq] at position
  subst position
  obtain ⟨j, ends, le⟩ := (shows.sortBy_of_child mem child last cmp).mp accepted
  obtain ⟨t', done, stored, root⟩ :=
    shows.stores.sortBy_eq mem child (shows.rangeEnd_eq_ok_iff.mpr ends) le cmp
  simp only [unkeyed, Bool.false_eq_true, if_false] at stored
  have shown := shows_mapBelow (shows.roots_of_eq root) stored
  have policy := policy_perform t (.sortBy c.handle last cmp)
  rw [Tree.perform, tree_map, done, answer_tree] at policy
  refine ⟨t', j, done, le, ends, shows.rearranges mem le shown policy,
    shows.endsAt_sorted mem le ends shown, fun again entry => ?_⟩
  exact shows.sortBy_again mem le ends shown (by rw [policy, unkeyed]) entry

/-- Below the root stand 7 and then 2. -/
theorem sortBy_rearranges_sample :
    (Tree.sample .insertionOrder).policy.keyed = false ∧
      (Tree.sample .insertionOrder).parent ⟨1, 1, 0⟩ = .ok (some ⟨1, 0, 0⟩) ∧
      (Tree.sample .insertionOrder).position? ⟨1, 1, 0⟩ = some 0 ∧
      ∃ t' j, (Tree.sample .insertionOrder).sortBy ⟨1, 1, 0⟩ none compare = t'.answer () ∧
        (Tree.sample .insertionOrder).Rearranges t' compare ⟨1, 0, 0⟩ 0 j := by
  have unkeyed : (Tree.sample .insertionOrder).policy.keyed = false := by
    rw [policy_sample]
    rfl
  have live : (Tree.sample .insertionOrder).contains ⟨1, 1, 0⟩ = true := by decide +kernel
  have above : (Tree.sample .insertionOrder).parent ⟨1, 1, 0⟩ = .ok (some ⟨1, 0, 0⟩) := by
    decide +kernel
  have position : (Tree.sample .insertionOrder).position? ⟨1, 1, 0⟩ = some 0 := by decide +kernel
  have spec := (reachable_sample .insertionOrder).sortBy_rearranges unkeyed ⟨1, 1, 0⟩ none compare
  have accepted := spec.1.mpr ⟨live, .inl rfl⟩
  obtain ⟨t', j, done, -, -, rearranged, -⟩ := spec.2 _ _ above position accepted
  exact ⟨unkeyed, above, position, t', j, done, rearranged⟩

/-! ## Keyed policies -/

/-- The reply leaves `t` as it is and ends as the other one does. -/
structure Idles (t : Tree α) (reply other : Reply α Unit) : Prop where
  tree_eq : reply.tree = t
  outcome_eq : reply.outcome = other.outcome

section SameNodes

variable (same : ∀ h, u.node? h = t.node? h)

include same

theorem slotInParent_congr (h : Handle) : u.slotInParent h = t.slotInParent h := by
  simp only [slotInParent, node, same]

theorem childrenAt_congr (h : Handle) : u.childrenAt h = t.childrenAt h := by
  rw [childrenAt, childrenAt, same]

theorem rangeEnd_congr (p first : Handle) (last : Option Handle) :
    u.rangeEnd p first last = t.rangeEnd p first last := by
  cases last with
  | none => rw [rangeEnd, rangeEnd, childrenAt_congr same]
  | some k => rw [rangeEnd, rangeEnd, slotInParent_congr same]

theorem outcome_sortRange_congr (p : Handle) (i j : Nat) (cmp : α → α → Ordering) :
    (u.sortRange p i j cmp).outcome = (t.sortRange p i j cmp).outcome := by
  have sorted : ∀ hs, u.sortedHandles cmp hs = t.sortedHandles cmp hs := by
    intro hs
    simp only [sortedHandles, get?, same]
  rw [sortRange, sortRange, childrenAt_congr same, sorted]
  cases t.sortedHandles cmp (((t.childrenAt p).take j).drop i) <;> rfl

variable (keyed : t.policy.keyed = true) (unkeyed : u.policy.keyed = false)

include keyed unkeyed

/-- A keyed policy answers a request after all checks, and an unkeyed one sorts what passed them,
which cannot fail among stored nodes. -/
theorem Shows.sortBy_idles (shows : t.Shows f) (first : Handle) (last : Option Handle)
    (cmp : α → α → Ordering) : t.Idles (t.sortBy first last cmp) (u.sortBy first last cmp) := by
  rw [sortBy, sortBy, slotInParent_congr same]
  rcases shows.locate first with ⟨-, slot⟩ | ⟨s, rfl, rfl, -, slot⟩ | ⟨s, mem, i, c, -, rfl, slot⟩
  · rw [slot]
    exact ⟨rfl, rfl⟩
  · rw [slot, require_ok, require_ok]
    dsimp only
    cases checkRootRange s.handle last <;> exact ⟨rfl, rfl⟩
  · rw [slot, require_ok, require_ok]
    dsimp only
    rw [rangeEnd_congr same]
    cases t.rangeEnd s.handle c.handle last with
    | error e => exact ⟨rfl, rfl⟩
    | ok j =>
      rw [require_ok, require_ok]
      by_cases reversed : j < i
      · rw [if_pos reversed, if_pos reversed]
        exact ⟨rfl, rfl⟩
      · obtain ⟨t', done, -⟩ := shows.stores.sortRange_eq mem (Nat.le_of_not_lt reversed) cmp
        rw [if_neg reversed, if_neg reversed, if_pos keyed, unkeyed, if_neg Bool.false_ne_true]
        refine ⟨rfl, ?_⟩
        rw [outcome_sortRange_congr same, done]
        rfl

theorem Shows.sortChildrenBy_idles (shows : t.Shows f) (p : Handle) (cmp : α → α → Ordering) :
    t.Idles (t.sortChildrenBy p cmp) (u.sortChildrenBy p cmp) := by
  have listed : u.children p = t.children p := by rw [children, children, node, node, same]
  rw [sortChildrenBy, sortChildrenBy, listed]
  cases t.children p with
  | error e => exact ⟨rfl, rfl⟩
  | ok hs =>
    cases hs with
    | nil => exact ⟨rfl, rfl⟩
    | cons first hs => exact shows.sortBy_idles same keyed unkeyed first none cmp

end SameNodes

/-- Under a keyed policy sort requests change nothing, and they are accepted or refused as in any
tree that has the same nodes under an unkeyed policy. -/
theorem Reachable.sorts_idle (reached : t.Reachable) (builtIn : t.policy.BuiltIn)
    (keyed : t.policy.keyed = true) (same : ∀ h, u.node? h = t.node? h)
    (unkeyed : u.policy.keyed = false) :
    (∀ first last cmp, t.Idles (t.sortBy first last cmp) (u.sortBy first last cmp)) ∧
      (∀ p cmp, t.Idles (t.sortChildrenBy p cmp) (u.sortChildrenBy p cmp)) ∧
      ∀ (_ : Ord α) p, t.Idles (t.sortChildren p) (u.sortChildren p) := by
  obtain ⟨f, shows, -⟩ := reached.exists_forest builtIn.inRange
  refine ⟨shows.sortBy_idles same keyed unkeyed, shows.sortChildrenBy_idles same keyed unkeyed, ?_⟩
  intro order p
  exact shows.sortChildrenBy_idles same keyed unkeyed p compare

/-- The comparison is the reverse of the policy's. -/
theorem sorts_idle_sample :
    (Tree.sample .naturalOrder).policy.keyed = true ∧
      (∀ h, Tree.node? { Tree.sample .naturalOrder with policy := .insertionOrder } h =
        (Tree.sample .naturalOrder).node? h) ∧
      (Tree.sample .naturalOrder).Idles
        ((Tree.sample .naturalOrder).sortChildrenBy ⟨1, 0, 0⟩ fun x y => compare y x)
        (Tree.sortChildrenBy { Tree.sample .naturalOrder with policy := .insertionOrder } ⟨1, 0, 0⟩
          fun x y => compare y x) := by
  have builtIn : (Tree.sample .naturalOrder).policy.BuiltIn := by
    rw [policy_sample]
    exact .keyed (.searching .naturalOrder)
  have keyed : (Tree.sample .naturalOrder).policy.keyed = true := by
    rw [policy_sample]
    rfl
  have same : ∀ h, Tree.node? { Tree.sample .naturalOrder with policy := .insertionOrder } h =
      (Tree.sample .naturalOrder).node? h := fun _ => rfl
  have spec := (reachable_sample .naturalOrder).sorts_idle builtIn keyed same rfl
  exact ⟨keyed, same, spec.2.1 _ _⟩

end Tree

end PolicyTree
