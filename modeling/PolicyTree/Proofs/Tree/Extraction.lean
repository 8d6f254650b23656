import Mathlib.Data.List.Find
import PolicyTree.Proofs.Tree.Replication
import PolicyTree.Proofs.Tree.Sorting

/-! What the extraction of a subtree into a tree of its own makes of it. -/

namespace PolicyTree.Tree

open Forest

variable {α : Type} {source : Tree α} {f : Forest α} {q : Option Handle}
  {rest : List (Handle × Node α)} {s k : Sprig α} {policy : Policy α} {cmp : α → α → Ordering}
  {h x : Handle}

/-! ## Collisions -/

/-- Whether two of the children of `h` have equal keys. -/
def collides (t : Tree α) (cmp : α → α → Ordering) (h : Handle) : Bool :=
  !decide ((t.valuesAt (t.childrenAt h)).Pairwise fun x y => cmp x y ≠ .eq)

/-- A sorting policy refuses the children that collide. -/
theorem Stores.collides_eq (stores : source.Stores q f rest) (mem : s ∈ f.nodes)
    (sorts : policy.SortsBy cmp) : source.collides cmp s.handle = s.clashes policy := by
  have unalike :
      (source.valuesAt (source.childrenAt s.handle)).Pairwise (fun x y => cmp x y ≠ .eq) ↔
        Policy.Unalike cmp Sprig.value s.below.sprigs := by
    rw [stores.childrenAt_eq mem, stores.valuesAt_roots mem, rootValues, List.pairwise_map]
    rfl
  rw [Bool.eq_iff_iff, collides, Bool.not_eq_true', decide_eq_false_iff_not, unalike,
    ← Policy.arrange_eq_none_iff sorts, Sprig.clashes, Option.isNone_iff_eq_none]

/-- The first collision in the order in which the subtree is freed is the first clash of a copy. -/
theorem Stores.find?_collides (stores : source.Stores q f rest) (mem : k ∈ f.nodes)
    (sorts : policy.SortsBy cmp) :
    (source.backwardFrom k.handle).find? (source.collides cmp) =
      (k.backward.find? (Sprig.clashes policy)).map Sprig.handle := by
  rw [stores.backwardFrom_eq mem, List.find?_map]
  congr 1
  apply List.find?_congr
  intro s inside
  have here := (nodes_sublist mem).subset ((backward_perm_sprig k).mem_iff.mp inside)
  exact stores.collides_eq here sorts

/-! ## Outcomes -/

/-- An extraction shows a replica of the subtree, or is refused at the first clash. -/
theorem Stores.extract_cases (stores : source.Stores q f rest) (mem : k ∈ f.nodes)
    (policy : Policy α) (owners : Owners) :
    (∃ c, k.backward.find? (Sprig.clashes policy) = some c ∧
        (source.extract k.handle policy owners).1 = .refused (.duplicateKey c.handle)) ∨
      k.backward.find? (Sprig.clashes policy) = none ∧ ∃ t partner,
        (source.extract k.handle policy owners).1 = .done t ∧
        t.Shows (ofSprigs [k.replica policy partner]) := by
  rw [extract, stores.value_eq mem]
  rcases becomeCopy_cases stores mem (withPolicy policy owners).1 with
    ⟨c, first, refused⟩ | ⟨clear, n, partner, done, shown⟩
  · exact .inl ⟨c, first, Outcome.map_eq_refused.mpr refused⟩
  · exact .inr ⟨clear, _, partner, Outcome.map_eq_done.mpr ⟨n, done, rfl⟩, shown⟩

theorem find?_clashes_eq_none_iff :
    k.backward.find? (Sprig.clashes policy) = none ↔ ∀ s ∈ k.nodes, s.clashes policy = false := by
  simp only [List.find?_eq_none, (backward_perm_sprig k).mem_iff, Bool.not_eq_true]

theorem Follows.not_first_clash {order : List Handle → Option (List Handle)}
    (follows : ∀ s ∈ k.nodes, Follows order policy s) :
    k.backward.find? (Sprig.clashes policy) ≠ some s := by
  rw [find?_clashes_eq_none_iff.mpr fun s inside => (follows s inside).not_clashes]
  nofun

/-! ## Orders -/

theorem follows_some (settled : policy.arrange Sprig.value s.below.sprigs = some s.below.sprigs) :
    Follows some policy s :=
  ⟨_, settled, rfl⟩

/-- What a sorting policy arranges is sorted. -/
theorem Stores.follows_sortedHandles (stores : source.Stores q f rest) (mem : s ∈ f.nodes)
    (sorts : policy.SortsBy cmp) (free : s.clashes policy = false) :
    Follows (source.sortedHandles cmp) policy s := by
  obtain ⟨out, arranged⟩ := Sprig.exists_arrangement free
  refine ⟨out, arranged, ?_⟩
  rw [Policy.eq_mergeSort_of_arrange sorts arranged]
  exact stores.sortedHandles_eq cmp fun c child => mem_nodes_of_child mem child

/-! ## Under either kind of policy -/

theorem Shows.subtree_eq (shows : source.Shows f) (mem : k ∈ f.nodes) :
    source.subtree k.handle = {h | h ∈ k.handles} :=
  Set.ext fun _ => shows.mem_subtree_iff mem

/-- A policy that leaves every sibling list of the subtree as it is makes a faithful copy. -/
theorem Shows.extract_settled (shows : source.Shows f) (mem : k ∈ f.nodes)
    (settled : ∀ s ∈ k.nodes, policy.arrange Sprig.value s.below.sprigs = some s.below.sprigs)
    (owners : Owners) :
    ∃ t partner, (source.extract k.handle policy owners).1 = .done t ∧
      t.Copies source (source.subtree k.handle) (some k.handle) some partner ∧
      (source.preOrderFrom k.handle).map (List.map (·.rename partner)) = .ok t.preOrder ∧
      (source.preOrderFrom k.handle).map (List.map Visit.value) = .ok t.values := by
  have follows := fun s inside => follows_some (settled s inside)
  rcases shows.stores.extract_cases mem policy owners with
    ⟨c, first, -⟩ | ⟨-, t, partner, done, shown⟩
  · exact absurd first (Follows.not_first_clash follows)
  · have listed := shown.preOrder_replica settled
    refine ⟨t, partner, done, ?_, ?_, ?_⟩
    · rw [shows.subtree_eq mem]
      exact shows.copies mem shown follows
    · rw [shows.stores.preOrderFrom_eq mem, listed]
      rfl
    · rw [shows.stores.preOrderFrom_eq mem, Tree.values, listed, map_value_rename]
      rfl

/-- A sorting policy makes a sorted copy, or names the first collision. -/
theorem Shows.extract_sorted (shows : source.Shows f) (mem : k ∈ f.nodes)
    (sorts : policy.SortsBy cmp) (owners : Owners) :
    ((∀ h ∈ source.subtree k.handle, source.collides cmp h = false) ∧ ∃ t partner,
        (source.extract k.handle policy owners).1 = .done t ∧
        t.Copies source (source.subtree k.handle) (some k.handle) (source.sortedHandles cmp)
          partner) ∨
      ∃ h ∈ source.subtree k.handle,
        (source.backwardFrom k.handle).find? (source.collides cmp) = some h ∧
        (source.extract k.handle policy owners).1 = .refused (.duplicateKey h) := by
  have within : ∀ s ∈ k.nodes, s ∈ f.nodes := fun s inside => (nodes_sublist mem).subset inside
  rw [shows.subtree_eq mem, shows.stores.find?_collides mem sorts]
  rcases shows.stores.extract_cases mem policy owners with
    ⟨c, first, refused⟩ | ⟨clear, t, partner, done, shown⟩
  · refine .inr ⟨c.handle, ?_, by rw [first, Option.map_some], refused⟩
    have inside := (backward_perm_sprig k).mem_iff.mp (List.mem_of_find?_eq_some first)
    exact List.mem_map_of_mem inside
  · have free := find?_clashes_eq_none_iff.mp clear
    refine .inl ⟨fun h inside => ?_, t, partner, done, ?_⟩
    · obtain ⟨s, under, rfl⟩ := List.mem_map.mp inside
      rw [shows.stores.collides_eq (within s under) sorts]
      exact free s under
    · exact shows.copies mem shown fun s inside =>
        shows.stores.follows_sortedHandles (within s inside) sorts (free s inside)

/-! ## Reachable trees -/

/-- Under an unkeyed policy an extraction is the subtree as it is. Under a keyed one it is the
subtree with every sibling list sorted, if no node has two children with equal keys, and else it
names the first node that has, children visited last to first. -/
theorem Reachable.extract_subtree (reached : source.Reachable)
    (sourceBuiltIn : source.policy.BuiltIn) (live : source.contains x = true)
    (builtIn : policy.BuiltIn) (owners : Owners) :
    (policy.keyed = false → ∃ t partner, (source.extract x policy owners).1 = .done t ∧
        t.Copies source (source.subtree x) (some x) some partner ∧
        (source.preOrderFrom x).map (List.map (·.rename partner)) = .ok t.preOrder ∧
        (source.preOrderFrom x).map (List.map Visit.value) = .ok t.values) ∧
      ∀ cmp, policy.BuiltInKeyed cmp →
        ((∃ t, (source.extract x policy owners).1 = .done t) ↔
          ∀ h ∈ source.subtree x, source.collides cmp h = false) ∧
        (∀ t, (source.extract x policy owners).1 = .done t → ∃ partner,
          t.Copies source (source.subtree x) (some x) (source.sortedHandles cmp) partner) ∧
        ((∃ h ∈ source.subtree x, source.collides cmp h = true) → ∃ h,
          (source.backwardFrom x).find? (source.collides cmp) = some h ∧
            source.contains h = true ∧
            (source.extract x policy owners).1 = .refused (.duplicateKey h)) := by
  obtain ⟨f, shows, -⟩ := reached.exists_forest sourceBuiltIn.inRange
  obtain ⟨n, stored⟩ := Arena.contains_iff.mp live
  obtain ⟨k, mem, rfl, -⟩ := shows.exists_node stored
  refine ⟨fun unkeyed => ?_, fun cmp sorting => ?_⟩
  · apply shows.extract_settled mem
    exact fun s _ => Policy.arrange_of_append (builtIn.place_eq_append unkeyed) _
  · rcases shows.extract_sorted mem sorting.sortsBy owners with
      ⟨free, t, partner, done, copies⟩ | ⟨h, inside, first, refused⟩
    · rw [done]
      refine ⟨⟨fun _ => free, fun _ => ⟨t, rfl⟩⟩, ?_, ?_⟩
      · rintro _ ⟨⟩
        exact ⟨partner, copies⟩
      · rintro ⟨h, inside, collision⟩
        rw [free h inside] at collision
        cases collision
    · have collision := List.find?_some first
      have here : source.contains h = true := by
        rw [shows.mem_subtree_iff mem] at inside
        exact shows.contains_iff.mpr ((handles_sublist mem).subset inside)
      rw [refused]
      refine ⟨iff_of_false (fun done => ?_) fun free => ?_, nofun, fun _ => ⟨h, first, here, rfl⟩⟩
      · obtain ⟨t, ended⟩ := done
        cases ended
      · rw [free h inside] at collision
        cases collision

/-- The children 7 and 2 of the root and the children 13 and 9 of 7 change places in a sorted copy.
The last two collide where numbers are told apart by their last digits to the base 4. -/
theorem extract_subtree_sample :
    (Tree.sampleDeep .insertionOrder).contains ⟨1, 0, 0⟩ = true ∧
      (∃ t partner,
        ((Tree.sampleDeep .insertionOrder).extract ⟨1, 0, 0⟩ .naturalOrder ⟨2⟩).1 = .done t ∧
        t.Copies (Tree.sampleDeep .insertionOrder)
          ((Tree.sampleDeep .insertionOrder).subtree ⟨1, 0, 0⟩) (some ⟨1, 0, 0⟩)
          ((Tree.sampleDeep .insertionOrder).sortedHandles compare) partner) ∧
      ((Tree.sampleDeep .insertionOrder).extract ⟨1, 0, 0⟩ (.byKey (· % 4)) ⟨2⟩).1 =
        .refused (.duplicateKey ⟨1, 1, 0⟩) := by
  have sourceBuiltIn : (Tree.sampleDeep .insertionOrder).policy.BuiltIn := by
    rw [policy_sampleDeep]
    exact .insertionOrder
  have live : (Tree.sampleDeep .insertionOrder).contains ⟨1, 0, 0⟩ = true := by decide +kernel
  refine ⟨live, ?_, ?_⟩
  · have sorting : (Policy.naturalOrder : Policy Nat).BuiltInKeyed compare :=
      .searching .naturalOrder
    have spec := ((reachable_sampleDeep .insertionOrder).extract_subtree sourceBuiltIn live
      (.keyed sorting) ⟨2⟩).2 compare sorting
    obtain ⟨t, done, -⟩ := Outcome.map_eq_done.mp (by decide +kernel :
      (((Tree.sampleDeep .insertionOrder).extract ⟨1, 0, 0⟩ .naturalOrder ⟨2⟩).1.map fun _ => ()) =
        .done ())
    obtain ⟨partner, copies⟩ := spec.2.1 t done
    exact ⟨t, partner, done, copies⟩
  · have sorting : (Policy.byKey (· % 4) : Policy Nat).BuiltInKeyed (compareOn (· % 4)) :=
      .searching (.byKey _)
    have spec := ((reachable_sampleDeep .insertionOrder).extract_subtree sourceBuiltIn live
      (.keyed sorting) ⟨2⟩).2 _ sorting
    have collision :
        (Tree.sampleDeep .insertionOrder).collides (compareOn (· % 4)) ⟨1, 1, 0⟩ = true := by
      decide +kernel
    have listed : (Tree.sampleDeep .insertionOrder).childrenAt ⟨1, 0, 0⟩ =
        [⟨1, 1, 0⟩, ⟨1, 2, 0⟩] := by decide +kernel
    have link : (Tree.sampleDeep .insertionOrder).Lists ⟨1, 0, 0⟩ ⟨1, 1, 0⟩ := by
      obtain ⟨n, stored⟩ := Arena.contains_iff.mp live
      have children : n.children = [⟨1, 1, 0⟩, ⟨1, 2, 0⟩] := by
        simpa [childrenAt, node?, stored] using listed
      exact ⟨n, stored, by simp [children]⟩
    obtain ⟨h, first, -, refused⟩ := spec.2.2 ⟨_, .single link, collision⟩
    have deep : ((Tree.sampleDeep .insertionOrder).backwardFrom ⟨1, 0, 0⟩).find?
        ((Tree.sampleDeep .insertionOrder).collides (compareOn (· % 4))) = some ⟨1, 1, 0⟩ := by
      decide +kernel
    rw [deep] at first
    cases first
    exact refused

end PolicyTree.Tree
