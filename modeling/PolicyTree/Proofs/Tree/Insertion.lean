import PolicyTree.Proofs.Arrangement
import PolicyTree.Proofs.Tree.Refusal
import PolicyTree.Proofs.Tree.Resettling

/-! What an insertion adds: one childless node, of which an erasure leaves nothing. -/

namespace PolicyTree

open Forest

variable {α : Type}

namespace Forest

variable {f : Forest α} {g : Forest α → Forest α} {s : Sprig α}

/-- The records of a child planted behind all others come behind theirs. -/
theorem records_plantAt_length (b : Forest α) (n : Sprig α) (q : Option Handle) :
    (b.plantAt b.sprigs.length n).records q = b.records q ++ n.records q := by
  rw [records_eq_flatMap, records_eq_flatMap b, plantAt, Nat.min_self, sprigs_ofSprigs,
    List.insertIdx_length_self, List.flatMap_append, List.flatMap_singleton]

/-- What comes last below a node comes right behind the block of the node in the whole listing. -/
theorem listing_extended (nodup : f.handles.Nodup) (mem : s ∈ f.nodes)
    {new : List (Handle × Node α)}
    (after : (g s.below).records (some s.handle) = s.below.records (some s.handle) ++ new)
    (q : Option Handle) :
    ∃ front back, (f.visits 0).map Visit.entry = front ++ (s.records q).map entryOf ++ back ∧
      ((f.mapBelow s.handle g).visits 0).map Visit.entry =
        front ++ (s.records q).map entryOf ++ (new.map entryOf ++ back) := by
  obtain ⟨front, back, p, split⟩ := exists_split nodup mem none
  have whole : f.records none = front ++ s.records p ++ back := by simpa using split fun b => b
  refine ⟨front.map entryOf, back.map entryOf, ?_, ?_⟩
  · rw [map_entry_visits_eq f 0 none, whole]
    simp [Sprig.records, Sprig.record, entryOf]
  · rw [map_entry_visits_eq _ 0 none, split g, Sprig.records, after]
    simp [Sprig.records, Sprig.record, entryOf]

end Forest

namespace Tree

variable {t t' : Tree α} {f : Forest α} {s : Sprig α} {cmp : α → α → Ordering} {p h : Handle}
  {i : Nat} {x : α}

/-! ## One new node -/

/-- From `t` to `t'` the node `p` got a childless child `h` with the value `x`. All other nodes
stayed as they were, but for the child list of `p`, and erasing `h` undoes the change. -/
structure Gains (t t' : Tree α) (p h : Handle) (x : α) : Prop where
  fresh : ¬t.contains h = true
  node?_eq : t'.node? h = some ⟨x, some p, []⟩
  kept : t.Keeps t' ∅ (some p)
  contains_iff : ∀ k, t'.contains k = true ↔ k = h ∨ t.contains k = true
  root_eq : t'.root = t.root
  policy_eq : t'.policy = t.policy
  undone : ∃ t'', t'.erase h = t''.answer x ∧ t.Restored t' t'' ∧ t''.preOrder = t.preOrder

theorem Shows.attach (shows : t.Shows f) (mem : s ∈ f.nodes) (i : Nat) (x : α) :
    (t.attach s.handle i x).Shows (f.mapBelow s.handle (plantAt i ⟨t.arena.fresh, x, nil⟩)) :=
  shows_mapBelow shows.roots_eq (shows.stores.attach mem i x)

/-- Erasing a new node brings back what the tree showed. -/
theorem Shows.erase_attach (shows : t.Shows f) (mem : s ∈ f.nodes) (i : Nat) (x : α) :
    ∃ t'' : Tree α, (t.attach s.handle i x).erase t.arena.fresh = t''.answer x ∧ t''.Shows f := by
  have shown := shows.attach mem i x
  have here := mem_nodes_mapBelow_self shows.nodup mem (plantAt i ⟨t.arena.fresh, x, nil⟩)
  have child := getElem?_plantAt_min s.below i ⟨t.arena.fresh, x, nil⟩
  have undone := pluckAt_plantAt_min s.below i ⟨t.arena.fresh, x, nil⟩
  obtain ⟨t'', done, stored, root⟩ := shown.stores.erase_eq here child
  rw [mapBelow_mapBelow, mapBelow_congr_of_nodup (k := fun b => b) shows.nodup mem undone,
    mapBelow_id] at stored
  exact ⟨t'', done, shows.roots_of_eq root, stored⟩

theorem Shows.gains_attach (shows : t.Shows f) (mem : s ∈ f.nodes) (i : Nat) (x : α) :
    t.Gains (t.attach s.handle i x) s.handle t.arena.fresh x := by
  have shown := shows.attach mem i x
  have here := mem_nodes_mapBelow_self shows.nodup mem (plantAt i ⟨t.arena.fresh, x, nil⟩)
  have child := List.mem_of_getElem? (getElem?_plantAt_min s.below i ⟨t.arena.fresh, x, nil⟩)
  have exchanged := exchanged_plantAt shows.nodup mem i ⟨t.arena.fresh, x, nil⟩
  obtain ⟨t'', done, back⟩ := shows.erase_attach mem i x
  have widened : t.arena.Widened (t.attach s.handle i x).arena :=
    (keptByBuilding_widened t.arena).updateNode
      ((keptByBuilding_widened t.arena).allocate .refl _) ..
  have worn := worn_perform (t.attach s.handle i x) (e := .erase t.arena.fresh) rfl
  have policy := policy_perform (t.attach s.handle i x) (.erase t.arena.fresh)
  rw [Tree.perform, tree_map, done] at worn policy
  refine ⟨?_, shown.stores.node?_of_child here child, ?_, fun k => ?_, rfl, rfl, t'', done,
    shows.restored_of_worn widened worn policy back, ?_⟩
  · rw [shows.contains_iff]
    exact shows.stores.fresh_notMem
  · have keeps := shows.keeps_of_exchanged shown exchanged
    simpa using keeps
  · rw [shows.contains_iff_of_exchanged shown exchanged]
    simp [Sprig.records, Sprig.record, records]
  · rw [back.preOrder_eq, shows.preOrder_eq]

/-! ## Its place -/

/-- A child of `p` has the key of `x`. -/
def HasKey (t : Tree α) (cmp : α → α → Ordering) (p : Handle) (x : α) : Prop :=
  ∃ c ∈ t.childrenAt p, ∃ y, t.get? c = some y ∧ cmp y x = .eq

/-- In `t'` the children of `p` are those that it has in `t`, in their order, and `h` in the one
position that keeps the values strictly increasing. -/
def Admits (t t' : Tree α) (cmp : α → α → Ordering) (p h : Handle) : Prop :=
  ∃ j ≤ (t.childrenAt p).length, t'.childrenAt p = (t.childrenAt p).insertIdx j h ∧
    ∀ k ≤ (t.childrenAt p).length,
      Ascending cmp (t'.valuesAt ((t.childrenAt p).insertIdx k h)) ↔ k = j

/-- In `t'` the children of `p` are those that it has in `t`, and then `h`. In the pre-order listing
`h` comes right after the last descendant of `p`. -/
structure Appends (t t' : Tree α) (p h : Handle) (x : α) : Prop where
  childrenAt_eq : t'.childrenAt p = t.childrenAt p ++ [h]
  listed : ∃ front block back, (t.preOrderFrom p).map (List.map Visit.entry) = .ok block ∧
    t.preOrder.map Visit.entry = front ++ block ++ back ∧
    t'.preOrder.map Visit.entry = front ++ block ++ (h, x) :: back

theorem Shows.hasKey_iff (shows : t.Shows f) (mem : s ∈ f.nodes) (sorts : t.policy.SortsBy cmp)
    (asc : Ascending cmp s.below.rootValues) (x : α) :
    t.HasKey cmp s.handle x ↔ ∃ i, t.policy.place s.below.rootValues x = .taken i := by
  have := sorts.trans
  rw [sorts.place, asc.keyedPlace_taken_iff, HasKey, shows.stores.childrenAt_eq mem]
  constructor
  · rintro ⟨_, listed, y, valued, same⟩
    obtain ⟨c, child, rfl⟩ := List.mem_map.mp listed
    rw [shows.stores.get?_eq (mem_nodes_of_child mem child)] at valued
    cases valued
    exact ⟨c.value, List.mem_map_of_mem child, same⟩
  · rintro ⟨_, listed, same⟩
    obtain ⟨c, child, rfl⟩ := List.mem_map.mp listed
    have valued := shows.stores.get?_eq (mem_nodes_of_child mem child)
    exact ⟨c.handle, List.mem_map_of_mem child, c.value, valued, same⟩

theorem Shows.childrenAt_attach (shows : t.Shows f) (mem : s ∈ f.nodes) (i : Nat) (x : α) :
    (t.attach s.handle i x).childrenAt s.handle =
      (t.childrenAt s.handle).insertIdx (min i (t.childrenAt s.handle).length) t.arena.fresh := by
  rw [(shows.attach mem i x).childrenAt_mapBelow shows.nodup mem, shows.stores.childrenAt_eq mem,
    roots_plantAt]

/-- A keyed policy puts a new child in the only place that keeps the children in order. -/
theorem Shows.admits_attach (shows : t.Shows f) (mem : s ∈ f.nodes) (sorts : t.policy.SortsBy cmp)
    (asc : Ascending cmp s.below.rootValues)
    (place : t.policy.place s.below.rootValues x = .before i) :
    t.Admits (t.attach s.handle i x) cmp s.handle t.arena.fresh := by
  have := sorts.trans
  rw [sorts.place] at place
  have fits : i ≤ (t.childrenAt s.handle).length := by
    rw [shows.stores.childrenAt_eq mem, length_roots]
    simpa [rootValues] using keyedPlace_before_le place
  have listed := shows.childrenAt_attach mem i x
  have shown := shows.attach mem i x
  have here := mem_nodes_mapBelow_self shows.nodup mem (plantAt i ⟨t.arena.fresh, x, nil⟩)
  have stored : ∀ d ∈ ⟨t.arena.fresh, x, nil⟩ :: s.below.sprigs,
      d ∈ (f.mapBelow s.handle (plantAt i ⟨t.arena.fresh, x, nil⟩)).nodes := fun d among =>
    mem_nodes_of_child here ((sprigs_plantAt_perm ..).mem_iff.mpr among)
  rw [Nat.min_eq_left fits] at listed
  refine ⟨i, fits, listed, fun k within => ?_⟩
  rw [shows.stores.childrenAt_eq mem] at within ⊢
  rw [length_roots] at within
  exact shown.stores.ascending_insertIdx_iff stored asc place within

theorem Shows.appends_attach (shows : t.Shows f) (mem : s ∈ f.nodes) (x : α) :
    t.Appends (t.attach s.handle s.below.sprigs.length x) s.handle t.arena.fresh x where
  childrenAt_eq := by
    have length : (t.childrenAt s.handle).length = s.below.sprigs.length := by
      rw [shows.stores.childrenAt_eq mem, length_roots]
    rw [shows.childrenAt_attach mem, length, Nat.min_self, ← length, List.insertIdx_length_self]
  listed := by
    have after := records_plantAt_length s.below ⟨t.arena.fresh, x, nil⟩ (some s.handle)
    obtain ⟨front, back, before, now⟩ := listing_extended shows.nodup mem after none
    refine ⟨front, _, back, shows.stores.map_entry_preOrderFrom mem none, ?_, ?_⟩
    · rw [shows.preOrder_eq, before]
    · rw [(shows.attach mem _ x).preOrder_eq, now]
      rfl

/-! ## Insertion -/

/-- Under a keyed policy a value is refused if a child has its key, and goes to its place in the
order otherwise. Under any other it goes behind all descendants of the parent. Either way it is the
one thing that the tree gains. -/
theorem Reachable.insert_gains (reached : t.Reachable) (builtIn : t.policy.BuiltIn)
    (live : t.contains p = true) (x : α) :
    (∀ cmp, t.policy.BuiltInKeyed cmp →
      (t.insert p x = t.refuse (.duplicateKey p) ↔ t.HasKey cmp p x) ∧
      (¬t.HasKey cmp p x → ∃ t' h, t.insert p x = t'.answer h ∧ t.Gains t' p h x ∧
        t.Admits t' cmp p h)) ∧
    (t.policy.keyed = false → ∃ t' h, t.insert p x = t'.answer h ∧ t.Gains t' p h x ∧
      t.Appends t' p h x) := by
  obtain ⟨f, shows, ordered⟩ := reached.exists_forest builtIn.inRange
  obtain ⟨n, stored⟩ := Arena.contains_iff.mp live
  obtain ⟨s, mem, rfl, -⟩ := shows.exists_node stored
  refine ⟨fun cmp keyed => ?_, fun unkeyed => ?_⟩
  · have sorts := keyed.sortsBy
    have asc := ordered cmp sorts s mem
    have taken := shows.hasKey_iff mem sorts asc x
    rcases shows.stores.insert_cases mem x with ⟨i, place, refused⟩ | ⟨i, place, done⟩
    · have key := taken.mpr ⟨i, place⟩
      exact ⟨iff_of_true refused key, fun free => absurd key free⟩
    · have free : ¬t.HasKey cmp s.handle x := by
        intro key
        obtain ⟨k, other⟩ := taken.mp key
        rw [place] at other
        cases other
      refine ⟨iff_of_false (fun refused => ?_) free, fun _ => ?_⟩
      · rw [done] at refused
        cases congrArg Reply.outcome refused
      · exact ⟨_, _, done, shows.gains_attach mem i x, shows.admits_attach mem sorts asc place⟩
  · have length : s.below.rootValues.length = s.below.sprigs.length := List.length_map ..
    have place : t.policy.place s.below.rootValues x = .before s.below.sprigs.length := by
      rw [builtIn.place_eq_append unkeyed, Policy.append, length]
    rcases shows.stores.insert_cases mem x with ⟨i, other, -⟩ | ⟨i, other, done⟩
    · rw [place] at other
      cases other
    · rw [place] at other
      cases other
      exact ⟨_, _, done, shows.gains_attach mem _ x, shows.appends_attach mem x⟩

/-- Under the root stand 2 and 7, sorted by one policy and in order of insertion under the other. -/
theorem insert_gains_sample :
    ((Tree.sample .naturalOrder).contains ⟨1, 0, 0⟩ = true ∧
      (Tree.sample .naturalOrder).insert ⟨1, 0, 0⟩ 7 =
        (Tree.sample .naturalOrder).refuse (.duplicateKey ⟨1, 0, 0⟩) ∧
      ∃ t' h, (Tree.sample .naturalOrder).insert ⟨1, 0, 0⟩ 4 = t'.answer h ∧
        (Tree.sample .naturalOrder).Gains t' ⟨1, 0, 0⟩ h 4 ∧
        (Tree.sample .naturalOrder).Admits t' compare ⟨1, 0, 0⟩ h) ∧
    ((Tree.sample .insertionOrder).contains ⟨1, 0, 0⟩ = true ∧
      ∃ t' h, (Tree.sample .insertionOrder).insert ⟨1, 0, 0⟩ 7 = t'.answer h ∧
        (Tree.sample .insertionOrder).Gains t' ⟨1, 0, 0⟩ h 7 ∧
        (Tree.sample .insertionOrder).Appends t' ⟨1, 0, 0⟩ h 7) := by
  have keyed : (Tree.sample .naturalOrder).policy.BuiltInKeyed compare := by
    rw [policy_sample]
    exact .searching .naturalOrder
  have appending : (Tree.sample .insertionOrder).policy.BuiltIn := by
    rw [policy_sample]
    exact .insertionOrder
  have sorted : (Tree.sample .naturalOrder).contains ⟨1, 0, 0⟩ = true := by decide +kernel
  have listed : (Tree.sample .insertionOrder).contains ⟨1, 0, 0⟩ = true := by decide +kernel
  have children : (Tree.sample .naturalOrder).childrenAt ⟨1, 0, 0⟩ = [⟨1, 2, 0⟩, ⟨1, 1, 0⟩] := by
    decide +kernel
  have two : (Tree.sample .naturalOrder).get? ⟨1, 2, 0⟩ = some 2 := by decide +kernel
  have seven : (Tree.sample .naturalOrder).get? ⟨1, 1, 0⟩ = some 7 := by decide +kernel
  have spec := fun x =>
    ((reachable_sample .naturalOrder).insert_gains (.keyed keyed) sorted x).1 compare keyed
  refine ⟨⟨sorted, (spec 7).1.mpr ?_, (spec 4).2 ?_⟩, listed, ?_⟩
  · rw [HasKey, children]
    exact ⟨⟨1, 1, 0⟩, by simp, 7, seven, rfl⟩
  · rw [HasKey, children]
    rintro ⟨c, mem, y, valued, same⟩
    rcases List.mem_pair.mp mem with rfl | rfl
    · rw [two] at valued
      cases valued
      cases same
    · rw [seven] at valued
      cases valued
      cases same
  · have unkeyed : (Tree.sample .insertionOrder).policy.keyed = false := by
      rw [policy_sample]
      rfl
    exact ((reachable_sample .insertionOrder).insert_gains appending listed 7).2 unkeyed

end Tree

end PolicyTree
