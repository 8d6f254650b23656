import PolicyTree.Proofs.Tree.Frame

/-! Where a new value takes a child under a keyed policy. -/

namespace PolicyTree.Tree

open Forest

variable {α : Type} {t t' : Tree α} {f f' : Forest α} {q : Option Handle}
  {rest : List (Handle × Node α)} {s c n : Sprig α} {i j : Nat} {cmp : α → α → Ordering}
  {h p : Handle} {x : α}

/-- A sibling of `h` under `p` has the key of `x`. -/
def Occupied (t : Tree α) (cmp : α → α → Ordering) (p h : Handle) (x : α) : Prop :=
  ∃ c ∈ t.others p h, ∃ y, t.get? c = some y ∧ cmp y x = .eq

/-- In `t'` the children of `p` are the siblings that `h` had in `t`, in their order, and `new` in
the one position that keeps the values strictly increasing. -/
def Settles (t t' : Tree α) (cmp : α → α → Ordering) (p h new : Handle) : Prop :=
  ∃ j ≤ (t.others p h).length, t'.childrenAt p = (t.others p h).insertIdx j new ∧
    ∀ k ≤ (t.others p h).length,
      Ascending cmp (t'.valuesAt ((t.others p h).insertIdx k new)) ↔ k = j

/-! ## The place of a value -/

theorem Stores.occupied_iff (stores : t.Stores q f rest) (mem : s ∈ f.nodes)
    (child : s.below.sprigs[i]? = some c) (sorts : t.policy.SortsBy cmp)
    (asc : Ascending cmp s.below.rootValues) (x : α) :
    t.Occupied cmp s.handle c.handle x ↔
      ∃ k, t.policy.place (s.below.pluckAt i).rootValues x = .taken k := by
  have := sorts.trans
  rw [sorts.place, (ascending_pluckAt asc i).keyedPlace_taken_iff, Occupied,
    stores.others_eq mem child]
  constructor
  · rintro ⟨_, other, y, valued, same⟩
    obtain ⟨d, kept, rfl⟩ := List.mem_map.mp other
    rw [stores.get?_eq (mem_nodes_of_pluckAt mem kept)] at valued
    cases valued
    exact ⟨d.value, List.mem_map_of_mem kept, same⟩
  · rintro ⟨_, other, same⟩
    obtain ⟨d, kept, rfl⟩ := List.mem_map.mp other
    have valued := stores.get?_eq (mem_nodes_of_pluckAt mem kept)
    exact ⟨d.handle, List.mem_map_of_mem kept, d.value, valued, same⟩

theorem Stores.not_occupied (stores : t.Stores q f rest) (mem : s ∈ f.nodes)
    (child : s.below.sprigs[i]? = some c) (sorts : t.policy.SortsBy cmp)
    (asc : Ascending cmp s.below.rootValues)
    (place : t.policy.place (s.below.pluckAt i).rootValues x = .before j) :
    ¬t.Occupied cmp s.handle c.handle x := by
  intro taken
  obtain ⟨k, other⟩ := (stores.occupied_iff mem child sorts asc x).mp taken
  rw [place] at other
  cases other

/-- A stored value has one place among other siblings that keeps them in order, and the search finds
it. -/
theorem Stores.ascending_insertIdx_iff (stores : t.Stores q f rest) {ss : List (Sprig α)}
    (stored : ∀ d ∈ n :: ss, d ∈ f.nodes) [Std.TransCmp cmp]
    (asc : Ascending cmp (ss.map Sprig.value))
    (place : Policy.keyedPlace cmp (ss.map Sprig.value) n.value = .before j) {k : Nat}
    (within : k ≤ ss.length) :
    Ascending cmp (t.valuesAt ((ss.map Sprig.handle).insertIdx k n.handle)) ↔ k = j := by
  have fits : j ≤ ss.length := by simpa using keyedPlace_before_le place
  have length : (ss.map Sprig.value).length = ss.length := List.length_map ..
  have values : t.valuesAt ((ss.map Sprig.handle).insertIdx k n.handle) =
      (ss.map Sprig.value).insertIdx k n.value := by
    rw [← List.map_insertIdx, ← List.map_insertIdx]
    refine stores.valuesAt_map_handle fun d listed => stored d ?_
    exact (List.perm_insertIdx n _ within).mem_iff.mp listed
  rw [values]
  constructor
  · intro sorted
    exact sorted.insertIdx_unique (asc.insertIdx place) (by omega) (by omega)
  · rintro rfl
    exact asc.insertIdx place

/-- A keyed policy puts a value in the only place that keeps the siblings in order. -/
theorem Stores.settles (stores : t.Stores q f rest) (mem : s ∈ f.nodes)
    (child : s.below.sprigs[i]? = some c) (sorts : t.policy.SortsBy cmp)
    (asc : Ascending cmp s.below.rootValues)
    (place : t.policy.place (s.below.pluckAt i).rootValues n.value = .before j)
    (shown : t'.Shows (f.mapBelow s.handle (swapAt i j n))) :
    t.Settles t' cmp s.handle c.handle n.handle := by
  have := sorts.trans
  rw [sorts.place] at place
  have fits : j ≤ (s.below.pluckAt i).sprigs.length := by
    simpa [rootValues] using keyedPlace_before_le place
  have here := mem_nodes_mapBelow_self stores.nodup mem (swapAt i j n)
  have stored : ∀ d ∈ n :: (s.below.pluckAt i).sprigs,
      d ∈ (f.mapBelow s.handle (swapAt i j n)).nodes := fun d listed =>
    mem_nodes_of_child here ((sprigs_plantAt_perm j n (s.below.pluckAt i)).mem_iff.mpr listed)
  rw [Settles, stores.others_eq mem child, shown.stores.childrenAt_eq here, length_roots]
  refine ⟨j, fits, ?_, fun k within => ?_⟩
  · rw [swapAt, roots_plantAt, length_roots, Nat.min_eq_left fits]
  · exact shown.stores.ascending_insertIdx_iff stored (ascending_pluckAt asc i) place within

/-- A value with the key of the child that it replaces goes to the place of that child. -/
theorem place_eq_before_of_eq (sorts : t.policy.SortsBy cmp)
    (asc : Ascending cmp s.below.rootValues) (child : s.below.sprigs[i]? = some c)
    (same : cmp c.value x = .eq) :
    t.policy.place (s.below.pluckAt i).rootValues x = .before i := by
  have := sorts.trans
  have entry : s.below.rootValues[i]? = some c.value := by
    rw [getElem?_rootValues, child, Option.map_some]
  rw [sorts.place, rootValues_pluckAt]
  exact asc.keyedPlace_eraseIdx entry same

/-! ## Replacement of a value -/

/-- From `t` to `t'` the child `h` of `p` got the value `x` and went to its place. It kept its
children with all that is below them, and every other node stayed as it was. -/
structure Revalues (t t' : Tree α) (cmp : α → α → Ordering) (p h : Handle) (x : α) : Prop where
  settles : t.Settles t' cmp p h h
  node?_eq : ∃ n, t.node? h = some n ∧ t'.node? h = some { n with value := x }
  below : ∀ c ∈ t.childrenAt h, t'.preOrderFrom c = t.preOrderFrom c
  kept : t.Keeps t' {h} (some p)
  contains_iff : ∀ k, t'.contains k = true ↔ t.contains k = true
  root_eq : t'.root = t.root

theorem Shows.revalues (shows : t.Shows f) (mem : s ∈ f.nodes)
    (child : s.below.sprigs[i]? = some c) (sorts : t.policy.SortsBy cmp)
    (asc : Ascending cmp s.below.rootValues)
    (place : t.policy.place (s.below.pluckAt i).rootValues x = .before j)
    (shown : t'.Shows (f.mapBelow s.handle (swapAt i j ⟨c.handle, x, c.below⟩))) :
    t.Revalues t' cmp s.handle c.handle x := by
  have here := mem_nodes_mapBelow_self shows.nodup mem (swapAt i j ⟨c.handle, x, c.below⟩)
  have put : (Sprig.mk c.handle x c.below) ∈ (s.below.swapAt i j ⟨c.handle, x, c.below⟩).sprigs :=
    (sprigs_plantAt_perm j _ (s.below.pluckAt i)).mem_iff.mpr (List.mem_cons_self ..)
  have inside := mem_nodes_of_child mem (List.mem_of_getElem? child)
  have exchanged := exchanged_revalueAt shows.nodup mem child j x
  have settles := shows.stores.settles (n := ⟨c.handle, x, c.below⟩) mem child sorts asc place shown
  refine ⟨settles, ?_, fun k listed => ?_, ?_, fun k => ?_,
    shows.root_eq_of_roots shown (roots_mapBelow ..)⟩
  · exact ⟨_, shows.stores.node?_of_child mem (List.mem_of_getElem? child),
      shown.stores.node?_of_child here put⟩
  · rw [shows.stores.childrenAt_eq inside] at listed
    obtain ⟨d, under, rfl⟩ := List.mem_map.mp listed
    rw [shows.stores.preOrderFrom_eq (mem_nodes_of_child inside under),
      shown.stores.preOrderFrom_eq (mem_nodes_of_child (mem_nodes_of_child here put) under)]
  · have keeps := shows.keeps_of_exchanged shown exchanged
    simpa [Sprig.record] using keeps
  · rw [shows.contains_iff_of_exchanged shown exchanged]
    simp only [Sprig.record, List.map_cons, List.map_nil, List.mem_singleton]
    constructor
    · rintro (rfl | ⟨live, -⟩)
      · exact shows.stores.contains inside
      · exact live
    · intro live
      by_cases same : k = c.handle
      · exact .inl same
      · exact .inr ⟨live, same⟩

/-- A new value is refused if a sibling has its key. Otherwise it takes the node with its subtree to
the one place that keeps the siblings strictly increasing, which is the old place if the key is the
old one. -/
theorem Reachable.replaceValue_settles (reached : t.Reachable) (builtIn : t.policy.BuiltInKeyed cmp)
    (above : t.parent h = .ok (some p)) (x : α) :
    (t.replaceValue h x = t.refuse (.duplicateKey p) ↔ t.Occupied cmp p h x) ∧
      (¬t.Occupied cmp p h x → ∃ (t' : Tree α) (y : α), t.replaceValue h x = t'.answer y ∧
        t.get? h = some y ∧ t.Revalues t' cmp p h x) ∧
      ∀ y, t.get? h = some y → cmp y x = .eq →
        ∃ t' : Tree α, t.replaceValue h x = t'.answer y ∧ t'.childrenAt p = t.childrenAt p := by
  have sorts := builtIn.sortsBy
  obtain ⟨f, shows, ordered⟩ := reached.exists_ordered_forest sorts
  obtain ⟨s, mem, i, c, child, rfl, rfl⟩ := shows.exists_child_of_parent above
  have inside := mem_nodes_of_child mem (List.mem_of_getElem? child)
  have asc := ordered s mem
  have occupied := shows.stores.occupied_iff mem child sorts asc x
  rcases shows.stores.replaceValue_cases sorts.inRange mem child x with
    ⟨k, -, place, refused⟩ | ⟨j, settled, t', done, stored, root⟩
  · refine ⟨iff_of_true refused (occupied.mpr ⟨k, place⟩),
      fun free => absurd (occupied.mpr ⟨k, place⟩) free, fun y valued same => ?_⟩
    rw [shows.stores.get?_eq inside] at valued
    cases valued
    rw [place_eq_before_of_eq sorts asc child same] at place
    cases place
  · have place := settled.place_eq sorts.keyed
    have shown := shows_mapBelow (shows.roots_of_eq root) stored
    have free := shows.stores.not_occupied mem child sorts asc place
    refine ⟨iff_of_false (fun refused => ?_) free, fun _ => ?_, fun y valued same => ?_⟩
    · rw [done] at refused
      cases congrArg Reply.outcome refused
    · exact ⟨t', c.value, done, shows.stores.get?_eq inside,
        shows.revalues mem child sorts asc place shown⟩
    · rw [shows.stores.get?_eq inside] at valued
      cases valued
      rw [place_eq_before_of_eq sorts asc child same] at place
      cases place
      have within := (List.getElem?_eq_some_iff.mp child).1
      refine ⟨t', done, ?_⟩
      rw [shown.childrenAt_mapBelow shows.nodup mem, shows.stores.childrenAt_eq mem,
        roots_swapAt_self within, ← roots_swapAt_self within c, swapAt_same child]

/-- Below the root stand 2 and then 7. -/
theorem replaceValue_settles_sample :
    (Tree.sample .naturalOrder).parent ⟨1, 2, 0⟩ = .ok (some ⟨1, 0, 0⟩) ∧
      (Tree.sample .naturalOrder).replaceValue ⟨1, 2, 0⟩ 7 =
        (Tree.sample .naturalOrder).refuse (.duplicateKey ⟨1, 0, 0⟩) ∧
      ∃ t', (Tree.sample .naturalOrder).replaceValue ⟨1, 2, 0⟩ 9 = t'.answer 2 ∧
        (Tree.sample .naturalOrder).Revalues t' compare ⟨1, 0, 0⟩ ⟨1, 2, 0⟩ 9 := by
  have builtIn : (Tree.sample .naturalOrder).policy.BuiltInKeyed compare := by
    rw [policy_sample]
    exact .searching .naturalOrder
  have above : (Tree.sample .naturalOrder).parent ⟨1, 2, 0⟩ = .ok (some ⟨1, 0, 0⟩) := by
    decide +kernel
  have siblings : (Tree.sample .naturalOrder).others ⟨1, 0, 0⟩ ⟨1, 2, 0⟩ = [⟨1, 1, 0⟩] := by
    decide +kernel
  have valued : (Tree.sample .naturalOrder).get? ⟨1, 1, 0⟩ = some 7 := by decide +kernel
  have spec := fun x => (reachable_sample .naturalOrder).replaceValue_settles builtIn above x
  refine ⟨above, (spec 7).1.mpr ?_, ?_⟩
  · rw [Occupied, siblings]
    exact ⟨_, List.mem_singleton_self _, 7, valued, rfl⟩
  · have free : ¬(Tree.sample .naturalOrder).Occupied compare ⟨1, 0, 0⟩ ⟨1, 2, 0⟩ 9 := by
      rw [Occupied, siblings]
      rintro ⟨c, only, y, value, same⟩
      obtain rfl := List.mem_singleton.mp only
      rw [valued] at value
      cases value
      cases same
    obtain ⟨t', y, done, value, revalues⟩ := (spec 9).2.1 free
    have old : (Tree.sample .naturalOrder).get? ⟨1, 2, 0⟩ = some 2 := by decide +kernel
    rw [old] at value
    cases value
    exact ⟨t', done, revalues⟩

end PolicyTree.Tree
