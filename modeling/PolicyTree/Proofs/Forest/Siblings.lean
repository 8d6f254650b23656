import Mathlib.Data.List.InsertIdx
import Mathlib.Data.List.Perm.Basic
import PolicyTree.Proofs.Forest.Basic

/-! Changes of one list of siblings, each taken along with its subtree. -/

namespace PolicyTree.Forest

open scoped List

variable {α : Type} {b : Forest α} {c s : Sprig α} {i j : Nat}

theorem records_perm_of_perm {b' : Forest α} (same : b.sprigs.Perm b'.sprigs) (q : Option Handle) :
    (b.records q).Perm (b'.records q) := by
  simpa only [records_eq_flatMap] using same.flatMap_right (·.records q)

theorem records_perm_cons {b' : Forest α} (same : b'.sprigs.Perm (s :: b.sprigs))
    (q : Option Handle) : (b'.records q).Perm (s.records q ++ b.records q) := by
  rw [records_eq_flatMap, records_eq_flatMap b]
  exact same.flatMap_right (·.records q)

/-! ## Planting -/

/-- Puts `s` before the sibling at an index, or at the end if there are fewer. -/
def plantAt (i : Nat) (s : Sprig α) (b : Forest α) : Forest α :=
  ofSprigs (b.sprigs.insertIdx (min i b.sprigs.length) s)

/-- Past the end means at the end. -/
theorem plantAt_min (i : Nat) (s : Sprig α) (b : Forest α) :
    b.plantAt (min i b.sprigs.length) s = b.plantAt i s := by
  rw [plantAt, plantAt, Nat.min_assoc, Nat.min_self]

theorem roots_plantAt (i : Nat) (s : Sprig α) (b : Forest α) :
    (b.plantAt i s).roots = b.roots.insertIdx (min i b.roots.length) s.handle := by
  simp [plantAt, roots, List.map_insertIdx]

theorem rootValues_plantAt (i : Nat) (s : Sprig α) (b : Forest α) :
    (b.plantAt i s).rootValues = b.rootValues.insertIdx (min i b.rootValues.length) s.value := by
  simp [plantAt, rootValues, List.map_insertIdx]

theorem sprigs_plantAt_perm (i : Nat) (s : Sprig α) (b : Forest α) :
    (b.plantAt i s).sprigs.Perm (s :: b.sprigs) := by
  rw [plantAt, sprigs_ofSprigs]
  exact List.perm_insertIdx s b.sprigs (Nat.min_le_right ..)

theorem handles_subset_plantAt (i : Nat) (s : Sprig α) (b : Forest α) :
    b.handles ⊆ (b.plantAt i s).handles := by
  rw [← map_fst_records b none, ← map_fst_records (b.plantAt i s) none]
  apply List.map_subset
  intro e mem
  exact (records_perm_cons (sprigs_plantAt_perm i s b) none).mem_iff.mpr
    (List.mem_append_right _ mem)

theorem mem_handles_plantAt (i : Nat) (s : Sprig α) (b : Forest α) :
    s.handle ∈ (b.plantAt i s).handles := by
  apply mem_handles_of_mem_roots
  refine List.mem_map.mpr ⟨s, ?_, rfl⟩
  exact (sprigs_plantAt_perm i s b).mem_iff.mpr (List.mem_cons_self ..)

/-! ## Plucking -/

/-- Takes out the sibling at an index. -/
def pluckAt (i : Nat) (b : Forest α) : Forest α := ofSprigs (b.sprigs.eraseIdx i)

theorem roots_pluckAt (i : Nat) (b : Forest α) : (b.pluckAt i).roots = b.roots.eraseIdx i := by
  simp [pluckAt, roots, List.eraseIdx_map]

theorem rootValues_pluckAt (i : Nat) (b : Forest α) :
    (b.pluckAt i).rootValues = b.rootValues.eraseIdx i := by
  simp [pluckAt, rootValues, List.eraseIdx_map]

theorem sprigs_pluckAt_perm (entry : b.sprigs[i]? = some c) :
    b.sprigs.Perm (c :: (b.pluckAt i).sprigs) := by
  obtain ⟨inside, rfl⟩ := List.getElem?_eq_some_iff.mp entry
  rw [pluckAt, sprigs_ofSprigs]
  exact (List.getElem_cons_eraseIdx_perm inside).symm

/-! ## Swapping -/

/-- Takes out the sibling at `i` and puts `s` where the index is `j` then. -/
def swapAt (i j : Nat) (s : Sprig α) (b : Forest α) : Forest α := (b.pluckAt i).plantAt j s

/-- A swap exchanges the nodes of the sibling taken out for those of `s`. -/
theorem records_swapAt_perm (entry : b.sprigs[i]? = some c) (j : Nat) {q : Option Handle}
    {rest rest' : List (Handle × Node α)}
    (supply : (c.records q ++ rest).Perm (s.records q ++ rest')) :
    ((b.swapAt i j s).records q ++ rest').Perm (b.records q ++ rest) := by
  have put : ((b.swapAt i j s).records q).Perm (s.records q ++ (b.pluckAt i).records q) :=
    records_perm_cons (sprigs_plantAt_perm j s (b.pluckAt i)) q
  have taken : (b.records q).Perm (c.records q ++ (b.pluckAt i).records q) :=
    records_perm_cons (sprigs_pluckAt_perm entry) q
  calc (b.swapAt i j s).records q ++ rest'
      ~ s.records q ++ (b.pluckAt i).records q ++ rest' := put.append_right rest'
    _ ~ (b.pluckAt i).records q ++ (s.records q ++ rest') := by
        rw [← List.append_assoc]
        exact List.perm_append_comm.append_right rest'
    _ ~ (b.pluckAt i).records q ++ (c.records q ++ rest) := supply.symm.append_left _
    _ ~ c.records q ++ (b.pluckAt i).records q ++ rest := by
        rw [← List.append_assoc]
        exact List.perm_append_comm.append_right rest
    _ ~ b.records q ++ rest := taken.symm.append_right rest

/-- Swapping within one place overwrites it. -/
theorem swapAt_self (inside : i < b.sprigs.length) (s : Sprig α) :
    b.swapAt i i s = ofSprigs (b.sprigs.set i s) := by
  have short : (b.sprigs.eraseIdx i).length = b.sprigs.length - 1 :=
    List.length_eraseIdx_of_lt inside
  rw [swapAt, plantAt, pluckAt, sprigs_ofSprigs, Nat.min_eq_left (by omega),
    List.insertIdx_eraseIdx_self (by omega)]

theorem roots_swapAt_self (inside : i < b.sprigs.length) (s : Sprig α) :
    (b.swapAt i i s).roots = b.roots.set i s.handle := by
  rw [swapAt_self inside, roots_ofSprigs, roots, List.map_set]

theorem pluckAt_plantAt (inside : i ≤ b.sprigs.length) (s : Sprig α) :
    (b.plantAt i s).pluckAt i = b := by
  rw [pluckAt, plantAt, sprigs_ofSprigs, Nat.min_eq_left inside, List.eraseIdx_insertIdx_self,
    ofSprigs_sprigs]

theorem swapAt_swapAt (inside : j ≤ (b.pluckAt i).sprigs.length) (c s : Sprig α) :
    (b.swapAt i j c).swapAt j j s = b.swapAt i j s := by
  rw [swapAt, swapAt, pluckAt_plantAt inside, swapAt]

theorem getElem?_plantAt (inside : i ≤ b.sprigs.length) (s : Sprig α) :
    (b.plantAt i s).sprigs[i]? = some s := by
  rw [plantAt, sprigs_ofSprigs, Nat.min_eq_left inside]
  simp [List.getElem?_insertIdx_self, inside]

/-- A new sibling is at the index asked for, or at the end. -/
theorem getElem?_plantAt_min (b : Forest α) (i : Nat) (s : Sprig α) :
    (b.plantAt i s).sprigs[min i b.sprigs.length]? = some s := by
  rw [← plantAt_min]
  exact getElem?_plantAt (Nat.min_le_right ..) s

theorem pluckAt_plantAt_min (b : Forest α) (i : Nat) (s : Sprig α) :
    (b.plantAt i s).pluckAt (min i b.sprigs.length) = b := by
  rw [← plantAt_min]
  exact pluckAt_plantAt (Nat.min_le_right ..) s

theorem swapAt_same (entry : b.sprigs[i]? = some c) : b.swapAt i i c = b := by
  obtain ⟨inside, rfl⟩ := List.getElem?_eq_some_iff.mp entry
  rw [swapAt_self inside, List.set_getElem_self, ofSprigs_sprigs]

/-! ## Sorting -/

/-- Sorts the siblings from index `i` to before index `j` by their values, stably. -/
def sortAt (i j : Nat) (cmp : α → α → Ordering) (b : Forest α) : Forest α :=
  ofSprigs (b.sprigs.take i ++
    ((b.sprigs.take j).drop i).mergeSort (fun s c => (cmp s.value c.value).isLE) ++
      b.sprigs.drop j)

/-- A list is what comes before a range, the range, and what comes after it. -/
theorem take_append_range_append_drop {β : Type} (le : i ≤ j) (xs : List β) :
    xs.take i ++ (xs.take j).drop i ++ xs.drop j = xs := by
  have front : (xs.take j).take i = xs.take i := by
    rw [List.take_take, Nat.min_eq_left le]
  rw [← front, List.take_append_drop, List.take_append_drop]

theorem range_roots (i j : Nat) (b : Forest α) :
    (b.roots.take j).drop i = ((b.sprigs.take j).drop i).map Sprig.handle := by
  rw [roots, List.map_drop, List.map_take]

theorem mem_nodes_of_mem_range {f : Forest α} {s : Sprig α} (mem : s ∈ f.nodes) (i j : Nat) :
    ∀ c ∈ (s.below.sprigs.take j).drop i, c ∈ f.nodes := fun _ among =>
  mem_nodes_of_child mem (List.mem_of_mem_take (List.mem_of_mem_drop among))

theorem sprigs_sortAt_perm (le : i ≤ j) (cmp : α → α → Ordering) (b : Forest α) :
    (b.sortAt i j cmp).sprigs.Perm b.sprigs := by
  rw [sortAt, sprigs_ofSprigs]
  apply (((List.mergeSort_perm ..).append_left _).append_right _).trans
  rw [take_append_range_append_drop le]

theorem roots_sortAt (i j : Nat) (cmp : α → α → Ordering) (b : Forest α) :
    (b.sortAt i j cmp).roots = b.roots.take i ++
      (((b.sprigs.take j).drop i).mergeSort fun s c => (cmp s.value c.value).isLE).map
        Sprig.handle ++ b.roots.drop j := by
  simp [sortAt, roots, List.map_drop, List.map_take]

section Range

variable (le : i ≤ j) (inside : j ≤ b.sprigs.length) (cmp : α → α → Ordering)

include le inside

theorem length_upto_sorted : (b.sprigs.take i ++ ((b.sprigs.take j).drop i).mergeSort
    fun s c => (cmp s.value c.value).isLE).length = j := by
  rw [List.length_append, List.length_mergeSort, List.length_drop, List.length_take,
    List.length_take]
  omega

/-- The range sorted stands where it stood before. -/
theorem range_sortAt : ((b.sortAt i j cmp).sprigs.take j).drop i =
    ((b.sprigs.take j).drop i).mergeSort fun s c => (cmp s.value c.value).isLE := by
  have front : (b.sprigs.take i).length = i := by
    rw [List.length_take]
    omega
  rw [sortAt, sprigs_ofSprigs, List.take_left' (length_upto_sorted le inside cmp),
    List.drop_left' front]

/-- Siblings behind the range keep their places. -/
theorem getElem?_sortAt_of_le {k : Nat} (behind : j ≤ k) :
    (b.sortAt i j cmp).sprigs[k]? = b.sprigs[k]? := by
  have length := length_upto_sorted le inside cmp
  rw [sortAt, sprigs_ofSprigs, List.getElem?_append_right (by omega), length, List.getElem?_drop]
  congr 1
  omega

end Range

end PolicyTree.Forest
