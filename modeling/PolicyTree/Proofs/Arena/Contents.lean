import PolicyTree.Arena.Lemmas

/-! An arena as a finite map from handles to items. -/

namespace PolicyTree.Arena

variable {α : Type} {a : Arena α} {bs cs : List (Handle × α)} {h : Handle} {x : α}

/-! ## The free list -/

/-- The free list names each vacant slot once and no other slot. -/
structure Tidy (a : Arena α) : Prop where
  nodup : a.free.Nodup
  mem_iff : ∀ i, i ∈ a.free ↔ ∃ s, a.slots[i]? = some s ∧ s.item = none

theorem tidy_withCapacity (owner : UInt32) (reserved : Nat) :
    (withCapacity owner reserved : Arena α).Tidy where
  nodup := List.nodup_nil
  mem_iff i := by simp [withCapacity]

/-- The slot that the next allocation fills is vacant and keeps its generation until then. -/
theorem Tidy.slot_of_free_eq_cons (tidy : a.Tidy) {i : Nat} {rest : List Nat}
    (free : a.free = i :: rest) : a.slots[i]? = some ⟨a.fresh.generation, none⟩ := by
  obtain ⟨⟨g, item⟩, stored, rfl⟩ := (tidy.mem_iff i).mp (by simp [free])
  simp [fresh, free, stored]

theorem Tidy.allocate (tidy : a.Tidy) (x : α) : (a.allocate x).Tidy := by
  have distinct := tidy.nodup
  unfold Arena.allocate
  split
  case h_1 full =>
    refine ⟨by simp [full], ?_⟩
    intro i
    have vacant := tidy.mem_iff i
    simp only [full, List.not_mem_nil, false_iff, Array.getElem?_push] at vacant ⊢
    split
    · simp
    · exact vacant
  case h_2 j rest free =>
    rw [free, List.nodup_cons] at distinct
    refine ⟨distinct.2, ?_⟩
    intro i
    have vacant := tidy.mem_iff i
    rw [free, List.mem_cons] at vacant
    simp only [Array.getElem?_modify]
    by_cases same : j = i
    · subst same
      simp [distinct.1, tidy.slot_of_free_eq_cons free]
    · simpa [same, Ne.symm same] using vacant

theorem Tidy.erase (tidy : a.Tidy) (h : Handle) : (a.erase h).Tidy := by
  cases live : a.get? h with
  | none => rwa [erase_of_dead live]
  | some x =>
    have stored := (get?_eq_some_iff.mp live).2
    rw [Arena.erase, if_pos (contains_iff.mpr ⟨x, live⟩)]
    have occupied : h.index ∉ a.free := by simp [tidy.mem_iff, stored]
    refine ⟨List.nodup_cons.mpr ⟨occupied, tidy.nodup⟩, ?_⟩
    intro i
    simp only [List.mem_cons, Array.getElem?_modify]
    by_cases same : h.index = i
    · subst same
      simp [stored, Slot.vacate]
    · simp [same, Ne.symm same, tidy.mem_iff]

theorem Tidy.modify (tidy : a.Tidy) (h : Handle) (f : α → α) : (a.modify h f).Tidy := by
  cases live : a.get? h with
  | none => rwa [modify_of_dead live]
  | some x =>
    have stored := (get?_eq_some_iff.mp live).2
    rw [Arena.modify, if_pos (contains_iff.mpr ⟨x, live⟩)]
    refine ⟨tidy.nodup, ?_⟩
    intro i
    simp only [Array.getElem?_modify, tidy.mem_iff]
    by_cases same : h.index = i
    · subst same
      simp [stored]
    · simp [same]

theorem tidy_clear (a : Arena α) : a.clear.Tidy where
  nodup := List.nodup_range
  mem_iff i := by
    simp only [clear, List.mem_range, Array.getElem?_map, Option.map_eq_some_iff]
    constructor
    · intro inside
      exact ⟨_, ⟨a.slots[i], by simp [inside], rfl⟩, Slot.item_sweep _⟩
    · rintro ⟨_, ⟨s, stored, rfl⟩, -⟩
      exact (Array.getElem?_eq_some_iff.mp stored).1

/-! ## Allocation -/

theorem Tidy.get?_fresh (tidy : a.Tidy) : a.get? a.fresh = none := by
  cases free : a.free with
  | nil => simp [get?, fresh, free]
  | cons i rest =>
    have place : a.fresh.index = i := by simp [fresh, free]
    simp [get?, place, tidy.slot_of_free_eq_cons free]

theorem Tidy.get?_allocate_self (tidy : a.Tidy) (x : α) :
    (a.allocate x).get? a.fresh = some x := by
  cases free : a.free with
  | nil => simp [get?, fresh, Arena.allocate, free]
  | cons i rest =>
    have place : a.fresh.index = i := by simp [fresh, free]
    simp [get?, Arena.allocate, free, place, Array.getElem?_modify, tidy.slot_of_free_eq_cons free]

theorem Tidy.get?_allocate_of_ne (tidy : a.Tidy) (other : h ≠ a.fresh) (x : α) :
    (a.allocate x).get? h = a.get? h := by
  obtain ⟨o, i, g⟩ := h
  cases free : a.free with
  | nil =>
    simp only [get?, Arena.allocate, fresh, free, Array.getElem?_push] at other ⊢
    by_cases owned : o = a.owner
    · by_cases last : i = a.slots.size
      · have stale : (0 : UInt32) ≠ g := by
          rintro rfl
          exact other (by rw [owned, last])
        simp [owned, last, stale]
      · simp [last]
    · simp [owned]
  | cons j rest =>
    have place : a.fresh = ⟨a.owner, j, a.fresh.generation⟩ := by simp [fresh, free]
    have vacant := tidy.slot_of_free_eq_cons free
    simp only [get?, Arena.allocate, free, Array.getElem?_modify]
    by_cases owned : o = a.owner
    · by_cases same : j = i
      · subst same
        have stale : a.fresh.generation ≠ g := by
          rintro rfl
          exact other (by rw [place, owned])
        simp [owned, vacant, stale]
      · simp [same]
    · simp [owned]

/-! ## Contents -/

/-- The live handles of `a` are those of `bs`, each bound to one item, and the free list and the
count agree with them. -/
structure Holds (a : Arena α) (bs : List (Handle × α)) : Prop where
  tidy : a.Tidy
  nodup : (bs.map Prod.fst).Nodup
  bound : ∀ h x, a.get? h = some x ↔ (h, x) ∈ bs
  len_eq : a.len = bs.length

theorem map_rebind_of_notMem (absent : h ∉ bs.map Prod.fst) (f : α → α) :
    bs.map (fun e => (e.1, if e.1 = h then f e.2 else e.2)) = bs := by
  have others : ∀ e ∈ bs, (e.1, if e.1 = h then f e.2 else e.2) = e := by
    intro e mem
    rw [if_neg]
    exact fun same => absent (List.mem_map.mpr ⟨e, mem, same⟩)
  rw [List.map_congr_left others, List.map_id']

namespace Holds

theorem perm (holds : a.Holds bs) (same : bs.Perm cs) : a.Holds cs where
  tidy := holds.tidy
  nodup := (same.map _).nodup_iff.mp holds.nodup
  bound h x := (holds.bound h x).trans same.mem_iff
  len_eq := holds.len_eq.trans same.length_eq

theorem get? (holds : a.Holds bs) (mem : (h, x) ∈ bs) : a.get? h = some x :=
  (holds.bound h x).mpr mem

theorem contains_iff (holds : a.Holds bs) : a.contains h = true ↔ h ∈ bs.map Prod.fst := by
  simp [Arena.contains_iff, holds.bound]

theorem get?_eq_none_iff (holds : a.Holds bs) : a.get? h = none ↔ h ∉ bs.map Prod.fst := by
  rw [← holds.contains_iff, not_contains_iff]

theorem fresh_notMem (holds : a.Holds bs) : a.fresh ∉ bs.map Prod.fst :=
  holds.get?_eq_none_iff.mp holds.tidy.get?_fresh

theorem withCapacity (owner : UInt32) (reserved : Nat) :
    (withCapacity owner reserved : Arena α).Holds [] where
  tidy := tidy_withCapacity owner reserved
  nodup := List.nodup_nil
  bound h x := by simp
  len_eq := rfl

theorem allocate (holds : a.Holds bs) (x : α) : (a.allocate x).Holds ((a.fresh, x) :: bs) where
  tidy := holds.tidy.allocate x
  nodup := List.nodup_cons.mpr ⟨holds.fresh_notMem, holds.nodup⟩
  bound h y := by
    by_cases same : h = a.fresh
    · have absent : (a.fresh, y) ∉ bs := fun mem =>
        holds.fresh_notMem (List.mem_map.mpr ⟨_, mem, rfl⟩)
      simp [same, holds.tidy.get?_allocate_self, absent, eq_comm]
    · simp [same, holds.tidy.get?_allocate_of_ne same, holds.bound]
  len_eq := by rw [len_allocate, holds.len_eq, List.length_cons]

theorem erase (holds : a.Holds ((h, x) :: bs)) : (a.erase h).Holds bs where
  tidy := holds.tidy.erase h
  nodup := (List.nodup_cons.mp holds.nodup).2
  bound k y := by
    have absent : h ∉ bs.map Prod.fst := (List.nodup_cons.mp holds.nodup).1
    by_cases same : k = h
    · subst same
      have unbound : (k, y) ∉ bs := fun mem => absent (List.mem_map.mpr ⟨_, mem, rfl⟩)
      simp [unbound]
    · simp [get?_erase_of_ne same, holds.bound, same]
  len_eq := by
    have live : a.contains h = true := holds.contains_iff.mpr (by simp)
    have counted := holds.len_eq
    simp only [Arena.len, Arena.erase, if_pos live, List.length_cons] at counted ⊢
    omega

theorem modify (holds : a.Holds bs) (h : Handle) (f : α → α) :
    (a.modify h f).Holds (bs.map fun e => (e.1, if e.1 = h then f e.2 else e.2)) where
  tidy := holds.tidy.modify h f
  nodup := by simpa [Function.comp_def] using holds.nodup
  bound k y := by
    have changed : (k, y) ∈ bs.map (fun e => (e.1, if e.1 = h then f e.2 else e.2)) ↔
        ∃ x, (k, x) ∈ bs ∧ (if k = h then f x else x) = y := by
      simp only [List.mem_map, Prod.mk.injEq]
      constructor
      · rintro ⟨⟨_, x⟩, mem, rfl, v⟩
        exact ⟨x, mem, v⟩
      · rintro ⟨x, mem, v⟩
        exact ⟨(k, x), mem, rfl, v⟩
    rw [changed]
    by_cases same : k = h
    · subst same
      simp [get?_modify_self, holds.bound]
    · simp [get?_modify_of_ne same, holds.bound, same]
  len_eq := by rw [len_modify, holds.len_eq, List.length_map]

theorem modify_cons (holds : a.Holds ((h, x) :: bs)) (f : α → α) :
    (a.modify h f).Holds ((h, f x) :: bs) := by
  have absent : h ∉ bs.map Prod.fst := (List.nodup_cons.mp holds.nodup).1
  simpa [map_rebind_of_notMem absent] using holds.modify h f

theorem clear (a : Arena α) : a.clear.Holds [] where
  tidy := tidy_clear a
  nodup := List.nodup_nil
  bound h x := by simp
  len_eq := rfl

/-- An arena that holds nothing has no occupied slot. -/
theorem not_occupied (holds : a.Holds []) {s : Slot α} (mem : s ∈ a.slots) :
    s.occupied = false := by
  obtain ⟨i, place⟩ := Array.mem_iff_getElem?.mp mem
  obtain ⟨g, item⟩ := s
  cases item with
  | none => rfl
  | some x =>
    have live : a.get? ⟨a.owner, i, g⟩ = some x := get?_eq_some_iff.mpr ⟨rfl, place⟩
    cases (holds.bound _ _).mp live

/-- Erasing all handles of a part of the contents leaves the other part, in whatever order they
go. -/
theorem foldl_erase {hs : List Handle} (holds : a.Holds (bs ++ cs))
    (all : hs.Perm (bs.map Prod.fst)) : (hs.foldl Arena.erase a).Holds cs := by
  induction hs generalizing a bs with
  | nil =>
    obtain rfl : bs = [] := by simpa using all
    exact holds
  | cons h hs ih =>
    obtain ⟨⟨h, x⟩, mem, rfl⟩ := List.mem_map.mp (all.subset (List.mem_cons_self ..))
    obtain ⟨front, back, rfl⟩ := List.append_of_mem mem
    have left : (a.erase h).Holds (front ++ back ++ cs) := by
      apply Holds.erase (x := x) (holds.perm _)
      simp
    apply ih left (List.Perm.cons_inv (all.trans _))
    simp

end Holds

end PolicyTree.Arena
