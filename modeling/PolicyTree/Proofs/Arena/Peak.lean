import Mathlib.Order.Bounds.Basic
import PolicyTree.Proofs.Arena.Calls

/-! Slots over a run of calls: there are as many as items were ever stored at one time, and each is in
use or free. -/

namespace PolicyTree.Arena

variable {α : Type} {a : Arena α} {h : Handle} {i : Nat}

/-! ## One call -/

/-- A slot is added only to store an item when none is free. -/
theorem size_call_cases (a : Arena α) (c : Call α) :
    (a.call c).2.slots.size = a.slots.size ∨
      (∃ x, c = .allocate x) ∧ a.free = [] ∧ (a.call c).2.slots.size = a.slots.size + 1 := by
  cases c with
  | allocate x =>
    rw [call, size_allocate]
    split
    case isTrue full => exact .inr ⟨⟨x, rfl⟩, full, rfl⟩
    case isFalse => exact .inl rfl
  | take h => exact .inl (size_erase a h)
  | modify h f => exact .inl (size_modify a h f)
  | get h | contains h => exact .inl rfl
  | clear => exact .inl (Array.size_map ..)

theorem Kept.size_call (kept : a.Kept) (c : Call α) :
    (a.call c).2.slots.size = max a.slots.size (a.call c).2.len := by
  have before := kept.size_eq
  have after := (kept.call c).size_eq
  rcases a.size_call_cases c with same | ⟨⟨x, rfl⟩, full, more⟩
  · omega
  · rw [freeCount, full, List.length_nil] at before
    rw [Arena.call, len_allocate] at after ⊢
    rw [Arena.call] at more
    omega

/-! ## All calls -/

/-- How many items there are before, between and after the calls. -/
def levels (a : Arena α) (cs : List (Call α)) : Set Nat :=
  {n | ∃ early, early <+: cs ∧ (a.callAll early).len = n}

theorem levels_nil (a : Arena α) : a.levels [] = {a.len} := by
  ext n
  simp [levels, callAll, eq_comm]

theorem levels_concat (a : Arena α) (cs : List (Call α)) (c : Call α) :
    a.levels (cs ++ [c]) = insert (a.callAll (cs ++ [c])).len (a.levels cs) := by
  ext n
  simp only [levels, List.prefix_concat_iff, Set.mem_ofPred_eq, Set.mem_insert_iff, or_and_right,
    exists_or, exists_eq_left, eq_comm]

/-- Where no slot is free at first, the slots number as many as there were items at the highest
level. -/
theorem Kept.isGreatest_levels (kept : a.Kept) (full : a.slots.size = a.len) (cs : List (Call α)) :
    IsGreatest (a.levels cs) (a.callAll cs).slots.size := by
  induction cs using List.reverseRecOn with
  | nil =>
    rw [levels_nil, ← full]
    exact isGreatest_singleton
  | append_singleton cs c ih =>
    have last : a.callAll (cs ++ [c]) = ((a.callAll cs).call c).2 := callAll_append a cs [c]
    rw [levels_concat, last, (kept.callAll cs).size_call c, max_comm]
    exact ih.insert _

/-! ## Main result -/

/-- There are as many slots as the greatest of the `levels`. Each is in use or free, the free ones
are listed once, and none is added while one is free. -/
structure Recycles (a : Arena α) (levels : Set Nat) : Prop where
  isGreatest : IsGreatest levels (a.len + a.freeCount)
  size_eq : a.slots.size = a.len + a.freeCount
  count_free : ∀ i, a.free.count i = if i < a.slots.size ∧ a.occupiedAt i = false then 1 else 0
  index_lt : ∀ h, a.contains h = true → h.index < a.len + a.freeCount
  grows : ∀ c, (a.call c).2.slots.size ≠ a.slots.size →
    (∃ x, c = .allocate x) ∧ a.free = [] ∧ (a.call c).2.slots.size = a.slots.size + 1

theorem Tidy.mem_free_iff (tidy : a.Tidy) :
    i ∈ a.free ↔ i < a.slots.size ∧ a.occupiedAt i = false := by
  rw [tidy.perm_free.mem_iff, List.mem_filter, List.mem_range, Bool.not_eq_true']

theorem index_lt_size (live : a.contains h = true) : h.index < a.slots.size := by
  obtain ⟨x, bound⟩ := contains_iff.mp live
  exact (Array.getElem?_eq_some_iff.mp (get?_eq_some_iff.mp bound).2).1

/-- Whatever calls are made on a new arena, its slots are used again and again. -/
theorem withCapacity_recycles (owner : UInt32) (reserved : Nat) (cs : List (Call α)) :
    ((withCapacity owner reserved).callAll cs).Recycles ((withCapacity owner reserved).levels cs) := by
  have new : (withCapacity owner reserved : Arena α).Kept := (Holds.withCapacity owner reserved).kept
  have kept := new.callAll cs
  constructor
  case isGreatest =>
    rw [← kept.size_eq]
    exact new.isGreatest_levels rfl cs
  case size_eq => exact kept.size_eq
  case count_free =>
    intro i
    by_cases free : i ∈ ((withCapacity owner reserved).callAll cs).free
    · rw [if_pos (kept.tidy.mem_free_iff.mp free), List.count_eq_one_of_mem kept.tidy.nodup free]
    · rw [if_neg (mt kept.tidy.mem_free_iff.mpr free), List.count_eq_zero_of_not_mem free]
  case index_lt =>
    intro h live
    rw [← kept.size_eq]
    exact index_lt_size live
  case grows =>
    intro c more
    exact ((size_call_cases _ c).resolve_left more)

end PolicyTree.Arena
