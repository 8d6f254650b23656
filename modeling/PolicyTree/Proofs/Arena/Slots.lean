import PolicyTree.Proofs.Arena.Contents

/-! Slots one by one: what they hold, and how old they are. -/

namespace PolicyTree.Arena

variable {α : Type} {a b : Arena α} {bs cs : List (Handle × α)} {h k : Handle} {x : α} {i : Nat}

/-! ## Occupants -/

/-- How often slot `i` has been emptied, modulo `2 ^ 32`; zero for a slot still to be made. -/
def generationAt (a : Arena α) (i : Nat) : UInt32 := (a.slots[i]?.map Slot.generation).getD 0

def occupiedAt (a : Arena α) (i : Nat) : Bool := a.slots[i]?.any Slot.occupied

/-- The handle that an occupant of slot `i` goes by. -/
def handleAt (a : Arena α) (i : Nat) : Handle := ⟨a.owner, i, a.generationAt i⟩

/-- A handle is live if its slot is occupied and it is the handle of the occupant. -/
theorem contains_iff_handleAt :
    a.contains h = true ↔ h = a.handleAt h.index ∧ a.occupiedAt h.index = true := by
  obtain ⟨o, i, g⟩ := h
  rw [contains_iff]
  simp only [get?_eq_some_iff, handleAt, generationAt, occupiedAt, Handle.mk.injEq, true_and]
  cases slot : a.slots[i]? with
  | none => simp
  | some s =>
    obtain ⟨g', item⟩ := s
    cases item <;> simp [Slot.occupied, eq_comm]

theorem contains_handleAt : a.contains (a.handleAt i) = a.occupiedAt i := by
  rw [Bool.eq_iff_iff, contains_iff_handleAt]
  simp [handleAt]

theorem generationAt_of_contains (live : a.contains h = true) :
    a.generationAt h.index = h.generation :=
  (congrArg Handle.generation (contains_iff_handleAt.mp live).1).symm

theorem owner_of_contains (live : a.contains h = true) : h.owner = a.owner :=
  congrArg Handle.owner (contains_iff_handleAt.mp live).1

theorem size_allocate (a : Arena α) (x : α) :
    (a.allocate x).slots.size = if a.free = [] then a.slots.size + 1 else a.slots.size := by
  unfold allocate
  split
  case h_1 full => simp [full]
  case h_2 vacant => simp [vacant]

@[simp] theorem size_modify (a : Arena α) (h : Handle) (f : α → α) :
    (a.modify h f).slots.size = a.slots.size := by
  unfold modify
  split <;> simp

@[simp] theorem size_erase (a : Arena α) (h : Handle) :
    (a.erase h).slots.size = a.slots.size := by
  unfold erase
  split <;> simp

/-! ## Generations -/

@[simp] theorem generationAt_allocate (a : Arena α) (x : α) (i : Nat) :
    (a.allocate x).generationAt i = a.generationAt i := by
  unfold allocate generationAt
  split
  · simp only [Array.getElem?_push]
    split
    case isTrue last => simp [last]
    case isFalse => rfl
  · simp only [Array.getElem?_modify]
    split
    · cases a.slots[i]? <;> rfl
    · rfl

@[simp] theorem generationAt_modify (a : Arena α) (h : Handle) (f : α → α) (i : Nat) :
    (a.modify h f).generationAt i = a.generationAt i := by
  unfold modify generationAt
  split
  · simp only [Array.getElem?_modify]
    split
    · cases a.slots[i]? <;> rfl
    · rfl
  · rfl

theorem generationAt_erase (a : Arena α) (h : Handle) (i : Nat) :
    (a.erase h).generationAt i =
      if a.contains h = true ∧ h.index = i then a.generationAt i + 1 else a.generationAt i := by
  cases live : a.get? h with
  | none =>
    rw [erase_of_dead live, if_neg]
    exact fun both => not_contains_iff.mpr live both.1
  | some x =>
    have here : a.contains h = true := contains_iff.mpr ⟨x, live⟩
    have stored := (get?_eq_some_iff.mp live).2
    rw [erase, if_pos here]
    simp only [generationAt, Array.getElem?_modify, here, true_and]
    by_cases same : h.index = i
    · subst same
      simp [stored, Slot.vacate]
    · simp [same]

theorem generationAt_clear (a : Arena α) (i : Nat) :
    a.clear.generationAt i =
      if a.occupiedAt i = true then a.generationAt i + 1 else a.generationAt i := by
  simp only [clear, generationAt, Array.getElem?_map]
  cases slot : a.slots[i]? with
  | none => simp [occupiedAt, slot]
  | some s =>
    have occupied : a.occupiedAt i = s.occupied := by simp [occupiedAt, slot]
    rw [occupied]
    simp only [Option.map_some, Option.getD_some, Slot.sweep]
    split <;> rfl

/-! ## Vacancy -/

theorem Tidy.contains_allocate_iff (tidy : a.Tidy) (x : α) :
    (a.allocate x).contains h = true ↔ a.contains h = true ∨ h = a.fresh := by
  by_cases new : h = a.fresh
  · rw [new]
    exact iff_of_true (contains_iff.mpr ⟨x, tidy.get?_allocate_self x⟩) (.inr rfl)
  · rw [or_iff_left new, contains, contains, tidy.get?_allocate_of_ne new]

theorem Tidy.contains_allocate (tidy : a.Tidy) (live : a.contains h = true) (x : α) :
    (a.allocate x).contains h = true :=
  (tidy.contains_allocate_iff x).mpr (.inl live)

theorem contains_modify (a : Arena α) (h : Handle) (f : α → α) (k : Handle) :
    (a.modify h f).contains k = a.contains k := by
  unfold contains
  by_cases same : k = h
  · rw [same, get?_modify_self, Option.isSome_map]
  · rw [get?_modify_of_ne same]

theorem occupiedAt_modify (a : Arena α) (h : Handle) (f : α → α) (i : Nat) :
    (a.modify h f).occupiedAt i = a.occupiedAt i := by
  rw [← contains_handleAt, ← contains_handleAt, contains_modify, handleAt, handleAt,
    generationAt_modify, owner_modify]

theorem occupiedAt_erase (a : Arena α) (h : Handle) (i : Nat) :
    (a.erase h).occupiedAt i =
      if a.contains h = true ∧ h.index = i then false else a.occupiedAt i := by
  cases live : a.get? h with
  | none =>
    rw [erase_of_dead live, if_neg]
    exact fun both => not_contains_iff.mpr live both.1
  | some x =>
    have here : a.contains h = true := contains_iff.mpr ⟨x, live⟩
    have stored := (get?_eq_some_iff.mp live).2
    rw [erase, if_pos here]
    simp only [occupiedAt, Array.getElem?_modify, here, true_and]
    by_cases same : h.index = i
    · subst same
      simp [stored, Slot.vacate, Slot.occupied]
    · simp [same]

end PolicyTree.Arena
