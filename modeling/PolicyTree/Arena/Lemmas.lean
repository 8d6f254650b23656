import PolicyTree.Arena.Basic

/-! What each operation on an arena does to the items its handles denote. -/

namespace PolicyTree

@[simp] theorem Slot.item_sweep {α : Type} (s : Slot α) : s.sweep.item = none := by
  obtain ⟨g, _ | x⟩ := s <;> rfl

namespace Arena

variable {α : Type} {a : Arena α} {h h' : Handle}

/-! ## Reading -/

theorem get?_eq_some_iff {x : α} :
    a.get? h = some x ↔
      h.owner = a.owner ∧ a.slots[h.index]? = some ⟨h.generation, some x⟩ := by
  unfold get?
  split
  case isTrue owned =>
    cases slot : a.slots[h.index]? with
    | none => simp
    | some s =>
      obtain ⟨g, item⟩ := s
      by_cases current : g = h.generation <;> simp [owned, current]
  case isFalse foreign => simp [foreign]

theorem contains_iff : a.contains h = true ↔ ∃ x, a.get? h = some x :=
  Option.isSome_iff_exists

theorem not_contains_iff : ¬a.contains h = true ↔ a.get? h = none := by
  simp [contains]

/-- A live handle is the only one for its slot. -/
theorem generation_ne {x : α} (live : a.get? h = some x) (owned : h'.owner = a.owner)
    (other : h' ≠ h) (place : h.index = h'.index) : h.generation ≠ h'.generation := by
  intro current
  obtain ⟨o, i, g⟩ := h
  obtain ⟨o', i', g'⟩ := h'
  have := (get?_eq_some_iff.mp live).1
  simp_all

@[simp] theorem get?_withCapacity (owner : UInt32) (reserved : Nat) :
    (withCapacity owner reserved : Arena α).get? h = none := by
  simp [get?, withCapacity]

/-! ## Owners -/

@[simp] theorem owner_allocate (a : Arena α) (x : α) : (a.allocate x).owner = a.owner := by
  unfold allocate
  split <;> rfl

@[simp] theorem owner_erase (a : Arena α) (h : Handle) : (a.erase h).owner = a.owner := by
  unfold erase
  split <;> rfl

@[simp] theorem owner_modify (a : Arena α) (h : Handle) (f : α → α) :
    (a.modify h f).owner = a.owner := by
  unfold modify
  split <;> rfl

@[simp] theorem owner_clear (a : Arena α) : a.clear.owner = a.owner := rfl

@[simp] theorem owner_fresh (a : Arena α) : a.fresh.owner = a.owner := by
  unfold fresh
  split <;> rfl

/-! ## Counts -/

@[simp] theorem len_allocate (a : Arena α) (x : α) : (a.allocate x).len = a.len + 1 := by
  unfold allocate
  split <;> rfl

@[simp] theorem len_modify (a : Arena α) (h : Handle) (f : α → α) :
    (a.modify h f).len = a.len := by
  unfold modify
  split <;> rfl

/-! ## Writing -/

theorem erase_of_dead (dead : a.get? h = none) : a.erase h = a := by
  rw [erase, if_neg (not_contains_iff.mpr dead)]

theorem modify_of_dead (dead : a.get? h = none) (f : α → α) : a.modify h f = a := by
  rw [modify, if_neg (not_contains_iff.mpr dead)]

@[simp] theorem get?_erase_self (a : Arena α) (h : Handle) : (a.erase h).get? h = none := by
  cases live : a.get? h with
  | none => rw [erase_of_dead live, live]
  | some x =>
    rw [erase, if_pos (contains_iff.mpr ⟨x, live⟩)]
    simp [get?, Array.getElem?_modify, (get?_eq_some_iff.mp live).2, Slot.vacate]

/-- Erasing through one handle leaves every other handle alone. -/
theorem get?_erase_of_ne (other : h' ≠ h) : (a.erase h).get? h' = a.get? h' := by
  cases live : a.get? h with
  | none => rw [erase_of_dead live]
  | some x =>
    obtain ⟨owned, stored⟩ := get?_eq_some_iff.mp live
    rw [erase, if_pos (contains_iff.mpr ⟨x, live⟩)]
    simp only [get?, Array.getElem?_modify]
    split
    case isFalse foreign => rfl
    case isTrue same =>
      by_cases place : h.index = h'.index
      · have stale := generation_ne live same other place
        rw [place] at stored
        simp [place, stored, stale, Slot.vacate]
      · simp [place]

theorem get?_modify_self (a : Arena α) (h : Handle) (f : α → α) :
    (a.modify h f).get? h = (a.get? h).map f := by
  cases live : a.get? h with
  | none => rw [modify_of_dead live, live]; rfl
  | some x =>
    obtain ⟨owned, stored⟩ := get?_eq_some_iff.mp live
    rw [modify, if_pos (contains_iff.mpr ⟨x, live⟩)]
    simp [get?, Array.getElem?_modify, owned, stored]

theorem get?_modify_of_ne (other : h' ≠ h) (f : α → α) :
    (a.modify h f).get? h' = a.get? h' := by
  cases live : a.get? h with
  | none => rw [modify_of_dead live]
  | some x =>
    obtain ⟨owned, stored⟩ := get?_eq_some_iff.mp live
    rw [modify, if_pos (contains_iff.mpr ⟨x, live⟩)]
    simp only [get?, Array.getElem?_modify]
    split
    case isFalse foreign => rfl
    case isTrue same =>
      by_cases place : h.index = h'.index
      · have stale := generation_ne live same other place
        rw [place] at stored
        simp [place, stored, stale]
      · simp [place]

/-- A change that leaves the item as it is leaves the arena as it is. -/
theorem modify_of_fixed {f : α → α} (fixed : ∀ x, a.get? h = some x → f x = x) :
    a.modify h f = a := by
  cases live : a.get? h with
  | none => exact modify_of_dead live f
  | some x =>
    obtain ⟨owned, stored⟩ := get?_eq_some_iff.mp live
    have same : a.slots.modify h.index (fun s => { s with item := s.item.map f }) = a.slots := by
      apply Array.ext_getElem?
      intro i
      rw [Array.getElem?_modify]
      split
      case isFalse => rfl
      case isTrue here => rw [← here, stored, Option.map_some, Option.map_some, fixed x live]
    rw [modify, if_pos (contains_iff.mpr ⟨x, live⟩), same]

@[simp] theorem get?_clear (a : Arena α) (h : Handle) : a.clear.get? h = none := by
  simp only [get?, clear, Array.getElem?_map]
  split <;> cases a.slots[h.index]? <;> simp

end Arena

end PolicyTree
