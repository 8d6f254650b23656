import PolicyTree.Proofs.Arena.Bindings

/-! What storing items, changing them and freeing slots come to in the long run. -/

namespace PolicyTree.Arena

variable {α : Type} {a b : Arena α} {h : Handle} {i : Nat}

/-! ## Growth -/

/-- `b` comes from `a` by storing items and by changes of items. -/
inductive Widened (a : Arena α) : Arena α → Prop where
  | refl : Widened a a
  | modify {b : Arena α} (widened : Widened a b) (h : Handle) (f : α → α) :
      Widened a (b.modify h f)
  | allocate {b : Arena α} (widened : Widened a b) (x : α) : Widened a (b.allocate x)

namespace Widened

theorem kept (widened : Widened a b) (kept : a.Kept) : b.Kept := by
  induction widened with
  | refl => exact kept
  | modify _ h f ih => exact ih.modify h f
  | allocate _ x ih => exact ih.allocate x

/-- Slots are added only once all are in use. -/
theorem size_eq (widened : Widened a b) (kept : a.Kept) :
    b.slots.size = max a.slots.size b.len := by
  induction widened with
  | refl =>
    rw [kept.size_eq]
    omega
  | modify _ h f ih => rw [size_modify, len_modify, ih]
  | @allocate b widened x ih =>
    have counted := (widened.kept kept).size_eq
    rw [size_allocate, len_allocate]
    cases free : b.free with
    | nil =>
      rw [freeCount, free, List.length_nil] at counted
      rw [if_pos rfl]
      omega
    | cons j rest =>
      rw [freeCount, free, List.length_cons] at counted
      rw [if_neg (List.cons_ne_nil j rest)]
      omega

theorem generationAt_eq (widened : Widened a b) (i : Nat) :
    b.generationAt i = a.generationAt i := by
  induction widened with
  | refl => rfl
  | modify _ h f ih => rw [generationAt_modify, ih]
  | allocate _ x ih => rw [generationAt_allocate, ih]

theorem contains (widened : Widened a b) (kept : a.Kept) (live : a.contains h = true) :
    b.contains h = true := by
  induction widened with
  | refl => exact live
  | modify _ k f ih => rwa [contains_modify]
  | allocate widened x ih => exact (widened.kept kept).tidy.contains_allocate ih x

end Widened

/-! ## Wear -/

/-- `b` comes from `a` by changes of items and by freeing. -/
inductive Worn (a : Arena α) : Arena α → Prop where
  | refl : Worn a a
  | modify {b : Arena α} (worn : Worn a b) (h : Handle) (f : α → α) : Worn a (b.modify h f)
  | erase {b : Arena α} (worn : Worn a b) (h : Handle) : Worn a (b.erase h)

namespace Worn

theorem kept (worn : Worn a b) (kept : a.Kept) : b.Kept := by
  induction worn with
  | refl => exact kept
  | modify _ h f ih => exact ih.modify h f
  | erase _ h ih => exact ih.erase h

theorem owner_eq (worn : Worn a b) : b.owner = a.owner := by
  induction worn with
  | refl => rfl
  | modify _ h f ih => rw [owner_modify, ih]
  | erase _ h ih => rw [owner_erase, ih]

theorem size_eq (worn : Worn a b) : b.slots.size = a.slots.size := by
  induction worn with
  | refl => rfl
  | modify _ h f ih => rw [size_modify, ih]
  | erase _ h ih => rw [size_erase, ih]

/-- A slot is as it was, or has been emptied once. -/
theorem slot_cases (worn : Worn a b) (i : Nat) :
    (b.generationAt i = a.generationAt i ∧ b.occupiedAt i = a.occupiedAt i) ∨
      (a.occupiedAt i = true ∧ b.generationAt i = a.generationAt i + 1 ∧
        b.occupiedAt i = false) := by
  induction worn with
  | refl => exact .inl ⟨rfl, rfl⟩
  | modify _ h f ih => rwa [generationAt_modify, occupiedAt_modify]
  | @erase b _ h ih =>
    rw [generationAt_erase, occupiedAt_erase]
    by_cases here : b.contains h = true ∧ h.index = i
    · obtain ⟨live, rfl⟩ := here
      have full := (contains_iff_handleAt.mp live).2
      rcases ih with ⟨generation, occupied⟩ | ⟨-, -, vacant⟩
      · right
        rw [if_pos ⟨live, rfl⟩, if_pos ⟨live, rfl⟩, ← occupied, generation]
        exact ⟨full, rfl, rfl⟩
      · rw [full] at vacant
        cases vacant
    · rwa [if_neg here, if_neg here]

end Worn

/-! ## Ageing -/

/-- A generation is met again once it has been raised a multiple of `2 ^ 32` times. -/
theorem dvd_of_generation_eq {g : UInt32} {n : Nat} (same : g + UInt32.ofNat n = g) :
    2 ^ 32 ∣ n := by
  have equal := congrArg UInt32.toNat same
  rw [UInt32.toNat_add, UInt32.toNat_ofNat'] at equal
  have := g.toNat_lt
  omega

/-- Slot `i` lost what it held from `a` to `b`. -/
def lostAt (a b : Arena α) (i : Nat) : Bool := a.occupiedAt i && !b.contains (a.handleAt i)

theorem lostAt_of_contains (live : a.contains h = true) (dead : ¬b.contains h = true) :
    a.lostAt b h.index = true := by
  obtain ⟨current, occupied⟩ := contains_iff_handleAt.mp live
  rw [lostAt, occupied, ← current]
  simpa using dead

/-- Every slot that lost its item is one generation older, and all others are as old as before. -/
def Ages (a b : Arena α) : Prop :=
  ∀ i, b.generationAt i = a.generationAt i + if a.lostAt b i then 1 else 0

theorem Worn.ages (worn : Worn a b) : a.Ages b := by
  intro i
  rcases worn.slot_cases i with ⟨generation, occupied⟩ | ⟨occupied, generation, vacant⟩
  · have same : a.handleAt i = b.handleAt i := by
      rw [handleAt, handleAt, worn.owner_eq, generation]
    have held : a.lostAt b i = false := by
      rw [lostAt, same, contains_handleAt, occupied]
      simp
    simp [held, generation]
  · have gone : ¬b.contains (a.handleAt i) = true := by
      intro live
      have full := (contains_iff_handleAt.mp live).2
      rw [handleAt, vacant] at full
      cases full
    have lost : a.lostAt b i = true := by simp [lostAt, occupied, gone]
    simp [lost, generation]

/-- After a clear the first allocation issues a handle that was not live before. -/
theorem not_contains_allocate_clear (live : a.contains h = true) (x : α) :
    ¬(a.clear.allocate x).contains h = true := by
  intro again
  have current := generationAt_of_contains again
  rw [generationAt_allocate, generationAt_clear, if_pos (contains_iff_handleAt.mp live).2,
    generationAt_of_contains live] at current
  simp at current

theorem ages_allocate_clear (a : Arena α) (x : α) : a.Ages (a.clear.allocate x) := by
  intro i
  rw [generationAt_allocate, generationAt_clear]
  cases occupied : a.occupiedAt i with
  | false => simp [lostAt, occupied]
  | true =>
    have gone := not_contains_allocate_clear (contains_handleAt.trans occupied) x
    have lost : a.lostAt (a.clear.allocate x) i = true := by simp [lostAt, occupied, gone]
    simp [lost]

theorem ages_clear (a : Arena α) : a.Ages a.clear := by
  intro i
  have gone : ¬a.clear.contains (a.handleAt i) = true := by simp [contains]
  rw [generationAt_clear, lostAt]
  cases a.occupiedAt i <;> simp [gone]

end PolicyTree.Arena
