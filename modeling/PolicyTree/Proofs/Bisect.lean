import Mathlib.Data.List.InsertIdx
import PolicyTree.Policy

/-! Binary search in a list along which the probe rises. -/

namespace PolicyTree

variable {α : Type} {probe : α → Ordering} {xs : List α}

/-- The probe finds entries too small, then right, then too great. -/
def Rising (probe : α → Ordering) (xs : List α) : Prop :=
  xs.Pairwise fun x y => (probe x = .gt → probe y = .gt) ∧ (probe y = .lt → probe x = .lt)

theorem probeAt_of_length_le {i : Nat} (outside : xs.length ≤ i) : probeAt probe xs i = .gt := by
  simp [probeAt, List.getElem?_eq_none outside]

/-- Past the end the list goes on with entries that are too great. -/
theorem Rising.probeAt_step (rising : Rising probe xs) {i j : Nat} (le : i ≤ j) :
    (probeAt probe xs i = .gt → probeAt probe xs j = .gt) ∧
      (probeAt probe xs j = .lt → probeAt probe xs i = .lt) := by
  rcases Nat.eq_or_lt_of_le le with rfl | lt
  · exact ⟨id, id⟩
  · by_cases inside : j < xs.length
    · rw [probeAt_eq (List.getElem?_eq_getElem (Nat.lt_trans lt inside)),
        probeAt_eq (List.getElem?_eq_getElem inside)]
      exact List.pairwise_iff_getElem.mp rising i j _ inside lt
    · rw [probeAt_of_length_le (Nat.le_of_not_lt inside)]
      exact ⟨fun _ => rfl, nofun⟩

/-- Narrowing ends on the last position that is not too great, or where it started. -/
theorem narrow_last {probe : Nat → Ordering}
    (rising : ∀ i j, i ≤ j → probe i = .gt → probe j = .gt) (base size : Nat) (pos : 0 < size)
    (outside : ∀ j, base + size ≤ j → probe j = .gt) :
    (narrow probe base size = base ∨ probe (narrow probe base size) ≠ .gt) ∧
      ∀ j, narrow probe base size < j → probe j = .gt := by
  -- `base` stays where it started until it moves to an entry that is not too great.
  fun_induction narrow probe base size with
  | case1 base size small => exact ⟨.inl rfl, fun j after => outside j (by omega)⟩
  | case2 base size large middle ih =>
    by_cases great : probe middle = .gt
    · rw [dif_pos great] at ih
      rw [if_pos great]
      exact ih (by omega) fun j after => rising middle j (by omega) great
    · rw [dif_neg great] at ih
      rw [if_neg great]
      obtain ⟨last, rest⟩ := ih (by omega) fun j after => outside j (by omega)
      exact ⟨.inr (last.elim (fun e => by rwa [e]) id), rest⟩

theorem getElem?_of_bisect_eq_hit {i : Nat} (hit : bisect probe xs = .hit i) :
    ∃ x, xs[i]? = some x ∧ probe x = .eq := by
  unfold bisect at hit
  split at hit
  · cases hit
  · generalize narrow (probeAt probe xs) 0 xs.length = k at hit
    have right : k = i ∧ probeAt probe xs i = .eq := by
      cases here : probeAt probe xs k <;> simp_all
    have entry := right.2
    unfold probeAt at entry
    cases found : xs[i]? with
    | none => simp [found] at entry
    | some x => exact ⟨x, rfl, by simpa [found] using entry⟩

/-- A gap parts the entries that are too small from those that are too great. -/
theorem Rising.of_bisect_eq_gap (rising : Rising probe xs) {i : Nat}
    (gap : bisect probe xs = .gap i) {j : Nat} {x : α} (entry : xs[j]? = some x) :
    (j < i → probe x = .lt) ∧ (i ≤ j → probe x = .gt) := by
  have inside := (List.getElem?_eq_some_iff.mp entry).1
  unfold bisect at gap
  rw [if_neg (by simp only [List.isEmpty_iff]; rintro rfl; simp at inside)] at gap
  obtain ⟨stop, rest⟩ := narrow_last
    (fun i j le => (rising.probeAt_step le).1) 0 xs.length (by omega)
    (fun j outside => probeAt_of_length_le (by omega))
  rw [← (probeAt_eq entry : probeAt probe xs j = probe x)]
  generalize narrow (probeAt probe xs) 0 xs.length = k at gap stop rest
  cases here : probeAt probe xs k with
  | lt =>
    obtain rfl : k + 1 = i := by simpa [here] using gap
    exact ⟨fun before => (rising.probeAt_step (by omega)).2 here, fun after => rest j (by omega)⟩
  | eq => simp [here] at gap
  | gt =>
    obtain rfl : k = i := by simpa [here] using gap
    obtain rfl : k = 0 := stop.resolve_right (fun notGreat => notGreat here)
    exact ⟨fun before => absurd before (Nat.not_lt_zero j),
      fun _ => (rising.probeAt_step (Nat.zero_le j)).1 here⟩

/-! ## Keys in order -/

/-- Strictly increasing under `cmp`. -/
def Ascending (cmp : α → α → Ordering) (xs : List α) : Prop := xs.Pairwise fun x y => cmp x y = .lt

variable {cmp : α → α → Ordering} [Std.TransCmp cmp] {x : α} {i : Nat}

theorem Ascending.rising (asc : Ascending cmp xs) (x : α) : Rising (cmp · x) xs := by
  apply List.Pairwise.imp _ asc
  intro y z less
  refine ⟨fun great => ?_, fun small => ?_⟩
  · exact Std.TransCmp.gt_trans (Std.OrientedCmp.gt_of_lt less) great
  · exact Std.TransCmp.lt_trans less small

omit [Std.TransCmp cmp] in
theorem Ascending.lt_of_lt (asc : Ascending cmp xs) {j : Nat} {y : α} (lt : i < j)
    (first : xs[i]? = some x) (second : xs[j]? = some y) : cmp x y = .lt := by
  obtain ⟨hi, rfl⟩ := List.getElem?_eq_some_iff.mp first
  obtain ⟨hj, rfl⟩ := List.getElem?_eq_some_iff.mp second
  exact List.pairwise_iff_getElem.mp asc i j hi hj lt

/-- Entries at different places have different keys. -/
theorem Ascending.ne_eq (asc : Ascending cmp xs) {j : Nat} {y : α} (other : i ≠ j)
    (first : xs[i]? = some x) (second : xs[j]? = some y) : cmp x y ≠ .eq := by
  rcases Nat.lt_or_gt_of_ne other with lt | gt
  · rw [asc.lt_of_lt lt first second]
    decide
  · rw [Std.OrientedCmp.gt_of_lt (asc.lt_of_lt gt second first)]
    decide

theorem Ascending.of_keyedPlace_eq_before (asc : Ascending cmp xs)
    (place : Policy.keyedPlace cmp xs x = .before i) {j : Nat} {y : α} (entry : xs[j]? = some y) :
    (j < i → cmp y x = .lt) ∧ (i ≤ j → cmp x y = .lt) := by
  have gap : bisect (cmp · x) xs = .gap i := by
    unfold Policy.keyedPlace at place
    split at place <;> simp_all
  exact ((asc.rising x).of_bisect_eq_gap gap entry).imp_right
    fun great after => Std.OrientedCmp.lt_of_gt (great after)

omit [Std.TransCmp cmp] in
theorem keyedPlace_before_le (place : Policy.keyedPlace cmp xs x = .before i) : i ≤ xs.length := by
  have bound := bisect_index_le (cmp · x) xs
  unfold Policy.keyedPlace at place
  split at place <;> simp_all [Landing.index]

omit [Std.TransCmp cmp] in
theorem getElem?_of_keyedPlace_eq_taken (place : Policy.keyedPlace cmp xs x = .taken i) :
    ∃ y, xs[i]? = some y ∧ cmp y x = .eq := by
  apply getElem?_of_bisect_eq_hit
  unfold Policy.keyedPlace at place
  split at place <;> simp_all

/-- A new value put where it is placed keeps the list in order. -/
theorem Ascending.insertIdx (asc : Ascending cmp xs)
    (place : Policy.keyedPlace cmp xs x = .before i) : Ascending cmp (xs.insertIdx i x) := by
  obtain ⟨front, back, rfl, rfl, grown⟩ :=
    List.exists_of_modifyTailIdx (List.cons x) (keyedPlace_before_le place)
  obtain ⟨ascFront, ascBack, across⟩ := List.pairwise_append.mp asc
  have before : ∀ y ∈ front, cmp y x = .lt := by
    intro y mem
    obtain ⟨j, entry⟩ := List.mem_iff_getElem?.mp mem
    have inside := (List.getElem?_eq_some_iff.mp entry).1
    refine (asc.of_keyedPlace_eq_before place (j := j) ?_).1 inside
    rw [List.getElem?_append_left inside, entry]
  have after : ∀ y ∈ back, cmp x y = .lt := by
    intro y mem
    obtain ⟨j, entry⟩ := List.mem_iff_getElem?.mp mem
    refine (asc.of_keyedPlace_eq_before place (j := front.length + j) ?_).2 (by omega)
    rw [List.getElem?_append_right (by omega), Nat.add_sub_cancel_left, entry]
  rw [Ascending, List.insertIdx, grown, List.pairwise_append]
  refine ⟨ascFront, List.pairwise_cons.mpr ⟨after, ascBack⟩, fun y mem z later => ?_⟩
  rcases List.mem_cons.mp later with rfl | later
  · exact before y mem
  · exact across y mem z later

omit [Std.TransCmp cmp] in
/-- Where a value stands among keys in order, it parts those below it from those above it. -/
theorem Ascending.parts (put : Ascending cmp (xs.insertIdx i x)) (fits : i ≤ xs.length) {j : Nat}
    {y : α} (entry : xs[j]? = some y) : (j < i → cmp y x = .lt) ∧ (i ≤ j → cmp x y = .lt) := by
  have here : (xs.insertIdx i x)[i]? = some x := by
    rw [List.getElem?_insertIdx_self, if_pos fits]
  constructor
  · intro before
    exact put.lt_of_lt before (by rw [List.getElem?_insertIdx_of_lt before, entry]) here
  · intro after
    refine put.lt_of_lt (Nat.lt_succ_of_le after) here ?_
    rwa [List.getElem?_insertIdx_of_gt (Nat.lt_succ_of_le after)]

/-- A list in order has one place at most for a value. -/
theorem Ascending.insertIdx_unique {j : Nat} (first : Ascending cmp (xs.insertIdx i x))
    (second : Ascending cmp (xs.insertIdx j x)) (hi : i ≤ xs.length) (hj : j ≤ xs.length) :
    i = j := by
  have apart : ∀ {i j : Nat}, i < j → i ≤ xs.length → j ≤ xs.length →
      Ascending cmp (xs.insertIdx i x) → ¬Ascending cmp (xs.insertIdx j x) := by
    intro i j lt hi hj first second
    -- The entry at the earlier place is above the value in one list and below it in the other.
    have entry : xs[i]? = some xs[i] := List.getElem?_eq_getElem (Nat.lt_of_lt_of_le lt hj)
    have above := (first.parts hi entry).2 (Nat.le_refl i)
    rw [Std.OrientedCmp.gt_of_lt ((second.parts hj entry).1 lt)] at above
    cases above
  rcases Nat.lt_trichotomy i j with lt | same | gt
  · exact absurd second (apart lt hi hj first)
  · exact same
  · exact absurd first (apart gt hj hi second)

/-- An entry may give way to a value with the same key. -/
theorem Ascending.set (asc : Ascending cmp xs) {y : α} (entry : xs[i]? = some y)
    (same : cmp y x = .eq) : Ascending cmp (xs.set i x) := by
  obtain ⟨inside, rfl⟩ := List.getElem?_eq_some_iff.mp entry
  apply List.pairwise_iff_getElem.mpr
  intro j k hj hk lt
  rw [List.length_set] at hj hk
  have less := List.pairwise_iff_getElem.mp asc j k hj hk lt
  rw [List.getElem_set, List.getElem_set]
  split
  case isTrue here =>
    subst here
    rw [if_neg (Nat.ne_of_lt lt)]
    exact Std.TransCmp.lt_of_eq_of_lt (Std.OrientedCmp.eq_symm same) less
  case isFalse =>
    split
    case isTrue here =>
      subst here
      exact Std.TransCmp.lt_of_lt_of_eq less same
    case isFalse => exact less

/-! ## Partition points -/

/-- In a list that satisfies `p` up to some entry, the partition point parts the entries that do
from those that do not. -/
theorem lt_partitionPoint_iff {p : α → Bool}
    (falls : xs.Pairwise fun x y => p y = true → p x = true) {j : Nat} {y : α}
    (entry : xs[j]? = some y) : j < partitionPoint p xs ↔ p y = true := by
  have rising : Rising (fun x => if p x then Ordering.lt else Ordering.gt) xs :=
    falls.imp fun {x y} falls => by
      cases hx : p x <;> cases hy : p y <;> simp_all
  unfold partitionPoint
  cases landing : bisect (fun x => if p x then Ordering.lt else Ordering.gt) xs with
  | hit i =>
    obtain ⟨z, -, equal⟩ := getElem?_of_bisect_eq_hit landing
    split at equal <;> cases equal
  | gap i =>
    obtain ⟨small, great⟩ := rising.of_bisect_eq_gap landing entry
    constructor
    · intro before
      simpa using small before
    · intro sat
      apply Decidable.by_contra
      intro after
      simpa [sat] using great (Nat.le_of_not_lt after)

/-- The partition point is the one index that parts the entries that satisfy `p` from the others. -/
theorem partitionPoint_eq {p : α → Bool} {k : Nat} (fits : k ≤ xs.length)
    (parts : ∀ (j : Nat) y, xs[j]? = some y → (j < k ↔ p y = true)) : partitionPoint p xs = k := by
  have falls : xs.Pairwise fun x y => p y = true → p x = true := by
    refine List.pairwise_iff_getElem.mpr fun i j hi hj lt sat => ?_
    have early := (parts j _ (List.getElem?_eq_getElem hj)).mpr sat
    exact (parts i _ (List.getElem?_eq_getElem hi)).mp (Nat.lt_trans lt early)
  have inside : partitionPoint p xs ≤ xs.length := bisect_index_le ..
  rcases Nat.lt_trichotomy (partitionPoint p xs) k with lt | same | gt
  · have entry := List.getElem?_eq_getElem (Nat.lt_of_lt_of_le lt fits)
    exact absurd ((lt_partitionPoint_iff falls entry).mpr ((parts _ _ entry).mp lt))
      (Nat.lt_irrefl _)
  · exact same
  · have entry := List.getElem?_eq_getElem (Nat.lt_of_lt_of_le gt inside)
    exact absurd ((parts _ _ entry).mpr ((lt_partitionPoint_iff falls entry).mp gt))
      (Nat.lt_irrefl _)

end PolicyTree
