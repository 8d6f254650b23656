import PolicyTree.Proofs.Bisect

/-! Where a value belongs among keys in order, on which the three searches by key agree. -/

namespace PolicyTree

open Policy

variable {α : Type} {cmp : α → α → Ordering} {xs : List α} {x : α} {i j : Nat}

/-! ## Where a value belongs -/

/-- The entry at an index has the key of `x`. -/
def KeyAt (cmp : α → α → Ordering) (xs : List α) (x : α) (i : Nat) : Prop :=
  ∃ y, xs[i]? = some y ∧ cmp y x = .eq

/-- Put in before an index, or at the end, `x` keeps the list strictly increasing. -/
def GapAt (cmp : α → α → Ordering) (xs : List α) (x : α) (i : Nat) : Prop :=
  i ≤ xs.length ∧ Ascending cmp (xs.insertIdx i x)

/-- The greatest of the entries below `x` stands at an index. -/
def FloorAt (cmp : α → α → Ordering) (xs : List α) (x : α) (i : Nat) : Prop :=
  ∃ y, xs[i]? = some y ∧ cmp y x = .lt ∧ ∀ z ∈ xs, cmp z x = .lt → cmp z y ≠ .gt

theorem KeyAt.exists_mem (key : KeyAt cmp xs x i) : ∃ y ∈ xs, cmp y x = .eq := by
  obtain ⟨y, entry, same⟩ := key
  exact ⟨y, List.mem_of_getElem? entry, same⟩

theorem GapAt.parts (gap : GapAt cmp xs x i) {y : α} (entry : xs[j]? = some y) :
    (j < i → cmp y x = .lt) ∧ (i ≤ j → cmp x y = .lt) :=
  gap.2.parts gap.1 entry

theorem GapAt.exists_before (gap : GapAt cmp xs x (i + 1)) :
    ∃ y, xs[i]? = some y ∧ cmp y x = .lt := by
  have inside : i < xs.length := gap.1
  have entry : xs[i]? = some xs[i] := List.getElem?_eq_getElem inside
  exact ⟨xs[i], entry, (gap.parts entry).1 (Nat.lt_succ_self i)⟩

variable [Std.TransCmp cmp]

theorem GapAt.above (gap : GapAt cmp xs x i) {y : α} (entry : xs[j]? = some y) (after : i ≤ j) :
    cmp y x = .gt :=
  Std.OrientedCmp.gt_of_lt ((gap.parts entry).2 after)

theorem GapAt.lt_iff (gap : GapAt cmp xs x i) {y : α} (entry : xs[j]? = some y) :
    cmp y x = .lt ↔ j < i := by
  refine ⟨fun below => ?_, (gap.parts entry).1⟩
  by_contra after
  rw [gap.above entry (Nat.le_of_not_lt after)] at below
  cases below

/-- Where a value has a gap, no entry has its key. -/
theorem GapAt.not_keyAt (gap : GapAt cmp xs x i) : ¬KeyAt cmp xs x j := by
  rintro ⟨y, entry, same⟩
  rcases Nat.lt_or_ge j i with before | after
  · rw [(gap.parts entry).1 before] at same
    cases same
  · rw [gap.above entry after] at same
    cases same

/-- The gap stands first where all entries are above. -/
theorem GapAt.eq_zero_iff (gap : GapAt cmp xs x i) : i = 0 ↔ ∀ y ∈ xs, cmp y x = .gt := by
  constructor
  · rintro rfl y mem
    obtain ⟨j, entry⟩ := List.mem_iff_getElem?.mp mem
    exact gap.above entry (Nat.zero_le j)
  · intro above
    by_contra later
    have inside : 0 < xs.length := Nat.lt_of_lt_of_le (Nat.pos_of_ne_zero later) gap.1
    have first := above xs[0] (List.getElem_mem inside)
    rw [(gap.lt_iff (List.getElem?_eq_getElem inside)).mpr (Nat.pos_of_ne_zero later)] at first
    cases first

theorem Ascending.keyAt_unique (asc : Ascending cmp xs) (first : KeyAt cmp xs x i)
    (second : KeyAt cmp xs x j) : i = j := by
  obtain ⟨y, entry, same⟩ := first
  obtain ⟨z, other, equal⟩ := second
  by_contra apart
  exact asc.ne_eq apart entry other (Std.TransCmp.eq_trans same (Std.OrientedCmp.eq_symm equal))

/-- The floor is the entry right before the gap. -/
theorem Ascending.floorAt_iff (asc : Ascending cmp xs) (gap : GapAt cmp xs x (i + 1)) :
    FloorAt cmp xs x j ↔ j = i := by
  obtain ⟨last, here, below⟩ := gap.exists_before
  constructor
  · rintro ⟨y, entry, less, greatest⟩
    have before := (gap.lt_iff entry).mp less
    by_contra other
    have early : j < i := by omega
    exact greatest last (List.mem_of_getElem? here) below
      (Std.OrientedCmp.gt_of_lt (asc.lt_of_lt early entry here))
  · rintro rfl
    refine ⟨last, here, below, fun z mem less => ?_⟩
    obtain ⟨k, entry⟩ := List.mem_iff_getElem?.mp mem
    rcases Nat.lt_succ_iff_lt_or_eq.mp ((gap.lt_iff entry).mp less) with early | rfl
    · rw [asc.lt_of_lt early entry here]
      decide
    · obtain rfl : last = z := Option.some.inj (here.symm.trans entry)
      have same : cmp last last = .eq := Std.ReflCmp.compare_self
      rw [same]
      decide

/-! ## Where the searches land -/

/-- A search by halves meets its contract, which leaves it no choice: it hits the entry with the
key, and where there is none it ends in the gap. -/
theorem Ascending.bisect_eq_iff (asc : Ascending cmp xs) :
    (bisect (cmp · x) xs = .hit i ↔ KeyAt cmp xs x i) ∧
      (bisect (cmp · x) xs = .gap i ↔ GapAt cmp xs x i) := by
  have hits : ∀ {k}, bisect (cmp · x) xs = .hit k → KeyAt cmp xs x k :=
    getElem?_of_bisect_eq_hit
  have gaps : ∀ {k}, bisect (cmp · x) xs = .gap k → GapAt cmp xs x k := by
    intro k landing
    have place : keyedPlace cmp xs x = .before k := by rw [keyedPlace, landing]
    exact ⟨keyedPlace_before_le place, asc.insertIdx place⟩
  refine ⟨⟨hits, fun key => ?_⟩, ⟨gaps, fun gap => ?_⟩⟩
  · cases landing : bisect (cmp · x) xs with
    | hit k => rw [asc.keyAt_unique (hits landing) key]
    | gap k => exact absurd key (gaps landing).not_keyAt
  · cases landing : bisect (cmp · x) xs with
    | hit k => exact absurd (hits landing) gap.not_keyAt
    | gap k => rw [(gaps landing).2.insertIdx_unique gap.2 (gaps landing).1 gap.1]

/-! ## Places -/

theorem Ascending.keyedPlace_eq_taken_iff (asc : Ascending cmp xs) :
    keyedPlace cmp xs x = .taken i ↔ KeyAt cmp xs x i := by
  rw [← asc.bisect_eq_iff.1, keyedPlace]
  cases bisect (cmp · x) xs <;> simp

theorem Ascending.keyedPlace_eq_before_iff (asc : Ascending cmp xs) :
    keyedPlace cmp xs x = .before i ↔ GapAt cmp xs x i := by
  rw [← asc.bisect_eq_iff.2, keyedPlace]
  cases bisect (cmp · x) xs <;> simp

/-- A value is refused if an entry has its key. -/
theorem Ascending.keyedPlace_taken_iff (asc : Ascending cmp xs) :
    (∃ i, keyedPlace cmp xs x = .taken i) ↔ ∃ y ∈ xs, cmp y x = .eq := by
  constructor
  · rintro ⟨i, place⟩
    exact (asc.keyedPlace_eq_taken_iff.mp place).exists_mem
  · rintro ⟨y, mem, same⟩
    obtain ⟨j, entry⟩ := List.mem_iff_getElem?.mp mem
    exact ⟨j, asc.keyedPlace_eq_taken_iff.mpr ⟨y, entry, same⟩⟩

/-- A value that takes the place of an entry with its key is placed where that entry was. -/
theorem Ascending.keyedPlace_eraseIdx (asc : Ascending cmp xs) {y : α} (entry : xs[i]? = some y)
    (same : cmp y x = .eq) : keyedPlace cmp (xs.eraseIdx i) x = .before i := by
  have inside := (List.getElem?_eq_some_iff.mp entry).1
  have fewer : Ascending cmp (xs.eraseIdx i) := List.Pairwise.sublist (List.eraseIdx_sublist ..) asc
  have short : (xs.eraseIdx i).length = xs.length - 1 := List.length_eraseIdx_of_lt inside
  refine fewer.keyedPlace_eq_before_iff.mpr ⟨by omega, ?_⟩
  rw [List.insertIdx_eraseIdx_self (by omega)]
  exact asc.set entry same

/-- A value is placed last if the list is in order with the value at its end. -/
theorem Ascending.keyedPlace_eq_last_iff (asc : Ascending cmp xs) :
    keyedPlace cmp xs x = .before xs.length ↔ Ascending cmp (xs ++ [x]) := by
  rw [asc.keyedPlace_eq_before_iff, GapAt, List.insertIdx_length_self,
    and_iff_right (Nat.le_refl _)]

/-! ## Descents -/

theorem Ascending.keyedDescend_of_keyAt (asc : Ascending cmp xs) (key : KeyAt cmp xs x i) :
    keyedDescend cmp xs x = .found i := by
  obtain ⟨y, entry, same⟩ := key
  have inside := (List.getElem?_eq_some_iff.mp entry).1
  have split : partitionPoint (cmp · x != .gt) xs = i + 1 := by
    refine partitionPoint_eq inside fun j z other => ?_
    rw [bne_iff_ne]
    rcases Nat.lt_trichotomy j i with before | rfl | after
    · rw [Std.TransCmp.lt_of_lt_of_eq (asc.lt_of_lt before other entry) same]
      exact iff_of_true (Nat.lt_succ_of_lt before) (by decide)
    · obtain rfl : y = z := Option.some.inj (entry.symm.trans other)
      rw [same]
      exact iff_of_true (Nat.lt_succ_self j) (by decide)
    · have less := Std.TransCmp.lt_of_eq_of_lt (Std.OrientedCmp.eq_symm same)
        (asc.lt_of_lt after entry other)
      rw [Std.OrientedCmp.gt_of_lt less]
      exact iff_of_false (by omega) (not_not_intro rfl)
  rw [keyedDescend, split]
  simp [entry, same]

/-- A descent misses where the gap stands first, and else goes into the entry before it. -/
theorem GapAt.keyedDescend_eq (gap : GapAt cmp xs x i) :
    keyedDescend cmp xs x = if i = 0 then .miss else .into (i - 1) := by
  have split : partitionPoint (cmp · x != .gt) xs = i := by
    refine partitionPoint_eq gap.1 fun j y entry => ?_
    rw [bne_iff_ne]
    rcases Nat.lt_or_ge j i with before | after
    · rw [(gap.parts entry).1 before]
      exact iff_of_true before (by decide)
    · rw [gap.above entry after]
      exact iff_of_false (Nat.not_lt_of_le after) (not_not_intro rfl)
  rw [keyedDescend, split]
  cases i with
  | zero => rfl
  | succ i =>
    obtain ⟨y, entry, below⟩ := gap.exists_before
    simp [entry, below]

/-! ## Lookups in one list -/

/-- A lookup by key ends on the one entry with the key, or finds that there is none. -/
theorem Ascending.keyedSearch_cases (asc : Ascending cmp xs) (target : α) :
    (∃ i y, keyedSearch cmp xs target = .found i ∧ xs[i]? = some y ∧ cmp y target = .eq ∧
        ∀ (j : Nat) z, xs[j]? = some z → cmp z target = .eq → j = i) ∨
      keyedSearch cmp xs target = .each ∧ ∀ y ∈ xs, cmp y target ≠ .eq := by
  rw [keyedSearch]
  cases landing : bisect (cmp · target) xs with
  | hit i =>
    have key := asc.bisect_eq_iff.1.mp landing
    obtain ⟨y, entry, same⟩ := id key
    exact .inl ⟨i, y, rfl, entry, same,
      fun j z other equal => asc.keyAt_unique ⟨z, other, equal⟩ key⟩
  | gap i =>
    refine .inr ⟨rfl, fun y mem same => ?_⟩
    obtain ⟨j, entry⟩ := List.mem_iff_getElem?.mp mem
    exact (asc.bisect_eq_iff.2.mp landing).not_keyAt ⟨y, entry, same⟩

/-- A descent goes by the last entry not above the target: it is the target, or the only one that
can lead there. -/
theorem Ascending.keyedDescend_cases (asc : Ascending cmp xs) (target : α) :
    (keyedDescend cmp xs target = .miss ∧ ∀ y ∈ xs, cmp y target = .gt) ∨
      (∃ i y, keyedDescend cmp xs target = .found i ∧ xs[i]? = some y ∧ cmp y target = .eq) ∨
      ∃ i y, keyedDescend cmp xs target = .into i ∧ xs[i]? = some y ∧
        cmp y target = .lt ∧ ∀ (j : Nat) z, i < j → xs[j]? = some z → cmp z target = .gt := by
  cases landing : bisect (cmp · target) xs with
  | hit i =>
    have key := asc.bisect_eq_iff.1.mp landing
    obtain ⟨y, entry, same⟩ := id key
    exact .inr (.inl ⟨i, y, asc.keyedDescend_of_keyAt key, entry, same⟩)
  | gap i =>
    have gap := asc.bisect_eq_iff.2.mp landing
    rw [gap.keyedDescend_eq]
    cases i with
    | zero => exact .inl ⟨rfl, gap.eq_zero_iff.mp rfl⟩
    | succ i =>
      obtain ⟨y, entry, below⟩ := gap.exists_before
      exact .inr (.inr ⟨i, y, rfl, entry, below, fun j z after later => gap.above later after⟩)

/-! ## Main result -/

/-- The searches for `x` in a strictly increasing list. All find the entry with the key of `x` if
there is one. Otherwise `x` goes into its one gap, a search of each level goes on, and a descent
misses if all entries are above `x`, and goes into the greatest of those below if not. -/
theorem Ascending.searches_agree (asc : Ascending cmp xs) (x : α) :
    (∀ i, (keyedPlace cmp xs x = .taken i ↔ KeyAt cmp xs x i) ∧
        (keyedSearch cmp xs x = .found i ↔ KeyAt cmp xs x i) ∧
        (keyedDescend cmp xs x = .found i ↔ KeyAt cmp xs x i)) ∧
      ((∀ y ∈ xs, cmp y x ≠ .eq) →
        (∃ i, keyedPlace cmp xs x = .before i ∧ ∀ j, GapAt cmp xs x j ↔ j = i) ∧
        keyedSearch cmp xs x = .each ∧
        ((∀ y ∈ xs, cmp y x = .gt) → keyedDescend cmp xs x = .miss) ∧
        ((¬∀ y ∈ xs, cmp y x = .gt) →
          ∃ i, keyedDescend cmp xs x = .into i ∧ ∀ j, FloorAt cmp xs x j ↔ j = i)) := by
  have hit_iff : ∀ {k}, bisect (cmp · x) xs = .hit k ↔ KeyAt cmp xs x k := asc.bisect_eq_iff.1
  have gap_iff : ∀ {k}, bisect (cmp · x) xs = .gap k ↔ GapAt cmp xs x k := asc.bisect_eq_iff.2
  cases landing : bisect (cmp · x) xs with
  | hit k =>
    have key := hit_iff.mp landing
    refine ⟨fun i => ?_, fun absent => ?_⟩
    · rw [keyedPlace, keyedSearch, asc.keyedDescend_of_keyAt key, ← hit_iff, landing]
      simp
    · obtain ⟨y, mem, same⟩ := key.exists_mem
      exact absurd same (absent y mem)
  | gap k =>
    have gap := gap_iff.mp landing
    have descent := gap.keyedDescend_eq
    refine ⟨fun i => ?_, fun _ => ⟨⟨k, ?_, fun j => ?_⟩, ?_, fun above => ?_, fun someBelow => ?_⟩⟩
    · rw [keyedPlace, keyedSearch, descent, landing, iff_false_intro gap.not_keyAt]
      split_ifs <;> simp
    · rw [keyedPlace, landing]
    · rw [← gap_iff, landing, Landing.gap.injEq, eq_comm]
    · rw [keyedSearch, landing]
    · rw [descent, if_pos (gap.eq_zero_iff.mpr above)]
    · have later := mt gap.eq_zero_iff.mp someBelow
      obtain ⟨m, rfl⟩ := Nat.exists_eq_succ_of_ne_zero later
      rw [descent, if_neg later]
      exact ⟨m, rfl, fun j => asc.floorAt_iff gap⟩

/-- Numbers compared by their tens. -/
def byTens : Nat → Nat → Ordering := compareOn (· / 10)

instance : Std.TransCmp byTens := inferInstanceAs (Std.TransCmp (compareOn _))

/-- `25` has the key of `22`, and `47` that of no entry. -/
theorem searches_agree_sample :
    Ascending byTens [11, 22, 33] ∧ keyedPlace byTens [11, 22, 33] 25 = .taken 1 ∧
      (∀ y ∈ [11, 22, 33], byTens y 47 ≠ .eq) ∧ (¬∀ y ∈ [11, 22, 33], byTens y 47 = .gt) ∧
      keyedSearch byTens [11, 22, 33] 47 = .each ∧
      ∃ i, keyedDescend byTens [11, 22, 33] 47 = .into i ∧
        ∀ j, FloorAt byTens [11, 22, 33] 47 j ↔ j = i := by
  have asc : Ascending byTens [11, 22, 33] := by
    unfold Ascending
    decide
  have absent : ∀ y ∈ [11, 22, 33], byTens y 47 ≠ .eq := by decide
  have someBelow : ¬∀ y ∈ [11, 22, 33], byTens y 47 = .gt := by decide
  have taken := ((asc.searches_agree 25).1 1).1.mpr ⟨22, rfl, rfl⟩
  obtain ⟨-, each, -, floor⟩ := (asc.searches_agree 47).2 absent
  exact ⟨asc, taken, absent, someBelow, each, floor someBelow⟩

end PolicyTree
