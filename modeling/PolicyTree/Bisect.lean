/-! Binary search in a list whose entries a probe finds too small, right or too great. -/

namespace PolicyTree

/-- Where a search ends: on an entry, or in the gap before an index. -/
inductive Landing where
  | hit (index : Nat)
  | gap (index : Nat)
deriving DecidableEq

namespace Landing

def index : Landing → Nat
  | hit i => i
  | gap i => i

end Landing

variable {α : Type}

/-- A position past the end counts as too great. -/
def probeAt (probe : α → Ordering) (xs : List α) (i : Nat) : Ordering :=
  (xs[i]?.map probe).getD .gt

theorem probeAt_eq {probe : α → Ordering} {xs : List α} {i : Nat} {x : α} (h : xs[i]? = some x) :
    probeAt probe xs i = probe x := by
  simp [probeAt, h]

/-- Halves `size` positions from `base`, keeping the upper half unless its first entry is too
great. -/
def narrow (probe : Nat → Ordering) (base size : Nat) : Nat :=
  if size ≤ 1 then base
  else
    let middle := base + size / 2
    narrow probe (if probe middle = .gt then base else middle) (size - size / 2)
termination_by size

def bisect (probe : α → Ordering) (xs : List α) : Landing :=
  if xs.isEmpty then .gap 0
  else
    let i := narrow (probeAt probe xs) 0 xs.length
    match probeAt probe xs i with
    | .eq => .hit i
    | .lt => .gap (i + 1)
    | .gt => .gap i

/-- The number of leading entries that satisfy `p`, in a list where no other entry does. -/
def partitionPoint (p : α → Bool) (xs : List α) : Nat :=
  (bisect (fun x => if p x then .lt else .gt) xs).index

/-! ## Position of the result -/

theorem narrow_bounds (probe : Nat → Ordering) (base size : Nat) (h : 0 < size) :
    base ≤ narrow probe base size ∧ narrow probe base size < base + size := by
  fun_induction narrow probe base size with
  | case1 base size small => omega
  | case2 base size large middle ih =>
    have := ih (by omega)
    split at this <;> simp_all <;> omega

@[simp] theorem bisect_nil (probe : α → Ordering) : bisect probe [] = .gap 0 := rfl

theorem bisect_index_le (probe : α → Ordering) (xs : List α) :
    (bisect probe xs).index ≤ xs.length := by
  cases xs with
  | nil => simp [Landing.index]
  | cons x xs =>
    have := narrow_bounds (probeAt probe (x :: xs)) 0 (x :: xs).length (by simp)
    simp only [bisect, List.isEmpty_cons]
    simp only [Bool.false_eq_true, if_false]
    split <;> simp only [Landing.index] <;> omega

end PolicyTree
