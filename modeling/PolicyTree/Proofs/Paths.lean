import PolicyTree.FileEntry

/-! Paths as keys: values that compare by their segments, the shorter of two first if it begins the
longer. -/

namespace PolicyTree

/-- Values that are paths. They compare as their lists of segments do. -/
class PathLike (α : Type) (κ : outParam Type) [Ord α] [Ord κ] where
  route : α → List κ
  compare_eq (x y : α) : compare x y = compare (route x) (route y)

instance : PathLike FileEntry String where
  route := FileEntry.components
  compare_eq _ _ := rfl

instance {κ : Type} [Ord κ] : PathLike (List κ) κ where
  route := id
  compare_eq _ _ := rfl

namespace PathLike

variable {α κ : Type} [Ord α] [Ord κ] [PathLike α κ] {base : List κ} {x y z : α}

/-- The route of `x` goes one segment beyond `base`. -/
def Extends (base : List κ) (x : α) : Prop := ∃ c, route x = base ++ [c]

/-- Paths are compared consistently if their segments are. -/
theorem transOrd [Std.TransOrd κ] : Std.TransOrd α where
  eq_swap {x y} := by
    rw [compare_eq x y, compare_eq y x]
    exact Std.OrientedOrd.eq_swap
  isLE_trans {x y z} first second := by
    rw [compare_eq x y] at first
    rw [compare_eq y z] at second
    rw [compare_eq x z]
    exact Std.TransCmp.isLE_trans first second

theorem compare_eq_iff [Std.LawfulEqOrd κ] : compare x y = .eq ↔ route x = route y := by
  rw [compare_eq x y]
  exact Std.LawfulEqCmp.compare_eq_iff_eq

variable [Std.TransOrd κ]

theorem compare_append_left (base l m : List κ) :
    compare (base ++ l) (base ++ m) = compare l m := by
  induction base with
  | nil => rfl
  | cons b base ih =>
    rw [List.cons_append, List.cons_append, List.compare_cons_cons, Std.ReflOrd.compare_self]
    exact ih

/-- A path comes before the paths that go on from it. -/
theorem lt_of_beyond {c : κ} {tail : List κ} (beyond : route y = route x ++ c :: tail) :
    compare x y = .lt := by
  have start := compare_append_left (route x) [] (c :: tail)
  rw [List.append_nil] at start
  rw [compare_eq x y, beyond, start]
  rfl

/-- What goes on from a path comes before the later paths of the same length. -/
theorem lt_of_beyond_sibling (before : Extends base x) (after : Extends base y)
    (less : compare x y = .lt) {tail : List κ} (beyond : route z = route x ++ tail) :
    compare z y = .lt := by
  obtain ⟨c, here⟩ := before
  obtain ⟨d, there⟩ := after
  rw [compare_eq x y, here, there, compare_append_left, List.compare_cons_cons] at less
  rw [compare_eq z y, beyond, here, there, List.append_assoc, compare_append_left,
    List.singleton_append, List.compare_cons_cons]
  cases first : compare c d with
  | lt => rfl
  | eq =>
    rw [first] at less
    cases less
  | gt =>
    rw [first] at less
    cases less

end PathLike

end PolicyTree
