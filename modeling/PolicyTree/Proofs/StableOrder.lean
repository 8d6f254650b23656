import Mathlib.Data.List.Nodup

/-! Lists put in ascending order, equal entries in the sequence that they had. -/

namespace PolicyTree

open scoped List

variable {α β : Type} {le : β → β → Prop} {xs ys zs : List β} {a b : β}

/-- `ys` has the entries of `xs` in ascending order, equal ones in the sequence that they have in
`xs`. -/
structure StablySorted (le : β → β → Prop) (xs ys : List β) : Prop where
  perm : ys ~ xs
  ascending : ys.Pairwise le
  stable : ∀ a b, [a, b] <+ xs → le a b → le b a → [a, b] <+ ys

/-- Two entries of a list stand in it in one sequence or the other. -/
theorem pair_sublist_or (first : a ∈ xs) (second : b ∈ xs) (apart : a ≠ b) :
    [a, b] <+ xs ∨ [b, a] <+ xs := by
  induction xs with
  | nil => cases first
  | cons x xs ih =>
    rcases List.mem_cons.mp first with rfl | firstLater
    · rcases List.mem_cons.mp second with rfl | secondLater
      · exact absurd rfl apart
      · exact .inl ((List.singleton_sublist.mpr secondLater).cons_cons _)
    · rcases List.mem_cons.mp second with rfl | secondLater
      · exact .inr ((List.singleton_sublist.mpr firstLater).cons_cons _)
      · exact (ih firstLater secondLater).imp (.cons x) (.cons x)

/-- Without duplicates the sequence of two entries is one only. -/
theorem not_pair_sublist_swap (nodup : xs.Nodup) (inOrder : [a, b] <+ xs) : ¬[b, a] <+ xs := by
  induction xs with
  | nil => cases inOrder
  | cons x xs ih =>
    obtain ⟨absent, distinct⟩ := List.nodup_cons.mp nodup
    intro swapped
    cases inOrder with
    | cons _ inOrder =>
      cases swapped with
      | cons _ swapped => exact ih distinct inOrder swapped
      | cons_cons _ swapped => exact absent (inOrder.subset (by simp))
    | cons_cons _ inOrder =>
      have later : b ∈ xs := List.singleton_sublist.mp inOrder
      cases swapped with
      | cons _ swapped => exact absent (swapped.subset (by simp))
      | cons_cons _ swapped => exact absent later

/-- In a stable order the sequence of the source decides between equal entries. -/
theorem StablySorted.pairwise (sorted : StablySorted le xs ys) (nodup : xs.Nodup) :
    ys.Pairwise fun a b => le a b ∧ (le b a → [a, b] <+ xs) := by
  have distinct : ys.Nodup := sorted.perm.nodup_iff.mpr nodup
  rw [List.pairwise_iff_forall_sublist]
  intro a b inOrder
  have below := List.pairwise_iff_forall_sublist.mp sorted.ascending inOrder
  have apart := List.pairwise_iff_forall_sublist.mp distinct inOrder
  refine ⟨below, fun above => ?_⟩
  have first : a ∈ xs := sorted.perm.mem_iff.mp (inOrder.subset (by simp))
  have second : b ∈ xs := sorted.perm.mem_iff.mp (inOrder.subset (by simp))
  rcases pair_sublist_or first second apart with before | after
  · exact before
  · exact absurd (sorted.stable b a after above below) (not_pair_sublist_swap distinct inOrder)

/-- There is one stable order. -/
theorem StablySorted.eq (sorted : StablySorted le xs ys) (other : StablySorted le xs zs)
    (nodup : xs.Nodup) : ys = zs := by
  apply List.Perm.eq_of_pairwise _ (sorted.pairwise nodup) (other.pairwise nodup)
    (sorted.perm.trans other.perm.symm)
  intro a b _ _ below above
  exact absurd (above.2 below.1) (not_pair_sublist_swap nodup (below.2 above.1))

theorem StablySorted.map (sorted : StablySorted le xs ys) {le' : α → α → Prop} {k : β → α}
    (agree : ∀ a ∈ xs, ∀ b ∈ xs, (le' (k a) (k b) ↔ le a b)) :
    StablySorted le' (xs.map k) (ys.map k) where
  perm := sorted.perm.map k
  ascending := by
    rw [List.pairwise_map]
    refine sorted.ascending.imp_of_mem fun first second below => ?_
    exact (agree _ (sorted.perm.mem_iff.mp first) _ (sorted.perm.mem_iff.mp second)).mpr below
  stable := by
    intro a b inOrder below above
    obtain ⟨pair, sub, eq⟩ := List.sublist_map_iff.mp inOrder
    match pair, eq with
    | [c, d], rfl =>
      have first : c ∈ xs := sub.subset (by simp)
      have second : d ∈ xs := sub.subset (by simp)
      exact (sorted.stable c d sub ((agree c first d second).mp below)
        ((agree d second c first).mp above)).map k

/-- Merge sort by a consistent comparison of keys is the stable order. -/
theorem stablySorted_mergeSort (cmp : α → α → Ordering) [Std.TransCmp cmp] (key : β → α)
    (xs : List β) : StablySorted (fun a b => (cmp (key a) (key b)).isLE = true) xs
      (xs.mergeSort fun a b => (cmp (key a) (key b)).isLE) := by
  have trans : ∀ a b c, (cmp (key a) (key b)).isLE = true → (cmp (key b) (key c)).isLE = true →
      (cmp (key a) (key c)).isLE = true := fun _ _ _ => Std.TransCmp.isLE_trans
  have total : ∀ a b, ((cmp (key a) (key b)).isLE || (cmp (key b) (key a)).isLE) = true := by
    intro a b
    have swapped : cmp (key b) (key a) = (cmp (key a) (key b)).swap := Std.OrientedCmp.eq_swap
    rw [swapped]
    cases cmp (key a) (key b) <;> rfl
  exact ⟨List.mergeSort_perm .., List.pairwise_mergeSort trans total xs,
    fun a b inOrder below _ => List.pair_sublist_mergeSort trans total below inOrder⟩

end PolicyTree
