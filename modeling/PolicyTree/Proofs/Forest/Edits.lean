import Mathlib.Logic.Relation
import PolicyTree.Policy
import PolicyTree.Proofs.Forest.Level
import PolicyTree.Proofs.Forest.Siblings

/-! What edits under a policy do to a forest. -/

namespace PolicyTree.Forest

variable {α : Type} {policy : Policy α} {f f' : Forest α}

/-! ## Growth -/

/-- `f'` is `f` with one more childless node, where the policy places its value. -/
inductive Planted (policy : Policy α) (f : Forest α) : Forest α → Prop where
  | below {s : Sprig α} {x : α} {i : Nat} {h : Handle} (nodup : f.handles.Nodup)
      (mem : s ∈ f.nodes) (place : policy.place s.below.rootValues x = .before i)
      (fresh : h ∉ f.handles) : Planted policy f (f.mapBelow s.handle (plantAt i ⟨h, x, nil⟩))

theorem Planted.roots_eq (planted : Planted policy f f') : f'.roots = f.roots := by
  cases planted
  exact roots_mapBelow ..

theorem Planted.rootValues_eq (planted : Planted policy f f') : f'.rootValues = f.rootValues := by
  cases planted
  exact rootValues_mapBelow ..

theorem Planted.handles_subset (planted : Planted policy f f') : f.handles ⊆ f'.handles := by
  cases planted
  exact handles_subset_mapBelow fun s _ _ => handles_subset_plantAt ..

/-- Any number of nodes planted, one after the other. -/
def Grown (policy : Policy α) : Forest α → Forest α → Prop :=
  Relation.ReflTransGen (Planted policy)

theorem Grown.roots_eq (grown : Grown policy f f') : f'.roots = f.roots := by
  induction grown with
  | refl => rfl
  | tail _ planted ih => rw [planted.roots_eq, ih]

theorem Grown.rootValues_eq (grown : Grown policy f f') : f'.rootValues = f.rootValues := by
  induction grown with
  | refl => rfl
  | tail _ planted ih => rw [planted.rootValues_eq, ih]

theorem Grown.handles_subset (grown : Grown policy f f') : f.handles ⊆ f'.handles := by
  induction grown with
  | refl => exact List.Subset.refl _
  | tail _ planted ih => exact List.Subset.trans ih planted.handles_subset

/-- A sprig grown from one childless node is one sprig with the same handle and value. -/
theorem Grown.exists_sprig {h : Handle} {x : α}
    (grown : Grown policy (ofSprigs [⟨h, x, nil⟩]) f') :
    ∃ below, f' = ofSprigs [⟨h, x, below⟩] := by
  have top : f'.sprigs.map Sprig.handle = [h] := by simpa [roots] using grown.roots_eq
  have values : f'.sprigs.map Sprig.value = [x] := by simpa [rootValues] using grown.rootValues_eq
  obtain ⟨⟨_, y, below⟩, single, rfl⟩ := List.map_eq_singleton_iff.mp top
  rw [single] at values
  obtain rfl : y = x := by simpa using values
  exact ⟨below, by rw [← ofSprigs_sprigs f', single]⟩

/-! ## Swaps -/

/-- Where a swap puts a value that takes the place of the sibling at `i`: a keyed policy places it
among the other siblings, any other keeps the place. -/
def Resettled (policy : Policy α) (b : Forest α) (i : Nat) (x : α) (j : Nat) : Prop :=
  if policy.keyed then policy.place (b.pluckAt i).rootValues x = .before j else j = i

section Resettled

variable {b : Forest α} {i j : Nat} {x : α}

theorem Resettled.place_eq (settled : Resettled policy b i x j) (keyed : policy.keyed = true) :
    policy.place (b.pluckAt i).rootValues x = .before j := by
  rwa [Resettled, if_pos keyed] at settled

theorem Resettled.eq_of_unkeyed (settled : Resettled policy b i x j)
    (unkeyed : policy.keyed = false) : j = i := by
  rwa [Resettled, if_neg (ne_true_of_eq_false unkeyed)] at settled

/-- The list without the sibling at `i` has the place that a swap finds for the value. -/
def Fits (policy : Policy α) (b : Forest α) (i : Nat) (x : α) : Prop :=
  ∀ j, Resettled policy b i x j → j ≤ (b.pluckAt i).sprigs.length

/-- Only a keyed policy that answers past the end finds a place that the list does not have. -/
theorem fits_or_overruns (policy : Policy α) {c : Sprig α} (child : b.sprigs[i]? = some c) (x : α) :
    Fits policy b i x ∨ ∃ j, policy.keyed = true ∧
      policy.place (b.pluckAt i).rootValues x = .before j ∧ (b.pluckAt i).sprigs.length < j := by
  by_cases fits : Fits policy b i x
  · exact .inl fits
  · right
    obtain ⟨j, overruns⟩ := Classical.not_forall.mp fits
    obtain ⟨settled, past⟩ := Classical.not_imp.mp overruns
    cases keyed : policy.keyed with
    | true => exact ⟨j, rfl, settled.place_eq keyed, Nat.lt_of_not_le past⟩
    | false =>
      obtain rfl := settled.eq_of_unkeyed keyed
      have inside := (List.getElem?_eq_some_iff.mp child).1
      rw [pluckAt, sprigs_ofSprigs, List.length_eraseIdx_of_lt inside] at past
      omega

end Resettled

/-! ## Edits -/

/-- What one edit can make of `f`. -/
inductive Edited (policy : Policy α) (f : Forest α) : Forest α → Prop where
  | same : Edited policy f f
  | cleared : Edited policy f nil
  | copied {h : Handle} {x : α} {f' : Forest α} (grown : Grown policy (ofSprigs [⟨h, x, nil⟩]) f') :
      Edited policy f f'
  | planted {f' : Forest α} (planted : Planted policy f f') : Edited policy f f'
  | plucked {s : Sprig α} (i : Nat) (mem : s ∈ f.nodes) :
      Edited policy f (f.mapBelow s.handle (pluckAt i))
  | bared {s : Sprig α} (mem : s ∈ f.nodes) : Edited policy f (f.mapBelow s.handle fun _ => nil)
  | rootRevalued {s : Sprig α} (x : α) (only : f = ofSprigs [s]) :
      Edited policy f (ofSprigs [⟨s.handle, x, s.below⟩])
  | revalued {s c : Sprig α} {x : α} {i j : Nat} (mem : s ∈ f.nodes)
      (child : s.below.sprigs[i]? = some c) (settled : Resettled policy s.below i x j) :
      Edited policy f (f.mapBelow s.handle (swapAt i j ⟨c.handle, x, c.below⟩))
  | substituted {s n : Sprig α} {h : Handle} {i j : Nat} (mem : s ∈ f.nodes)
      (grown : Grown policy (ofSprigs [⟨h, n.value, nil⟩]) (ofSprigs [n]))
      (settled : Resettled policy s.below i n.value j) :
      Edited policy f (f.mapBelow s.handle (swapAt i j n))
  | sorted {s : Sprig α} (i j : Nat) (cmp : α → α → Ordering) (unkeyed : policy.keyed = false)
      (mem : s ∈ f.nodes) : Edited policy f (f.mapBelow s.handle (sortAt i j cmp))

end PolicyTree.Forest
