import Mathlib.Data.List.Induction
import PolicyTree.Proofs.KeySearch

/-! The policies that come with the library, and what others must keep to. -/

namespace PolicyTree.Policy

variable {α : Type} {policy : Policy α} {cmp : α → α → Ordering}

/-! ## Classes of policies -/

/-- The built-in keyed policies that search every level, each with its comparison. -/
inductive BuiltInSearching : Policy α → (α → α → Ordering) → Prop where
  | naturalOrder [Ord α] [Std.TransOrd α] : BuiltInSearching naturalOrder compare
  | keyOrder (cmp : α → α → Ordering) [Std.TransCmp cmp] : BuiltInSearching (keyOrder cmp) cmp
  | byKey {κ : Type} [Ord κ] [BEq κ] [Std.TransOrd κ] [Std.LawfulBEqOrd κ] (key : α → κ) :
      BuiltInSearching (byKey key) (compareOn key)

/-- The built-in keyed policies, each with its comparison. -/
inductive BuiltInKeyed : Policy α → (α → α → Ordering) → Prop where
  | searching {policy : Policy α} {cmp : α → α → Ordering}
      (searching : BuiltInSearching policy cmp) : BuiltInKeyed policy cmp
  | pathOrder [Ord α] [Std.TransOrd α] : BuiltInKeyed pathOrder compare

/-- The built-in policies, the keyed ones with a consistent comparison. -/
inductive BuiltIn : Policy α → Prop where
  | keyed {policy : Policy α} {cmp : α → α → Ordering} (keyed : BuiltInKeyed policy cmp) :
      BuiltIn policy
  | insertionOrder [BEq α] : BuiltIn insertionOrder
  | insertionOrderBy (eq : α → α → Bool) : BuiltIn (insertionOrderBy eq)

/-- A keyed policy places a value at most one past the siblings it is shown. -/
def InRange (policy : Policy α) : Prop :=
  policy.keyed = true → ∀ siblings x i, policy.place siblings x = .before i → i ≤ siblings.length

/-- The policy keeps siblings strictly increasing under `cmp`. -/
structure SortsBy (policy : Policy α) (cmp : α → α → Ordering) : Prop where
  keyed : policy.keyed = true
  place : policy.place = keyedPlace cmp
  trans : Std.TransCmp cmp

/-! ## What the built-in policies keep to -/

theorem BuiltInSearching.sortsBy (builtIn : BuiltInSearching policy cmp) : policy.SortsBy cmp := by
  cases builtIn with
  | naturalOrder | keyOrder => exact ⟨rfl, rfl, inferInstance⟩
  | byKey key => exact ⟨rfl, rfl, inferInstanceAs (Std.TransCmp (compareOn key))⟩

theorem BuiltInSearching.descend_eq (builtIn : BuiltInSearching policy cmp) :
    policy.descend = keyedSearch cmp := by
  cases builtIn <;> rfl

/-- What agrees with a target has the key of the target. -/
theorem BuiltInSearching.agrees_iff (builtIn : BuiltInSearching policy cmp) {x target : α} :
    policy.agrees x target = true ↔ cmp x target = .eq := by
  cases builtIn with
  | naturalOrder | keyOrder => exact beq_iff_eq
  | byKey key => exact Std.LawfulBEqCmp.compare_eq_iff_beq.symm

theorem BuiltInKeyed.sortsBy (builtIn : BuiltInKeyed policy cmp) : policy.SortsBy cmp := by
  cases builtIn with
  | searching searching => exact searching.sortsBy
  | pathOrder => exact ⟨rfl, rfl, inferInstance⟩

/-- A search by halves ends among the siblings or right behind them, whether or not the comparison
is consistent. -/
theorem inRange_of_place_eq (placed : policy.place = keyedPlace cmp) : policy.InRange :=
  fun _ _ _ _ place => keyedPlace_before_le (placed ▸ place)

theorem SortsBy.inRange (sorts : policy.SortsBy cmp) : policy.InRange :=
  inRange_of_place_eq sorts.place

theorem inRange_of_unkeyed (unkeyed : policy.keyed = false) : policy.InRange := by
  intro keyed
  rw [unkeyed] at keyed
  cases keyed

theorem BuiltIn.inRange (builtIn : policy.BuiltIn) : policy.InRange := by
  cases builtIn with
  | keyed keyed => exact keyed.sortsBy.inRange
  | insertionOrder | insertionOrderBy => exact inRange_of_unkeyed rfl

/-- The policies in insertion order look for a value everywhere. -/
theorem BuiltIn.scans (builtIn : policy.BuiltIn) (unkeyed : policy.keyed = false)
    (siblings : List α) (x : α) : policy.descend siblings x = .scan := by
  cases builtIn with
  | keyed keyed =>
    rw [keyed.sortsBy.keyed] at unkeyed
    cases unkeyed
  | insertionOrder | insertionOrderBy => rfl

theorem BuiltIn.exists_keyed (builtIn : policy.BuiltIn) (keyed : policy.keyed = true) :
    ∃ cmp, policy.BuiltInKeyed cmp := by
  cases builtIn with
  | keyed sorting => exact ⟨_, sorting⟩
  | insertionOrder | insertionOrderBy => cases keyed

/-! ## Values placed one after the other -/

/-- Each value goes right behind the values before it. -/
def PlacesInTurn (policy : Policy α) (xs : List α) : Prop :=
  ∀ i x, xs[i]? = some x → policy.place (xs.take i) x = .before i

theorem PlacesInTurn.take {xs : List α} (inTurn : policy.PlacesInTurn xs) (k : Nat) :
    policy.PlacesInTurn (xs.take k) := by
  intro i x entry
  have inside : i < k := by
    have := (List.getElem?_eq_some_iff.mp entry).1
    rw [List.length_take] at this
    omega
  rw [List.getElem?_take_of_lt inside] at entry
  rw [List.take_take, Nat.min_eq_left (Nat.le_of_lt inside)]
  exact inTurn i x entry

theorem placesInTurn_concat {xs : List α} {x : α} : policy.PlacesInTurn (xs ++ [x]) ↔
    policy.PlacesInTurn xs ∧ policy.place xs x = .before xs.length := by
  constructor
  · intro all
    refine ⟨fun i y entry => ?_, ?_⟩
    · have inside := (List.getElem?_eq_some_iff.mp entry).1
      rw [← List.take_append_of_le_length (Nat.le_of_lt inside)]
      exact all i y (by rw [List.getElem?_append_left inside, entry])
    · simpa using all xs.length x (by simp)
  · rintro ⟨front, last⟩ i y entry
    have inside := (List.getElem?_eq_some_iff.mp entry).1
    rw [List.length_append, List.length_singleton] at inside
    rcases Nat.lt_succ_iff_lt_or_eq.mp inside with early | rfl
    · rw [List.getElem?_append_left early] at entry
      rw [List.take_append_of_le_length (Nat.le_of_lt early)]
      exact front i y entry
    · obtain rfl : x = y := by simpa using entry
      simpa using last

/-- A policy that sorts by key places the values of strictly increasing lists in turn, and of no
others. -/
theorem SortsBy.placesInTurn_iff (sorts : policy.SortsBy cmp) {xs : List α} :
    policy.PlacesInTurn xs ↔ Ascending cmp xs := by
  have := sorts.trans
  induction xs using List.reverseRecOn with
  | nil => exact iff_of_true (fun i x entry => by simp at entry) List.Pairwise.nil
  | append_singleton xs x ih =>
    rw [placesInTurn_concat, sorts.place]
    constructor
    · -- That `xs` is in order makes the search in it for the place of `x` a sound one.
      rintro ⟨front, last⟩
      exact (ih.mp front).keyedPlace_eq_last_iff.mp last
    · intro longer
      have asc : Ascending cmp xs := (List.pairwise_append.mp longer).1
      exact ⟨ih.mpr asc, asc.keyedPlace_eq_last_iff.mpr longer⟩

end PolicyTree.Policy
