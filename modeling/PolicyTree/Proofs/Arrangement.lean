import Mathlib.Data.List.InsertIdx
import Mathlib.Data.List.Pairwise
import Mathlib.Data.List.Perm.Basic
import PolicyTree.Proofs.Policies

/-! What a list becomes whose entries are placed by a policy one after the other. -/

namespace PolicyTree.Policy

open scoped List

variable {α β γ : Type} {policy : Policy α} {cmp : α → α → Ordering} {value : β → α}
  {placed bs out : List β} {b : β} {i : Nat}

/-- Places the entries by their values among those placed already; nothing if one is refused. -/
def arrangeAfter (policy : Policy α) (value : β → α) (placed : List β) : List β → Option (List β)
  | [] => some placed
  | b :: bs =>
    match policy.place (placed.map value) (value b) with
    | .taken _ => none
    | .before i => policy.arrangeAfter value (placed.insertIdx (min i placed.length) b) bs

def arrange (policy : Policy α) (value : β → α) (bs : List β) : Option (List β) :=
  policy.arrangeAfter value [] bs

theorem arrangeAfter_of_taken (place : policy.place (placed.map value) (value b) = .taken i)
    (bs : List β) : policy.arrangeAfter value placed (b :: bs) = none := by
  simp only [arrangeAfter, place]

theorem arrangeAfter_of_before (place : policy.place (placed.map value) (value b) = .before i)
    (bs : List β) : policy.arrangeAfter value placed (b :: bs) =
      policy.arrangeAfter value (placed.insertIdx (min i placed.length) b) bs := by
  simp only [arrangeAfter, place]

/-! ## Any policy -/

theorem insertIdx_perm (i : Nat) (placed : List β) (b : β) :
    (placed.insertIdx (min i placed.length) b).Perm (b :: placed) :=
  List.perm_insertIdx b placed (Nat.min_le_right ..)

/-- No entry is lost and none is added. -/
theorem perm_of_arrangeAfter (arranged : policy.arrangeAfter value placed bs = some out) :
    out.Perm (placed ++ bs) := by
  induction bs generalizing placed with
  | nil =>
    obtain rfl : placed = out := by simpa [arrangeAfter] using arranged
    rw [List.append_nil]
  | cons b bs ih =>
    cases place : policy.place (placed.map value) (value b) with
    | taken i =>
      rw [arrangeAfter_of_taken place] at arranged
      cases arranged
    | before i =>
      rw [arrangeAfter_of_before place] at arranged
      calc out ~ placed.insertIdx (min i placed.length) b ++ bs := ih arranged
        _ ~ b :: placed ++ bs := (insertIdx_perm i placed b).append_right bs
        _ ~ placed ++ b :: bs := List.perm_middle.symm

theorem perm_of_arrange (arranged : policy.arrange value bs = some out) : out.Perm bs :=
  perm_of_arrangeAfter arranged

/-- Where an entry goes hangs on the values alone. -/
theorem arrangeAfter_map (g : γ → β) (placed cs : List γ) :
    policy.arrangeAfter value (placed.map g) (cs.map g) =
      (policy.arrangeAfter (fun c => value (g c)) placed cs).map (List.map g) := by
  induction cs generalizing placed with
  | nil => rfl
  | cons c cs ih =>
    have shown : (placed.map g).map value = placed.map fun c => value (g c) := List.map_map
    rw [List.map_cons]
    cases place : policy.place (placed.map fun c => value (g c)) (value (g c)) with
    | taken i =>
      rw [arrangeAfter_of_taken place, arrangeAfter_of_taken (shown ▸ place)]
      rfl
    | before i =>
      rw [arrangeAfter_of_before place, arrangeAfter_of_before (shown ▸ place), ← ih,
        List.map_insertIdx, List.length_map]

theorem arrange_map (g : γ → β) (cs : List γ) :
    policy.arrange value (cs.map g) =
      (policy.arrange (fun c => value (g c)) cs).map (List.map g) :=
  arrangeAfter_map g [] cs

/-- What stands in the way of an arrangement is one entry whose place is taken when those before it
have been placed. -/
theorem arrangeAfter_eq_none_iff : policy.arrangeAfter value placed bs = none ↔
    ∃ front b back out i, bs = front ++ b :: back ∧
      policy.arrangeAfter value placed front = some out ∧
      policy.place (out.map value) (value b) = .taken i := by
  induction bs generalizing placed with
  | nil =>
    constructor
    · nofun
    · rintro ⟨front, b, back, -, -, split, -⟩
      exact absurd split.symm (List.append_ne_nil_of_right_ne_nil _ (List.cons_ne_nil _ _))
  | cons b bs ih =>
    cases place : policy.place (placed.map value) (value b) with
    | taken i =>
      rw [arrangeAfter_of_taken place]
      exact ⟨fun _ => ⟨[], b, bs, placed, i, rfl, rfl, place⟩, fun _ => rfl⟩
    | before i =>
      rw [arrangeAfter_of_before place, ih]
      constructor
      · rintro ⟨front, c, back, out, j, rfl, arranged, taken⟩
        exact ⟨b :: front, c, back, out, j, rfl, (arrangeAfter_of_before place front).trans arranged,
          taken⟩
      · rintro ⟨_ | ⟨b', front⟩, c, back, out, j, split, arranged, taken⟩
        · cases split
          cases arranged
          rw [place] at taken
          cases taken
        · cases split
          rw [arrangeAfter_of_before place] at arranged
          exact ⟨front, c, back, out, j, rfl, arranged, taken⟩

/-- A policy that never refuses places all entries. -/
theorem exists_arrange_of_admits (admits : ∀ siblings x i, policy.place siblings x ≠ .taken i)
    (value : β → α) (bs : List β) : ∃ out, policy.arrange value bs = some out := by
  have after : ∀ placed, ∃ out, policy.arrangeAfter value placed bs = some out := by
    induction bs with
    | nil => exact fun placed => ⟨placed, rfl⟩
    | cons b bs ih =>
      intro placed
      cases place : policy.place (placed.map value) (value b) with
      | taken i => exact absurd place (admits _ _ i)
      | before i =>
        rw [arrangeAfter_of_before place]
        exact ih _
  exact after []

/-! ## Policies that append -/

theorem arrangeAfter_of_append (appends : policy.place = append) (placed bs : List β) :
    policy.arrangeAfter value placed bs = some (placed ++ bs) := by
  induction bs generalizing placed with
  | nil => simp [arrangeAfter]
  | cons b bs ih =>
    have place : policy.place (placed.map value) (value b) = .before placed.length := by
      rw [appends, append, List.length_map]
    rw [arrangeAfter_of_before place, Nat.min_self, List.insertIdx_length_self, ih,
      List.append_assoc, List.singleton_append]

theorem arrange_of_append (appends : policy.place = append) (bs : List β) :
    policy.arrange value bs = some bs :=
  arrangeAfter_of_append appends [] bs

theorem BuiltIn.place_eq_append (builtIn : policy.BuiltIn) (unkeyed : policy.keyed = false) :
    policy.place = append := by
  cases builtIn with
  | keyed keyed =>
    rw [keyed.sortsBy.keyed] at unkeyed
    cases unkeyed
  | insertionOrder | insertionOrderBy => rfl

/-! ## Policies that sort -/

/-- The values of any two entries differ in their keys. -/
def Unalike (cmp : α → α → Ordering) (value : β → α) (bs : List β) : Prop :=
  bs.Pairwise fun a b => cmp (value a) (value b) ≠ .eq

theorem unalike_perm [Std.TransCmp cmp] {cs : List β} (same : bs.Perm cs) :
    Unalike cmp value bs ↔ Unalike cmp value cs :=
  same.pairwise_iff fun differ equal => differ (Std.OrientedCmp.eq_symm equal)

theorem Unalike.ne_eq [Std.TransCmp cmp] (differ : Unalike cmp value bs) {a b : β} (first : a ∈ bs)
    (second : b ∈ bs) (other : a ≠ b) : cmp (value a) (value b) ≠ .eq := by
  have : Std.Symm fun a b => cmp (value a) (value b) ≠ .eq :=
    ⟨fun _ _ differ equal => differ (Std.OrientedCmp.eq_symm equal)⟩
  exact differ.forall first second other

theorem unalike_of_ascending (asc : Ascending cmp (bs.map value)) : Unalike cmp value bs := by
  apply (List.pairwise_map.mp asc).imp
  intro a b less
  rw [less]
  decide

theorem isLE_of_ascending (asc : Ascending cmp (bs.map value)) :
    bs.Pairwise fun a b => (cmp (value a) (value b)).isLE = true := by
  apply (List.pairwise_map.mp asc).imp
  intro a b less
  rw [less]
  rfl

theorem ascending_of_arrangeAfter (sorts : policy.SortsBy cmp)
    (asc : Ascending cmp (placed.map value))
    (arranged : policy.arrangeAfter value placed bs = some out) :
    Ascending cmp (out.map value) := by
  have := sorts.trans
  induction bs generalizing placed with
  | nil =>
    obtain rfl : placed = out := by simpa [arrangeAfter] using arranged
    exact asc
  | cons b bs ih =>
    cases place : policy.place (placed.map value) (value b) with
    | taken i =>
      rw [arrangeAfter_of_taken place] at arranged
      cases arranged
    | before i =>
      rw [arrangeAfter_of_before place] at arranged
      refine ih ?_ arranged
      rw [sorts.place] at place
      have fits : i ≤ placed.length := by simpa using keyedPlace_before_le place
      rw [Nat.min_eq_left fits, List.map_insertIdx]
      exact asc.insertIdx place

/-- Entries with different keys are all placed. -/
theorem exists_arrangeAfter (sorts : policy.SortsBy cmp)
    (differ : Unalike cmp value (placed ++ bs)) :
    ∃ out, policy.arrangeAfter value placed bs = some out := by
  have := sorts.trans
  induction bs generalizing placed with
  | nil => exact ⟨placed, rfl⟩
  | cons b bs ih =>
    cases place : policy.place (placed.map value) (value b) with
    | taken i =>
      rw [sorts.place] at place
      obtain ⟨x, entry, same⟩ := getElem?_of_keyedPlace_eq_taken place
      obtain ⟨a, mem, rfl⟩ := List.mem_map.mp (List.mem_of_getElem? entry)
      exact absurd same ((List.pairwise_append.mp differ).2.2 a mem b (List.mem_cons_self ..))
    | before i =>
      rw [arrangeAfter_of_before place]
      apply ih
      have moved : (placed.insertIdx (min i placed.length) b ++ bs).Perm (placed ++ b :: bs) :=
        ((insertIdx_perm i placed b).append_right bs).trans List.perm_middle.symm
      exact (unalike_perm moved).mpr differ

theorem ascending_of_arrange (sorts : policy.SortsBy cmp)
    (arranged : policy.arrange value bs = some out) : Ascending cmp (out.map value) := by
  have start : Ascending cmp (([] : List β).map value) := List.Pairwise.nil
  exact ascending_of_arrangeAfter sorts start arranged

theorem arrange_eq_none_iff (sorts : policy.SortsBy cmp) (value : β → α) (bs : List β) :
    policy.arrange value bs = none ↔ ¬Unalike cmp value bs := by
  have := sorts.trans
  constructor
  · intro refused differ
    have all : Unalike cmp value ([] ++ bs) := differ
    obtain ⟨out, arranged⟩ := exists_arrangeAfter sorts all
    rw [arrange, arranged] at refused
    cases refused
  · intro alike
    cases arranged : policy.arrange value bs with
    | none => rfl
    | some out =>
      refine absurd ((unalike_perm (perm_of_arrange arranged)).mp ?_) alike
      exact unalike_of_ascending (ascending_of_arrange sorts arranged)

/-- What has been placed one by one is sorted. -/
theorem eq_mergeSort_of_arrange (sorts : policy.SortsBy cmp)
    (arranged : policy.arrange value bs = some out) :
    out = bs.mergeSort fun a b => (cmp (value a) (value b)).isLE := by
  have := sorts.trans
  have asc := ascending_of_arrange sorts arranged
  have sorted : (bs.mergeSort fun a b => (cmp (value a) (value b)).isLE).Pairwise fun a b =>
      (cmp (value a) (value b)).isLE = true := by
    apply List.pairwise_mergeSort
    · exact fun _ _ _ => Std.TransCmp.isLE_trans
    · intro a b
      have swapped : cmp (value b) (value a) = (cmp (value a) (value b)).swap :=
        Std.OrientedCmp.eq_swap
      rw [swapped]
      cases cmp (value a) (value b) <;> rfl
  have same := (perm_of_arrange arranged).trans
    (List.mergeSort_perm bs fun a b => (cmp (value a) (value b)).isLE).symm
  -- The keys differ, so neither list could have any two entries the other way round.
  refine List.Perm.eq_of_pairwise (fun a b first second le ge => ?_)
    (isLE_of_ascending asc) sorted same
  have equal : cmp (value a) (value b) = .eq := Std.OrientedCmp.isLE_antisymm le ge
  by_contra other
  exact (unalike_of_ascending asc).ne_eq first (same.mem_iff.mpr second) other equal

/-- A list in order is placed as it stands. -/
theorem arrange_of_ascending (sorts : policy.SortsBy cmp) (asc : Ascending cmp (bs.map value)) :
    policy.arrange value bs = some bs := by
  cases arranged : policy.arrange value bs with
  | none =>
    exact absurd (unalike_of_ascending asc) ((arrange_eq_none_iff sorts value bs).mp arranged)
  | some out =>
    rw [eq_mergeSort_of_arrange sorts arranged, List.mergeSort_of_pairwise (isLE_of_ascending asc)]

end PolicyTree.Policy
