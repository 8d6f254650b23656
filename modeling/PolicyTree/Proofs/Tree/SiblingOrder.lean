import Mathlib.Data.List.Nodup
import Mathlib.Data.Option.Basic
import PolicyTree.Arena.Lemmas
import PolicyTree.Proofs.Policies
import PolicyTree.Proofs.Session
import PolicyTree.Tree.Audit

/-! What the check of sibling order finds out about live siblings in any order. -/

namespace PolicyTree

variable {α : Type} {cmp : α → α → Ordering} {xs : List α} {i j : Nat}

/-- The first `i` entries are strictly increasing, and together with the next one they are not. -/
def BreaksAt (cmp : α → α → Ordering) (xs : List α) (i : Nat) : Prop :=
  i < xs.length ∧ Ascending cmp (xs.take i) ∧ ¬Ascending cmp (xs.take (i + 1))

theorem Ascending.take (asc : Ascending cmp xs) (i : Nat) : Ascending cmp (xs.take i) :=
  List.Pairwise.sublist (List.take_sublist i xs) asc

theorem BreaksAt.not_ascending (breaks : BreaksAt cmp xs i) : ¬Ascending cmp xs :=
  fun asc => breaks.2.2 (asc.take (i + 1))

theorem BreaksAt.unique (first : BreaksAt cmp xs i) (second : BreaksAt cmp xs j) : i = j := by
  have apart : ∀ {i j : Nat}, i < j → BreaksAt cmp xs i → ¬BreaksAt cmp xs j := by
    intro i j lt first second
    apply first.2.2
    have shorter := second.2.1.take (i + 1)
    rwa [List.take_take, Nat.min_eq_left lt] at shorter
  rcases Nat.lt_trichotomy i j with lt | same | gt
  · exact absurd second (apart lt first)
  · exact same
  · exact absurd first (apart gt second)

namespace Tree

variable {t : Tree α} {h parent : Handle} {hs : List Handle} {values : List α}

/-! ## Handles in order -/

/-- The handles are live and their values strictly increasing. -/
def InOrder (t : Tree α) (cmp : α → α → Ordering) (hs : List Handle) : Prop :=
  ∃ values, hs.map t.get? = values.map some ∧ Ascending cmp values

theorem inOrder_iff (listed : hs.map t.get? = values.map some) :
    t.InOrder cmp hs ↔ Ascending cmp values := by
  refine ⟨fun inOrder => ?_, fun asc => ⟨values, listed, asc⟩⟩
  obtain ⟨others, listed', asc⟩ := inOrder
  rw [listed] at listed'
  rwa [List.map_injective_iff.mpr (Option.some_injective α) listed']

theorem InOrder.nodup [Std.TransCmp cmp] (inOrder : t.InOrder cmp hs) : hs.Nodup := by
  obtain ⟨values, listed, asc⟩ := inOrder
  have distinct : values.Nodup := by
    apply asc.imp
    rintro x _ less rfl
    have same : cmp x x = .eq := Std.ReflCmp.compare_self
    rw [same] at less
    cases less
  apply List.Nodup.of_map t.get?
  rw [listed]
  exact distinct.map (Option.some_injective α)

theorem InOrder.live (inOrder : t.InOrder cmp hs) : ∀ h ∈ hs, t.contains h = true := by
  obtain ⟨values, listed, -⟩ := inOrder
  intro h mem
  have found : t.get? h ∈ values.map some := listed ▸ List.mem_map.mpr ⟨h, mem, rfl⟩
  obtain ⟨x, -, same⟩ := List.mem_map.mp found
  obtain ⟨n, stored, -⟩ := Option.map_eq_some_iff.mp same.symm
  exact Arena.contains_iff.mpr ⟨n, stored⟩

theorem map_get?_valuesAt (live : ∀ h ∈ hs, t.contains h = true) :
    hs.map t.get? = (t.valuesAt hs).map some := by
  induction hs with
  | nil => rfl
  | cons h hs ih =>
    obtain ⟨first, others⟩ := List.forall_mem_cons.mp live
    obtain ⟨n, stored⟩ := Arena.contains_iff.mp first
    have found : t.get? h = some n.value := congrArg (Option.map Node.value) stored
    have grown : t.valuesAt (h :: hs) = n.value :: t.valuesAt hs := List.filterMap_cons_some found
    rw [grown, List.map_cons, List.map_cons, found, ih others]

theorem length_valuesAt (live : ∀ h ∈ hs, t.contains h = true) :
    (t.valuesAt hs).length = hs.length := by
  simpa using (congrArg List.length (map_get?_valuesAt live)).symm

theorem inOrder_iff_valuesAt (live : ∀ h ∈ hs, t.contains h = true) :
    t.InOrder cmp hs ↔ Ascending cmp (t.valuesAt hs) :=
  inOrder_iff (map_get?_valuesAt live)

/-! ## The order check -/

theorem orderFault_append (parent : Handle) (earlier cs ds : List Handle) :
    t.orderFault parent earlier (cs ++ ds) =
      (t.orderFault parent earlier cs).or (t.orderFault parent (earlier ++ cs) ds) := by
  induction cs generalizing earlier with
  | nil => simp [orderFault]
  | cons c cs ih =>
    rw [List.cons_append, orderFault, orderFault]
    cases t.node? c with
    | none => rfl
    | some n =>
      dsimp only
      split_ifs
      · rw [ih, List.append_assoc, List.singleton_append]
      · rfl

theorem live_of_orderFault_eq_none {earlier : List Handle}
    (clear : t.orderFault parent earlier hs = none) : ∀ h ∈ hs, t.contains h = true := by
  induction hs generalizing earlier with
  | nil => exact List.forall_mem_nil _
  | cons h hs ih =>
    rw [orderFault] at clear
    cases stored : t.node? h with
    | none => simp [stored] at clear
    | some n =>
      rw [stored] at clear
      dsimp only at clear
      split at clear
      · exact List.forall_mem_cons.mpr ⟨Arena.contains_iff.mpr ⟨n, stored⟩, ih clear⟩
      · cases clear

/-- Whatever the policy, the check of live siblings asks it to place each value among those before,
until it does not put one behind them. -/
theorem orderFault_cases (live : ∀ h ∈ hs, t.contains h = true) (parent : Handle) :
    t.orderFault parent [] hs = none ∧ t.policy.PlacesInTurn (t.valuesAt hs) ∨
      ∃ i, t.orderFault parent [] hs = some (.siblingOrder i parent) ∧ i < hs.length ∧
        t.policy.PlacesInTurn ((t.valuesAt hs).take i) ∧
        ¬t.policy.PlacesInTurn ((t.valuesAt hs).take (i + 1)) := by
  induction hs using List.reverseRecOn with
  | nil => exact .inl ⟨rfl, fun i x entry => by simp [valuesAt] at entry⟩
  | append_singleton hs c ih =>
    obtain ⟨before, last⟩ := List.forall_mem_append.mp live
    obtain ⟨n, stored⟩ := Arena.contains_iff.mp (last c (List.mem_singleton_self c))
    have count := length_valuesAt before
    have grown : t.valuesAt (hs ++ [c]) = t.valuesAt hs ++ [n.value] := by
      have found : (t.node? c).map Node.value = some n.value := congrArg _ stored
      rw [valuesAt, List.filterMap_append]
      exact congrArg (t.valuesAt hs ++ ·) (List.filterMap_cons_some found)
    have asked : t.orderFault parent hs [c] =
        if t.policy.place (t.valuesAt hs) n.value = .before hs.length then none
        else some (.siblingOrder hs.length parent) := by
      rw [orderFault, show t.node? c = some n from stored]
      rfl
    rw [orderFault_append, List.nil_append, asked, grown, List.length_append]
    rcases ih before with ⟨clear, inTurn⟩ | ⟨i, fault, inside, inTurn, stops⟩
    · rw [clear, Option.none_or]
      by_cases behind : t.policy.place (t.valuesAt hs) n.value = .before hs.length
      · rw [if_pos behind]
        exact .inl ⟨rfl, Policy.placesInTurn_concat.mpr ⟨inTurn, count ▸ behind⟩⟩
      · refine .inr ⟨hs.length, if_neg behind, Nat.lt_succ_self _, ?_, fun all => behind ?_⟩
        · rwa [← count, List.take_left']
          rfl
        · rw [List.take_of_length_le (by simp [count])] at all
          exact count ▸ (Policy.placesInTurn_concat.mp all).2
    · refine .inr ⟨i, by rw [fault, Option.some_or], Nat.lt_succ_of_lt inside, ?_, ?_⟩
      · rwa [List.take_append_of_le_length (by omega)]
      · rwa [List.take_append_of_le_length (by omega)]

/-- The check of live siblings passes if the policy places their values in turn. -/
theorem orderFault_eq_none_iff (live : ∀ h ∈ hs, t.contains h = true) (parent : Handle) :
    t.orderFault parent [] hs = none ↔ t.policy.PlacesInTurn (t.valuesAt hs) := by
  rcases orderFault_cases live parent with ⟨clear, inTurn⟩ | ⟨i, fault, -, -, stops⟩
  · exact iff_of_true clear inTurn
  · rw [fault]
    exact iff_of_false (Option.some_ne_none _) fun inTurn => stops (inTurn.take (i + 1))

theorem siblingFault_eq_none_iff (sorts : t.policy.SortsBy cmp) (parent : Handle)
    (hs : List Handle) : t.siblingFault parent hs = none ↔ t.InOrder cmp hs := by
  rw [siblingFault, if_pos sorts.keyed]
  constructor
  · intro clear
    have live := live_of_orderFault_eq_none clear
    rw [inOrder_iff_valuesAt live, ← sorts.placesInTurn_iff]
    exact (orderFault_eq_none_iff live parent).mp clear
  · intro inOrder
    rw [orderFault_eq_none_iff inOrder.live, sorts.placesInTurn_iff]
    exact (inOrder_iff_valuesAt inOrder.live).mp inOrder

/-! ## Main result -/

/-- Live siblings stand in any order. A built-in keyed policy is asked to place each value among
those before, and they pass if it always puts the value behind them, that is, if they are strictly
increasing. If they are not, the fault names the first sibling that breaks the order. -/
theorem orderFault_finds_disorder (keyed : t.policy.BuiltInKeyed cmp)
    (live : ∀ h ∈ hs, t.contains h = true) (parent : Handle) :
    (t.orderFault parent [] hs = none ↔ Ascending cmp (t.valuesAt hs)) ∧
      (t.orderFault parent [] hs = none ↔ t.policy.PlacesInTurn (t.valuesAt hs)) ∧
      ∀ e, t.orderFault parent [] hs = some e ↔
        ∃ i, e = .siblingOrder i parent ∧ BreaksAt cmp (t.valuesAt hs) i := by
  have inTurn_iff : ∀ {xs}, t.policy.PlacesInTurn xs ↔ Ascending cmp xs :=
    keyed.sortsBy.placesInTurn_iff
  have passes := orderFault_eq_none_iff live parent
  refine ⟨passes.trans inTurn_iff, passes, fun e => ?_⟩
  rcases orderFault_cases live parent with ⟨clear, inTurn⟩ | ⟨i, fault, inside, inTurn, stops⟩
  · rw [clear]
    refine iff_of_false nofun ?_
    rintro ⟨i, -, breaks⟩
    exact breaks.not_ascending (inTurn_iff.mp inTurn)
  · have breaks : BreaksAt cmp (t.valuesAt hs) i :=
      ⟨length_valuesAt live ▸ inside, inTurn_iff.mp inTurn, mt inTurn_iff.mpr stops⟩
    rw [fault, Option.some_inj]
    constructor
    · rintro rfl
      exact ⟨i, rfl, breaks⟩
    · rintro ⟨j, rfl, other⟩
      rw [breaks.unique other]

/-- Of the values `2`, `7` and `5` the last one breaks the order. -/
theorem orderFault_finds_disorder_sample :
    (Tree.sample .naturalOrder).policy.BuiltInKeyed compare ∧
      (∀ h ∈ [⟨1, 2, 0⟩, ⟨1, 1, 0⟩, ⟨1, 0, 0⟩], (Tree.sample .naturalOrder).contains h = true) ∧
      (Tree.sample .naturalOrder).orderFault ⟨1, 0, 0⟩ []
        [⟨1, 2, 0⟩, ⟨1, 1, 0⟩, ⟨1, 0, 0⟩] = some (.siblingOrder 2 ⟨1, 0, 0⟩) := by
  have keyed : (Tree.sample .naturalOrder).policy.BuiltInKeyed compare := by
    rw [policy_sample]
    exact .searching .naturalOrder
  have live : ∀ h ∈ [⟨1, 2, 0⟩, ⟨1, 1, 0⟩, ⟨1, 0, 0⟩],
      (Tree.sample .naturalOrder).contains h = true := by decide +kernel
  have values :
      (Tree.sample .naturalOrder).valuesAt [⟨1, 2, 0⟩, ⟨1, 1, 0⟩, ⟨1, 0, 0⟩] = [2, 7, 5] := by
    decide +kernel
  refine ⟨keyed, live, ((orderFault_finds_disorder keyed live _).2.2 _).mpr ⟨2, rfl, ?_⟩⟩
  rw [values]
  exact ⟨by decide, by unfold Ascending; decide, by unfold Ascending; decide⟩

/-- A search among values that are not in order misses what breaks it: `6` is placed behind `7`. -/
example : Policy.keyedPlace compare [7, 2, 5] 6 = .before 3 := by decide +kernel

end Tree

end PolicyTree
