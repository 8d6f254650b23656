import Mathlib.Logic.Function.Basic
import PolicyTree.Proofs.Arena.Slots
import PolicyTree.Proofs.Tree.Closure

/-! When the nodes of a tree were stored, and how the child lists follow from that. -/

namespace PolicyTree

/-- How many nodes have been entered, and the rank of each. A handle that is stored again is entered
again. -/
structure Ledger where
  clock : Nat
  rank : Handle → Nat

namespace Ledger

variable {α : Type} {l : Ledger} {t t' t'' : Tree α} {h k p : Handle} {hs ks : List Handle}
  {n : Node α}

/-! ## Entries -/

def blank : Ledger := ⟨0, fun _ => 0⟩

/-- A new node ranks after all that were entered before. -/
def enter (l : Ledger) (h : Handle) : Ledger := ⟨l.clock + 1, Function.update l.rank h l.clock⟩

def enterAll (l : Ledger) (hs : List Handle) : Ledger := hs.foldl enter l

/-- A new node takes over the rank of `h`. -/
def inherit (l : Ledger) (h new : Handle) : Ledger :=
  { l with rank := Function.update l.rank new (l.rank h) }

@[simp] theorem rank_enter_self (l : Ledger) (h : Handle) : (l.enter h).rank h = l.clock :=
  Function.update_self ..

theorem rank_enter_of_ne (other : k ≠ h) (l : Ledger) : (l.enter h).rank k = l.rank k :=
  Function.update_of_ne other ..

@[simp] theorem rank_inherit_self (l : Ledger) (h new : Handle) :
    (l.inherit h new).rank new = l.rank h :=
  Function.update_self ..

theorem rank_inherit_of_ne {new : Handle} (other : k ≠ new) (l : Ledger) (h : Handle) :
    (l.inherit h new).rank k = l.rank k :=
  Function.update_of_ne other ..

theorem rank_enterAll_of_notMem (absent : k ∉ hs) (l : Ledger) :
    (l.enterAll hs).rank k = l.rank k := by
  induction hs generalizing l with
  | nil => rfl
  | cons h hs ih =>
    rw [List.mem_cons, not_or] at absent
    exact (ih absent.2 (l.enter h)).trans (rank_enter_of_ne absent.1 l)

theorem enterAll_append (l : Ledger) (hs ks : List Handle) :
    l.enterAll (hs ++ ks) = (l.enterAll hs).enterAll ks := List.foldl_append

/-! ## Lists in order -/

/-- The ranks rise along the list. -/
def Rises (l : Ledger) (hs : List Handle) : Prop := hs.Pairwise fun h k => l.rank h < l.rank k

theorem Rises.congr {m : Ledger} (rises : l.Rises hs) (agree : ∀ k ∈ hs, m.rank k = l.rank k) :
    m.Rises hs := by
  refine List.Pairwise.imp_of_mem (fun {a b} first second less => ?_) rises
  rw [agree a first, agree b second]
  exact less

theorem Rises.append_last (rises : l.Rises hs) (after : ∀ k ∈ hs, l.rank k < l.rank h) :
    l.Rises (hs ++ [h]) := by
  rw [Rises, List.pairwise_append]
  refine ⟨rises, List.pairwise_singleton .., fun k mem h' last => ?_⟩
  rw [List.mem_singleton.mp last]
  exact after k mem

/-- Of equal rank, a handle may stand for another. -/
theorem Rises.set {i : Nat} {new : Handle} (rises : l.Rises hs) (entry : hs[i]? = some h)
    (same : l.rank new = l.rank h) : l.Rises (hs.set i new) := by
  obtain ⟨inside, rfl⟩ := List.getElem?_eq_some_iff.mp entry
  have ranks : (hs.set i new).map l.rank = hs.map l.rank := by
    rw [List.map_set, same, ← List.getElem_map l.rank (h := by simpa using inside),
      List.set_getElem_self]
  rw [Rises, ← List.pairwise_map (R := (· < ·)), ranks, List.pairwise_map]
  exact rises

/-! ## Trees in order -/

/-- Every live node of `t` has been entered, and the ranks rise along all child lists. -/
structure Dates (l : Ledger) (t : Tree α) : Prop where
  tidy : t.arena.Tidy
  entered : ∀ h, t.contains h = true → l.rank h < l.clock
  linked : ∀ h n, t.node? h = some n → ∀ c ∈ n.children, t.contains c = true
  rises : ∀ h n, t.node? h = some n → l.Rises n.children

theorem Dates.ne_fresh (dates : l.Dates t) (live : t.contains h = true) : h ≠ t.arena.fresh := by
  rintro rfl
  exact Arena.not_contains_iff.mpr dates.tidy.get?_fresh live

/-- A childless node is stored and gets a rank, which no other node gets. -/
theorem Dates.allocate (dates : l.Dates t) {m : Ledger}
    (others : ∀ k, k ≠ t.arena.fresh → m.rank k = l.rank k) (later : l.clock ≤ m.clock)
    (new : m.rank t.arena.fresh < m.clock) (x : α) (q : Option Handle) :
    m.Dates { t with arena := t.arena.allocate ⟨x, q, []⟩ } := by
  have leaf := dates.tidy.get?_allocate_self (a := t.arena) ⟨x, q, []⟩
  have other : ∀ {k}, k ≠ t.arena.fresh →
      (t.arena.allocate ⟨x, q, []⟩).get? k = t.arena.get? k :=
    fun apart => dates.tidy.get?_allocate_of_ne apart _
  refine ⟨dates.tidy.allocate _, fun h live => ?_, fun h n stored c child => ?_,
    fun h n stored => ?_⟩
  · by_cases same : h = t.arena.fresh
    · rw [same]
      exact new
    · have before : t.contains h = true := by
        rw [Tree.contains, Arena.contains, ← other same]
        exact live
      rw [others h same]
      exact Nat.lt_of_lt_of_le (dates.entered h before) later
  · by_cases same : h = t.arena.fresh
    · subst same
      cases stored.symm.trans leaf
      cases child
    · rw [Tree.node?, other same] at stored
      exact dates.tidy.contains_allocate (dates.linked h n stored c child) _
  · by_cases same : h = t.arena.fresh
    · subst same
      cases stored.symm.trans leaf
      exact List.Pairwise.nil
    · rw [Tree.node?, other same] at stored
      refine (dates.rises h n stored).congr fun k child => others k ?_
      exact dates.ne_fresh (dates.linked h n stored k child)

theorem Dates.updateChildren (dates : l.Dates t) (live : t.node? p = some n)
    {change : List Handle → List Handle}
    (linked : ∀ c ∈ change n.children, t.contains c = true) (rises : l.Rises (change n.children)) :
    l.Dates (t.updateChildren p change) := by
  have same : ∀ k, (t.updateChildren p change).contains k = t.contains k :=
    Arena.contains_modify t.arena p _
  have here : (t.updateChildren p change).node? p =
      some { n with children := change n.children } := by
    rw [Tree.node?] at live ⊢
    exact (Arena.get?_modify_self ..).trans (by rw [live]; rfl)
  have other : ∀ {k}, k ≠ p → (t.updateChildren p change).node? k = t.node? k :=
    fun apart => Arena.get?_modify_of_ne apart _
  refine ⟨dates.tidy.modify .., fun h inside => ?_, fun h m stored c child => ?_,
    fun h m stored => ?_⟩
  · rw [same] at inside
    exact dates.entered h inside
  · rw [same]
    by_cases apart : h = p
    · subst apart
      cases stored.symm.trans here
      exact linked c child
    · rw [other apart] at stored
      exact dates.linked h m stored c child
  · by_cases apart : h = p
    · subst apart
      cases stored.symm.trans here
      exact rises
    · rw [other apart] at stored
      exact dates.rises h m stored

/-- A new node at the end of a child list is the one entered last. -/
theorem Dates.attach (dates : l.Dates t) (live : t.node? p = some n) (x : α) :
    (l.enter t.arena.fresh).Dates (t.attach p n.children.length x) := by
  have allocated := dates.allocate (m := l.enter t.arena.fresh)
    (fun k other => rank_enter_of_ne other l) (Nat.le_succ _)
    (by rw [rank_enter_self]; exact Nat.lt_succ_self _) x (some p)
  have apart := dates.ne_fresh (Arena.contains_iff.mpr ⟨n, live⟩)
  have stored : Tree.node? { t with arena := t.arena.allocate ⟨x, some p, []⟩ } p = some n :=
    (dates.tidy.get?_allocate_of_ne apart _).trans live
  have old : ∀ c ∈ n.children, t.contains c = true := dates.linked p n live
  rw [Tree.attach]
  apply allocated.updateChildren stored
  · intro c listed
    rw [Nat.min_self, List.insertIdx_length_self, List.mem_append, List.mem_singleton] at listed
    rcases listed with before | rfl
    · exact dates.tidy.contains_allocate (old c before) _
    · exact Arena.contains_iff.mpr ⟨_, dates.tidy.get?_allocate_self _⟩
  · rw [Nat.min_self, List.insertIdx_length_self]
    refine Rises.append_last (allocated.rises p n stored) fun c child => ?_
    rw [rank_enter_self, rank_enter_of_ne (dates.ne_fresh (old c child))]
    exact dates.entered c (old c child)

/-! ## Insertion and copies -/

/-- From `t` to `t'` just the nodes of `created` have been stored, one after the other. -/
structure Enters (l : Ledger) (t : Tree α) (created : List Handle) (t' : Tree α) : Prop where
  dates : (l.enterAll created).Dates t'
  fresh : ∀ h ∈ created, ¬t.contains h = true
  contains_iff : ∀ h, t'.contains h = true ↔ t.contains h = true ∨ h ∈ created
  policy_eq : t'.policy = t.policy

theorem Dates.enters_nil (dates : l.Dates t) : l.Enters t [] t :=
  ⟨dates, nofun, fun _ => (or_iff_left List.not_mem_nil).symm, rfl⟩

theorem Enters.trans (first : l.Enters t hs t') (second : (l.enterAll hs).Enters t' ks t'') :
    l.Enters t (hs ++ ks) t'' where
  dates := by
    rw [enterAll_append]
    exact second.dates
  fresh h new live := by
    rcases List.mem_append.mp new with early | late
    · exact first.fresh h early live
    · exact second.fresh h late ((first.contains_iff h).mpr (.inl live))
  contains_iff h := by
    rw [second.contains_iff, first.contains_iff, List.mem_append, or_assoc]
  policy_eq := second.policy_eq.trans first.policy_eq

theorem Dates.enters_attach (dates : l.Dates t) (live : t.node? p = some n) (x : α) :
    l.Enters t [t.arena.fresh] (t.attach p n.children.length x) where
  dates := dates.attach live x
  fresh h new before := dates.ne_fresh before (List.mem_singleton.mp new)
  contains_iff h := by
    have same : (t.attach p n.children.length x).contains h =
        (t.arena.allocate ⟨x, some p, []⟩).contains h := Arena.contains_modify ..
    rw [same, dates.tidy.contains_allocate_iff, List.mem_singleton]
    rfl
  policy_eq := rfl

/-- A policy that appends puts a new child last. -/
theorem Dates.insert_of_append (dates : l.Dates t) (appends : t.policy.place = Policy.append)
    (live : t.node? p = some n) (x : α) :
    t.insert p x = (t.attach p n.children.length x).answer t.arena.fresh := by
  have valued : (t.valuesAt n.children).length = n.children.length := by
    rw [Tree.valuesAt, List.filterMap_length_eq_length]
    intro c child
    rw [Option.isSome_map]
    exact dates.linked p n live c child
  rw [Tree.insert, Tree.node, live, Tree.require_ok, appends, Policy.append, valued]

theorem Dates.enters_insert (dates : l.Dates t) (appends : t.policy.place = Policy.append) {x : α}
    {new : Handle} (done : (t.insert p x).outcome = .done new) :
    l.Enters t [new] (t.insert p x).tree := by
  cases live : t.node? p with
  | none =>
    rw [Tree.insert, Tree.node, live] at done
    cases done
  | some n =>
    rw [dates.insert_of_append appends live] at done ⊢
    cases done
    exact dates.enters_attach live x

/-- The copies of one level are stored in the order in which they are answered. -/
theorem Dates.enters_copyLevel (dates : l.Dates t) (appends : t.policy.place = Policy.append)
    (source : Tree α) (parent dest : Handle) (hs : List Handle) {copies : List (Handle × Handle)}
    (done : (Tree.copyLevel source parent dest hs t).outcome = .done copies) :
    l.Enters t (copies.map Prod.snd) (Tree.copyLevel source parent dest hs t).tree := by
  induction hs generalizing t l copies with
  | nil =>
    cases done
    exact dates.enters_nil
  | cons h hs ih =>
    rw [Tree.copyLevel] at done ⊢
    cases valued : source.value h with
    | error e =>
      rw [valued] at done
      cases done
    | ok x =>
      rw [valued, Tree.require_ok] at done
      rw [Tree.require_ok]
      cases live : t.node? dest with
      | none =>
        rw [Tree.insert, Tree.node, live] at done
        cases done
      | some n =>
        rw [dates.insert_of_append appends live, Tree.mapError_answer, Tree.andThen_answer,
          Tree.andThen_restate] at done ⊢
        obtain ⟨rest, last, rfl⟩ := Outcome.map_eq_done.mp done
        have first := dates.enters_attach live x
        exact first.trans (ih first.dates (by rwa [first.policy_eq]) last)

end Ledger

namespace Tree

variable {α : Type}

/-- The nodes that copying the pending ones stores, in the order in which it stores them. -/
def createdPending (source : Tree α) : Nat → List (Handle × Handle) → Tree α → List Handle
  | 0, _, _ => []
  | _, [], _ => []
  | bound + 1, (h, dest) :: pending, t =>
    match source.node? h with
    | none => []
    | some n =>
      let level := copyLevel source h dest n.children t
      match level.outcome with
      | .done copies =>
        copies.map Prod.snd ++ createdPending source bound (copies.reverse ++ pending) level.tree
      | _ => []

/-- The nodes that a copy of everything strictly below `h` stores if it succeeds, in order. -/
def createdBelow (t source : Tree α) (h dest : Handle) : List Handle :=
  createdPending source source.len [(h, dest)] t

end Tree

namespace Ledger

variable {α : Type} {l : Ledger} {t : Tree α}

theorem Dates.enters_copyPending (dates : l.Dates t) (appends : t.policy.place = Policy.append)
    (source : Tree α) (bound : Nat) (pending : List (Handle × Handle)) (copied : Nat) {m : Nat}
    (done : (Tree.copyPending source bound pending copied t).outcome = .done m) :
    l.Enters t (Tree.createdPending source bound pending t)
      (Tree.copyPending source bound pending copied t).tree := by
  -- One round stores a level, and the rounds that follow begin with its entries in the ledger.
  induction bound generalizing pending copied t l with
  | zero => exact dates.enters_nil
  | succ bound ih =>
    match pending with
    | [] => exact dates.enters_nil
    | (h, dest) :: pending =>
      rw [Tree.copyPending] at done ⊢
      rw [Tree.createdPending]
      cases live : source.node? h with
      | none =>
        rw [Tree.node, live] at done
        cases done
      | some n =>
        rw [Tree.node, live, Tree.require_ok] at done ⊢
        dsimp only at done ⊢
        cases level : (Tree.copyLevel source h dest n.children t).outcome with
        | refused e =>
          rw [Tree.andThen_of_refused level] at done
          cases done
        | halted =>
          rw [Reply.andThen, level] at done
          cases done
        | done copies =>
          have first := dates.enters_copyLevel appends source h dest n.children level
          rw [Tree.andThen_of_done level] at done ⊢
          exact first.trans (ih first.dates (by rwa [first.policy_eq]) _ _ done)

/-- A copy that succeeds stores just these nodes, in this order. -/
theorem Dates.enters_copyBelow (dates : l.Dates t) (appends : t.policy.place = Policy.append)
    (source : Tree α) (h dest : Handle) {m : Nat}
    (done : (t.copyBelow source h dest).outcome = .done m) :
    l.Enters t (t.createdBelow source h dest) (t.copyBelow source h dest).tree :=
  dates.enters_copyPending appends source source.len _ 0 done

end Ledger

end PolicyTree
