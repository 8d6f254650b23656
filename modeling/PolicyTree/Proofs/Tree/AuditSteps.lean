import PolicyTree.Proofs.Tree.Validity

/-! The check of a tree step by step: whatever the links, it comes to an end and puts few handles on
its agenda. -/

namespace PolicyTree

/-- Where a check stands: not begun, about to take the next node from the agenda, among the children
`listed` of `h` with some `left` to look at, or over. -/
inductive Stage where
  | opening
  | between (a : Agenda)
  | listing (h : Handle) (listed left : List Handle) (a : Agenda)
  | ended (found : Finding)
deriving DecidableEq

namespace Stage

/-- How many handles were put on the agenda so far. -/
def placed : Stage → Nat
  | opening => 0
  | between a | listing _ _ _ a => a.placed
  | ended found => found.agenda.placed

/-- A bound on the steps to come if there are `len` nodes: a node that is yet to be taken costs two,
one to begin and one to end its list, and a handle that is yet to be placed costs one. -/
def effort (len : Nat) : Stage → Nat
  | opening => 3 * len + 4
  | between a => 2 * (len + 1 - a.reached) + (len + 1 - a.placed) + 1
  | listing _ _ _ a => 2 * (len + 1 - a.reached) + (len + 1 - a.placed) + 2
  | ended _ => 0

end Stage

namespace Tree

variable {α : Type} {t : Tree α} {s : Stage} {h : Handle} {hs cs : List Handle} {a : Agenda}
  {found : Finding}

/-! ## One step -/

/-- A step of the check, with the handles that it puts on the agenda. -/
def checkStep (t : Tree α) : Stage → List Handle × Stage
  | .opening =>
    match t.root with
    | none => ([], .ended ⟨⟨0, []⟩, if t.len = 0 then none else some (.nodesWithoutRoot t.len)⟩)
    | some r =>
      match t.node? r with
      | none => ([], .ended ⟨⟨0, []⟩, some (.invalidHandle r)⟩)
      | some n =>
        if n.parent.isSome then ([], .ended ⟨⟨0, []⟩, some .rootHasParent⟩)
        else ([r], .between ⟨0, [r]⟩)
  | .between ⟨reached, []⟩ =>
    ([], .ended ⟨⟨reached, []⟩, if reached = t.len then none else some (.unreachable reached t.len)⟩)
  | .between ⟨reached, h :: pending⟩ =>
    match t.node? h with
    | none => ([], .ended ⟨⟨reached + 1, pending⟩, some (.invalidHandle h)⟩)
    | some n => ([], .listing h n.children n.children ⟨reached + 1, pending⟩)
  | .listing h hs [] a =>
    match t.siblingFault h hs with
    | none => ([], .between a)
    | some e => ([], .ended ⟨a, some e⟩)
  | .listing h hs (c :: cs) a =>
    match t.node? c with
    | none => ([], .ended ⟨a, some (.invalidHandle c)⟩)
    | some n =>
      if n.parent ≠ some h then ([], .ended ⟨a, some (.strayChild c h)⟩)
      else if t.len < a.placed then ([], .ended ⟨a, some (.listedTwice c)⟩)
      else ([c], .listing h hs cs { a with pending := c :: a.pending })
  | .ended found => ([], .ended found)

/-- What a step from `s` does: what it places is counted, the agenda keeps within its room, and the
effort falls unless the check is over. -/
structure Advances (t : Tree α) (s : Stage) (next : List Handle × Stage) : Prop where
  placed_eq : next.2.placed = s.placed + next.1.length
  placed_le : next.2.placed ≤ t.len + 1
  effort_lt : next.2.effort t.len < s.effort t.len ∨ ∃ found, s = .ended found

theorem advances_ended (fits : s.placed ≤ t.len + 1) (same : found.agenda.placed = s.placed)
    (under : 0 < s.effort t.len) : t.Advances s ([], .ended found) where
  placed_eq := same
  placed_le := same.trans_le fits
  effort_lt := .inl under

theorem checkStep_advances (t : Tree α) (fits : s.placed ≤ t.len + 1) :
    t.Advances s (t.checkStep s) := by
  cases s with
  | opening =>
    have under : 0 < Stage.opening.effort t.len := Nat.succ_pos _
    rw [checkStep]
    cases t.root with
    | none => exact advances_ended fits rfl under
    | some r =>
      dsimp only
      cases t.node? r with
      | none => exact advances_ended fits rfl under
      | some n =>
        dsimp only
        split_ifs with hangs
        · exact advances_ended fits rfl under
        · refine ⟨rfl, Nat.le_add_left 1 t.len, .inl ?_⟩
          simp only [Stage.effort, Agenda.placed, List.length_singleton]
          omega
  | between a =>
    have under : 0 < (Stage.between a).effort t.len := Nat.succ_pos _
    obtain ⟨reached, _ | ⟨h, pending⟩⟩ := a
    · exact advances_ended fits rfl under
    · -- A node that is taken still counts as placed.
      have count : Agenda.placed ⟨reached + 1, pending⟩ = Agenda.placed ⟨reached, h :: pending⟩ := by
        simp only [Agenda.placed, List.length_cons]
        omega
      rw [checkStep]
      cases t.node? h with
      | none => exact advances_ended fits count under
      | some n =>
        refine ⟨count, count.trans_le fits, .inl ?_⟩
        simp only [Stage.placed, Stage.effort, Agenda.placed, List.length_cons] at fits ⊢
        omega
  | listing h hs left a =>
    have under : 0 < (Stage.listing h hs left a).effort t.len := Nat.succ_pos _
    cases left with
    | nil =>
      rw [checkStep]
      cases t.siblingFault h hs with
      | none => exact ⟨rfl, fits, .inl (Nat.lt_succ_self _)⟩
      | some e => exact advances_ended fits rfl under
    | cons c cs =>
      rw [checkStep]
      cases t.node? c with
      | none => exact advances_ended fits rfl under
      | some n =>
        dsimp only
        split_ifs with stray full
        · exact advances_ended fits rfl under
        · exact advances_ended fits rfl under
        · simp only [Agenda.placed] at full
          refine ⟨?_, ?_, .inl ?_⟩
          all_goals
            simp only [Stage.placed, Stage.effort, Agenda.placed, List.length_cons, List.length_nil]
            omega
  | ended found => exact ⟨rfl, fits, .inr ⟨found, rfl⟩⟩

/-! ## All steps -/

/-- What `k` steps from a stage place, one by one, and where they lead. -/
def checkSteps (t : Tree α) : Nat → Stage → List Handle × Stage
  | 0, s => ([], s)
  | k + 1, s =>
    let next := t.checkStep s
    let later := t.checkSteps k next.2
    (next.1 ++ later.1, later.2)

theorem checkSteps_placed (fits : s.placed ≤ t.len + 1) (k : Nat) :
    (t.checkSteps k s).2.placed = s.placed + (t.checkSteps k s).1.length ∧
      (t.checkSteps k s).2.placed ≤ t.len + 1 := by
  induction k generalizing s with
  | zero => exact ⟨rfl, fits⟩
  | succ k ih =>
    have step := t.checkStep_advances fits
    obtain ⟨count, within⟩ := ih step.placed_le
    rw [step.placed_eq, Nat.add_assoc, ← List.length_append] at count
    exact ⟨count, within⟩

theorem checkSteps_ended (t : Tree α) (found : Finding) (k : Nat) :
    t.checkSteps k (.ended found) = ([], .ended found) := by
  induction k with
  | zero => rfl
  | succ k ih => rw [checkSteps, checkStep, ih, List.append_nil]

theorem checkSteps_ends (fits : s.placed ≤ t.len + 1) {k : Nat} (enough : s.effort t.len ≤ k) :
    ∃ found, (t.checkSteps k s).2 = .ended found := by
  induction k generalizing s with
  | zero =>
    rcases (t.checkStep_advances fits).effort_lt with falls | ⟨found, rfl⟩
    · omega
    · exact ⟨found, rfl⟩
  | succ k ih =>
    have step := t.checkStep_advances fits
    rcases step.effort_lt with falls | ⟨found, rfl⟩
    · exact ih step.placed_le (by omega)
    · rw [checkSteps_ended]
      exact ⟨found, rfl⟩

/-! ## The check that runs -/

/-- The steps from a stage lead to the finding. -/
inductive Ends (t : Tree α) : Stage → Finding → Prop where
  | ended (found : Finding) : Ends t (.ended found) found
  | step {s : Stage} {found : Finding} (onward : Ends t (t.checkStep s).2 found) : Ends t s found

theorem Ends.eq_of_checkSteps (ends : t.Ends s found) {k : Nat} {other : Finding}
    (reached : (t.checkSteps k s).2 = .ended other) : other = found := by
  induction ends generalizing k with
  | ended found =>
    rw [checkSteps_ended] at reached
    cases reached
    rfl
  | @step s found _ ih =>
    cases k with
    | zero =>
      change s = .ended other at reached
      subst reached
      exact ih (k := 0) rfl
    | succ k => exact ih reached

/-- The finding is there after as many steps as the stage asks for, and its agenda keeps within its
room. -/
theorem Ends.run (ends : t.Ends s found) (fits : s.placed ≤ t.len + 1) {enough : Nat}
    (bound : s.effort t.len ≤ enough) :
    (∀ k, (t.checkSteps (enough + k) s).2 = .ended found) ∧ found.agenda.placed ≤ t.len + 1 := by
  have reached : ∀ k, (t.checkSteps (enough + k) s).2 = .ended found := by
    intro k
    obtain ⟨other, reached⟩ := t.checkSteps_ends fits (bound.trans (Nat.le_add_right enough k))
    rw [reached, ends.eq_of_checkSteps reached]
  have within := (checkSteps_placed fits enough).2
  rw [← Nat.add_zero enough, reached 0] at within
  exact ⟨reached, within⟩

/-- Where the steps through the children left to look at lead. -/
def afterListing (t : Tree α) (h : Handle) (hs left : List Handle) (a : Agenda) : Stage :=
  let listed := t.enlist h left a
  match listed.fault.or (t.siblingFault h hs) with
  | some e => .ended { listed with fault := some e }
  | none => .between listed.agenda

theorem ends_listing (onward : t.Ends (t.afterListing h hs cs a) found) :
    t.Ends (.listing h hs cs a) found := by
  induction cs generalizing a with
  | nil =>
    refine .step ?_
    rw [afterListing, enlist, Option.none_or] at onward
    rw [checkStep]
    cases fault : t.siblingFault h hs with
    | none => rwa [fault] at onward
    | some e => rwa [fault] at onward
  | cons c cs ih =>
    refine .step ?_
    rw [afterListing, enlist] at onward
    rw [checkStep]
    cases live : t.node? c with
    | none => rwa [live] at onward
    | some n =>
      rw [live] at onward
      dsimp only at onward ⊢
      split_ifs at onward ⊢ with stray full
      · exact onward
      · exact onward
      · exact ih onward

theorem ends_between {bound : Nat} (rounds : t.auditRounds bound a = some found) :
    t.Ends (.between a) found := by
  induction bound generalizing a with
  | zero => cases rounds
  | succ bound ih =>
    refine .step ?_
    obtain ⟨reached, _ | ⟨h, pending⟩⟩ := a
    · rw [auditRounds_nil] at rounds
      cases rounds
      exact .ended _
    · rw [auditRounds] at rounds
      rw [checkStep]
      cases live : t.node? h with
      | none =>
        rw [live] at rounds
        cases rounds
        exact .ended _
      | some n =>
        rw [live] at rounds
        dsimp only at rounds ⊢
        apply ends_listing
        rw [afterListing]
        cases fault : (t.enlist h n.children ⟨reached + 1, pending⟩).fault.or
            (t.siblingFault h n.children) with
        | none =>
          rw [fault] at rounds
          exact ih rounds
        | some e =>
          rw [fault] at rounds
          cases rounds
          exact .ended _

/-- The steps lead to what the check answers. -/
theorem exists_ends (t : Tree α) :
    ∃ found, t.Ends .opening found ∧ t.check = found.fault.elim (.ok ()) .error := by
  cases root : t.root with
  | none =>
    let fault : Option TreeError := if t.len = 0 then none else some (.nodesWithoutRoot t.len)
    refine ⟨⟨⟨0, []⟩, fault⟩, .step ?_, ?_⟩
    · rw [checkStep, root]
      exact .ended _
    · rw [check, root]
      by_cases vacant : t.len = 0 <;> simp [fault, vacant]
  | some r =>
    cases live : t.node? r with
    | none =>
      refine ⟨⟨⟨0, []⟩, some (.invalidHandle r)⟩, .step ?_, ?_⟩
      · rw [checkStep, root]
        dsimp only
        rw [live]
        exact .ended _
      · simp [check, root, node, live, bind, Except.bind]
    | some n =>
      cases top : n.parent with
      | some p =>
        refine ⟨⟨⟨0, []⟩, some .rootHasParent⟩, .step ?_, ?_⟩
        · simp only [checkStep, root, live, top, Option.isSome_some, if_true]
          exact .ended _
        · simp [check, root, node, live, top, bind, Except.bind, throw, throwThe,
            MonadExceptOf.throw]
      | none =>
        obtain ⟨found, audited⟩ := Option.ne_none_iff_exists'.mp (t.audit_ne_none r)
        refine ⟨found, .step ?_, ?_⟩
        · simp only [checkStep, root, live, top, Option.isSome_none, Bool.false_eq_true, if_false]
          exact ends_between audited
        · cases fault : found.fault with
          | none => exact (check_of_root root live top).mpr (by rw [audited]; exact fault)
          | some e => exact check_of_fault root live top (by rw [audited]; exact fault)

/-! ## Main result -/

/-- Whatever the root, the parent links and the lists of children are, the check ends, after as many
steps as `3 * t.len + 4`, and all its steps together put no more handles on the agenda than there are
nodes and one more. Its audit, begun at whatever handle, ends with the finding of the steps. -/
theorem check_places_few (t : Tree α) :
    (∃ found, (∀ k, (t.checkSteps (3 * t.len + 4 + k) .opening).2 = .ended found) ∧
      t.check = found.fault.elim (.ok ()) .error ∧
      ∀ k, (t.checkSteps k .opening).1.length ≤ t.len + 1) ∧
    ∀ r, ∃ found, t.audit r = some found ∧ found.agenda.placed ≤ t.len + 1 ∧
      ∀ k, (t.checkSteps (3 * t.len + 3 + k) (.between ⟨0, [r]⟩)).2 = .ended found := by
  refine ⟨?_, fun r => ?_⟩
  · have fits : Stage.opening.placed ≤ t.len + 1 := Nat.zero_le _
    obtain ⟨found, ends, answered⟩ := t.exists_ends
    refine ⟨found, (ends.run fits le_rfl).1, answered, fun k => ?_⟩
    obtain ⟨count, within⟩ := checkSteps_placed fits k
    rw [count] at within
    exact (Nat.le_add_left ..).trans within
  · have fits : (Stage.between ⟨0, [r]⟩).placed ≤ t.len + 1 := Nat.le_add_left 1 t.len
    have bound : (Stage.between ⟨0, [r]⟩).effort t.len ≤ 3 * t.len + 3 := by
      simp only [Stage.effort, Agenda.placed, List.length_singleton]
      omega
    obtain ⟨found, audited⟩ := Option.ne_none_iff_exists'.mp (t.audit_ne_none r)
    obtain ⟨reached, within⟩ := (ends_between audited).run fits bound
    exact ⟨found, audited, within, reached⟩

/-- The root lists one of its two children nine times, and the other not at all. -/
example : (((Tree.sample .insertionOrder).updateChildren ⟨1, 0, 0⟩ fun _ =>
    List.replicate 9 ⟨1, 1, 0⟩).checkSteps 13 .opening).1 =
      [⟨1, 0, 0⟩, ⟨1, 1, 0⟩, ⟨1, 1, 0⟩, ⟨1, 1, 0⟩] := by decide +kernel

end Tree

end PolicyTree
