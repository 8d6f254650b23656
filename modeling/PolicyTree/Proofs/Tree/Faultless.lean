import PolicyTree.Proofs.Tree.Conduct

/-! What callers can rely on of every public operation that may fail or consults the policy. -/

namespace PolicyTree

variable {α β : Type}

/-- An operation with its arguments; `β` is the type of its answers. -/
inductive Call (α : Type) : Type → Type where
  | edit (e : Edit (Tree α) α) : Call α (Answer α)
  | extract (h : Handle) (policy : Policy α) (owners : Owners) : Call α (Tree α)
  | clone (owners : Owners) : Call α (Tree α)
  | value (h : Handle) : Call α α
  | parent (h : Handle) : Call α (Option Handle)
  | children (h : Handle) : Call α (List Handle)
  | childCount (h : Handle) : Call α Nat
  | isLeaf (h : Handle) : Call α Bool
  | depth (h : Handle) : Call α Nat
  | ancestors (h : Handle) : Call α (List (Handle × α))
  | childrenOf (h : Handle) : Call α (ChildCursor α)
  | preOrderFrom (h : Handle) : Call α (List (Visit α))
  | leavesFrom (h : Handle) : Call α (List (Visit α))
  | find (target : α) : Call α (Option Handle)
  | findItem (target : α) : Call α Handle
  | check : Call α Unit

namespace Call

/-- The handles that the call is given are live, each in the tree that it is meant for. -/
def Live (t : Tree α) : Call α β → Prop
  | edit e => e.Live t
  | extract h _ _ | value h | parent h | children h | childCount h | isLeaf h | depth h
  | ancestors h | childrenOf h | preOrderFrom h | leavesFrom h => t.contains h = true
  | clone _ | find _ | findItem _ | check => True

/-- The other tree that the call copies from. -/
def source? : Call α β → Option (Tree α)
  | edit e => e.source?
  | _ => none

def isCheck : Call α β → Bool
  | check => true
  | _ => false

end Call

namespace Tree

open Forest

variable {t : Tree α} {f : Forest α}

/-! ## Calls -/

/-- Puts a question to the tree, which stays as it is. -/
def ask (t : Tree α) (question : Except TreeError β) : Reply α β := t.require question t.answer

def call (t : Tree α) : Call α β → Reply α β
  | .edit e => t.perform e
  | .extract h policy owners => ⟨(t.extract h policy owners).1, t⟩
  | .clone owners => t.answer (t.clone owners).1
  | .value h => t.ask (t.value h)
  | .parent h => t.ask (t.parent h)
  | .children h => t.ask (t.children h)
  | .childCount h => t.ask (t.childCount h)
  | .isLeaf h => t.ask (t.isLeaf h)
  | .depth h => t.ask (t.depth h)
  | .ancestors h => t.ask (t.ancestors h)
  | .childrenOf h => t.ask (t.childrenOf h)
  | .preOrderFrom h => t.ask (t.preOrderFrom h)
  | .leavesFrom h => t.ask (t.leavesFrom h)
  | .find target => t.answer (t.find target)
  | .findItem target => t.ask (t.findItem target)
  | .check => t.ask t.check

/-- Only what changes a child list or consults the policy has anything to guard. -/
def Guarded.call (t : Tree α) : Call α β → Reply α β
  | .edit e => perform t e
  | .extract h policy owners => ⟨(extract t h policy owners).1, t⟩
  | .clone owners => ⟨(clone t owners).1, t⟩
  | .find target => find t target
  | .findItem target =>
    (find t target).andThen fun found t => t.ask (found.elim (.error .notFound) .ok)
  | .check => check t
  | c => t.call c

theorem Shows.guarded_call (shows : t.Shows f) (c : Call α β) : Guarded.call t c = t.call c := by
  cases c with
  | edit e => exact shows.guarded_perform e
  | extract h policy owners => rw [Guarded.call, call, guarded_extract]
  | clone owners =>
    rw [Guarded.call, call, guarded_clone]
    rfl
  | find target => exact shows.guarded_find target
  | findItem target =>
    rw [Guarded.call, call, shows.guarded_find, andThen_answer, findItem]
    cases t.find target <;> rfl
  | check => exact shows.guarded_check
  | _ => rfl

/-! ## Ends of calls -/

theorem orderly_ask {h : Handle} {question : Except TreeError β} (needs : t.Needs h question) :
    (t.ask question).outcome.Orderly (t.contains h = true) :=
  orderly_require needs id fun _ _ => trivial

/-- The check passes, or finds that a keyed policy that does not come with the library would not
place siblings as they stand. -/
theorem Shows.call_check_cases (shows : t.Shows f)
    (ordered : ∀ cmp, t.policy.SortsBy cmp → f.Ordered cmp) :
    t.call .check = t.answer () ∨
      t.policy.keyed = true ∧ ¬t.policy.BuiltIn ∧
        ∃ i h, t.call .check = t.refuse (.siblingOrder i h) := by
  rw [call, ask]
  rcases shows.check_cases with passed | ⟨h, n, e, live, fault, failed⟩
  · left
    rw [passed, require_ok]
  · obtain ⟨keyed, i, rfl⟩ := shows.rooted.exists_siblingOrder live fault
    refine .inr ⟨keyed, fun builtIn => ?_, i, h, ?_⟩
    · rw [shows.siblingFault_eq_none builtIn ordered live] at fault
      cases fault
    · rw [failed, require_error]

/-- Every call but that check ends in order. -/
theorem Shows.call_cases (shows : t.Shows f) (inRange : t.policy.InRange)
    (ordered : ∀ cmp, t.policy.SortsBy cmp → f.Ordered cmp) (c : Call α β) :
    (t.call c).outcome.Orderly (c.Live t ∧ ∀ source ∈ c.source?, ∃ g, source.Shows g) ∨
      c.isCheck = true ∧ t.policy.keyed = true ∧ ¬t.policy.BuiltIn ∧
        ∃ i h, (t.call c).outcome = .refused (.siblingOrder i h) := by
  have needs : ∀ h {γ : Type} (k : Node α → γ), t.Needs h ((t.node h).map k) :=
    fun h _ k => (t.needs_node h).map k
  cases c with
  | edit e => exact .inl (shows.orderly_perform inRange e)
  | extract h policy owners => exact .inl ((shows.orderly_extract h policy owners).mono And.left)
  | clone owners => exact .inl trivial
  | value h => exact .inl ((orderly_ask (needs h _)).mono And.left)
  | parent h => exact .inl ((orderly_ask (needs h _)).mono And.left)
  | children h => exact .inl ((orderly_ask (needs h _)).mono And.left)
  | childCount h => exact .inl ((orderly_ask ((needs h _).map _)).mono And.left)
  | isLeaf h => exact .inl ((orderly_ask ((needs h _).map _)).mono And.left)
  | depth h => exact .inl ((orderly_ask (((needs h _).map _).map _)).mono And.left)
  | ancestors h => exact .inl ((orderly_ask ((needs h _).map _)).mono And.left)
  | childrenOf h => exact .inl ((orderly_ask ((needs h _).map _)).mono And.left)
  | preOrderFrom h => exact .inl ((orderly_ask ((needs h _).map _)).mono And.left)
  | leavesFrom h => exact .inl ((orderly_ask (((needs h _).map _).map _)).mono And.left)
  | find target => exact .inl trivial
  | findItem target =>
    left
    rw [call, findItem]
    cases t.find target <;> trivial
  | check =>
    rcases shows.call_check_cases ordered with passed | ⟨keyed, foreign, i, h, failed⟩
    · left
      rw [passed]
      trivial
    · refine .inr ⟨rfl, keyed, foreign, i, h, ?_⟩
      rw [failed]
      rfl

/-! ## Reachable trees -/

/-- What calls on the tree can be relied on for, whatever their arguments are. -/
structure Faultless (t : Tree α) : Prop where
  /-- No guard makes a difference to what a call answers and leaves. -/
  guarded : ∀ {β : Type} (c : Call α β), Guarded.call t c = t.call c
  completes : ∀ {β : Type} (c : Call α β), (t.call c).outcome ≠ .halted
  /-- Only a check reports damage, and only siblings that a caller's keyed policy would now place
  elsewhere. -/
  intact : ∀ {β : Type} (c : Call α β) details,
    (t.call c).outcome = .refused (.corruptedTree details) →
      c.isCheck = true ∧ t.policy.keyed = true ∧ ¬t.policy.BuiltIn ∧
        ∃ i h, TreeError.corruptedTree details = .siblingOrder i h
  passes : t.policy.BuiltIn ∨ t.policy.keyed = false → t.check = .ok ()
  /-- No call blames a handle if it is given live ones only. -/
  resolves : ∀ {β : Type} (c : Call α β), c.Live t →
    (∀ source ∈ c.source?, source.Reachable ∧ source.policy.InRange) →
      ∀ h, (t.call c).outcome ≠ .refused (.invalidHandle h)

/-- A reachable tree is faultless under every policy that, if keyed, places values within the
siblings it is shown; the built-in policies do. -/
theorem Reachable.faultless (reached : t.Reachable) (inRange : t.policy.InRange) : t.Faultless := by
  obtain ⟨f, shows, ordered⟩ := reached.exists_forest inRange
  refine ⟨shows.guarded_call, fun c => ?_, fun c details refused => ?_, fun settled => ?_,
    fun c isLive sources h => ?_⟩
  · rcases shows.call_cases inRange ordered c with orderly | ⟨-, -, -, i, k, fault⟩
    · exact orderly.ne_halted
    · rw [fault]
      exact nofun
  · rcases shows.call_cases inRange ordered c with orderly | ⟨isCheck, keyed, foreign, i, k, fault⟩
    · exact absurd refused (orderly.ne_corrupted details)
    · rw [fault] at refused
      exact ⟨isCheck, keyed, foreign, i, k, (Outcome.refused.inj refused).symm⟩
  · apply shows.check_eq_ok
    intro h n live
    rcases settled with builtIn | unkeyed
    · exact shows.siblingFault_eq_none builtIn ordered live
    · exact siblingFault_of_unkeyed unkeyed h n.children
  · rcases shows.call_cases inRange ordered c with orderly | ⟨-, -, -, i, k, fault⟩
    · refine orderly.ne_invalidHandle ⟨isLive, fun source given => ?_⟩ h
      obtain ⟨reached', inRange'⟩ := sources source given
      exact (reached'.exists_forest inRange').imp fun _ => And.left
    · rw [fault]
      exact nofun

/-- A keyed policy that places every value at the same index. -/
def fixedPlace (i : Nat) : Policy Nat where
  name := "FixedPlace"
  keyed := true
  place _ _ := .before i
  agrees := (· == ·)
  descend _ _ := .each

/-- Under a caller's policy that puts new children first, a check finds them in a wrong order, but
they can be edited like others. -/
theorem faultless_sample :
    (Tree.sample .naturalOrder).check = .ok () ∧
      (∀ h, ((Tree.sample .naturalOrder).call (.edit (.replaceSubtree ⟨1, 1, 0⟩
        (Tree.sample (fixedPlace 0))))).outcome ≠ .refused (.invalidHandle h)) ∧
      (Tree.sample (fixedPlace 0)).check = .error (.siblingOrder 1 ⟨1, 0, 0⟩) ∧
      Guarded.call (Tree.sample (fixedPlace 0)) (.edit (.replaceValue ⟨1, 1, 0⟩ 4)) =
        (Tree.sample (fixedPlace 0)).call (.edit (.replaceValue ⟨1, 1, 0⟩ 4)) ∧
      ∀ details, ((Tree.sample (fixedPlace 0)).call .check).outcome =
        .refused (.corruptedTree details) →
          ∃ i h, TreeError.corruptedTree details = .siblingOrder i h := by
  have builtIn : (Tree.sample .naturalOrder).policy.BuiltIn := by
    rw [policy_sample]
    exact .keyed (.searching .naturalOrder)
  have inRange : (Tree.sample (fixedPlace 0)).policy.InRange := by
    rw [policy_sample]
    rintro - siblings x _ ⟨⟩
    exact Nat.zero_le _
  have sorted := (reachable_sample .naturalOrder).faultless builtIn.inRange
  have piled := (reachable_sample (fixedPlace 0)).faultless inRange
  refine ⟨sorted.passes (.inl builtIn), sorted.resolves _ ?_ ?_, by decide +kernel,
    piled.guarded _, fun details refused => (piled.intact _ details refused).2.2.2⟩
  · show (Tree.sample .naturalOrder).contains ⟨1, 1, 0⟩ = true
    decide +kernel
  · rintro _ ⟨⟩
    exact ⟨reachable_sample _, inRange⟩

/-- A place past the other siblings stops the move of a child to it. -/
example : (((Tree.sample (fixedPlace 9)).call
    (.edit (.replaceValue ⟨1, 1, 0⟩ 4))).outcome.map fun _ => ()) = .halted := by
  decide +kernel

end Tree

end PolicyTree
