import PolicyTree.Arena.Basic
import PolicyTree.Error
import PolicyTree.Policy

/-! Trees stored in an arena: nodes, links and the answers of edits. -/

namespace PolicyTree

/-- `parent` is for ascent only; the children are the nodes owned, in sibling order. -/
structure Node (α : Type) where
  value : α
  parent : Option Handle
  children : List Handle

structure Tree (α : Type) where
  arena : Arena (Node α)
  root : Option Handle
  policy : Policy α

/-! ## Answers of edits -/

/-- How an edit ends. A refused edit says why; one that `halted` met a policy that named a place
past the end of a sibling list after the list had been changed. -/
inductive Outcome (β : Type) where
  | done (answer : β)
  | refused (e : TreeError)
  | halted
deriving DecidableEq

def Outcome.map {β γ : Type} (f : β → γ) : Outcome β → Outcome γ
  | done b => done (f b)
  | refused e => refused e
  | halted => halted

namespace Outcome

variable {β γ : Type} {o : Outcome β} {f : β → γ}

theorem map_eq_halted : o.map f = halted ↔ o = halted := by
  cases o <;> simp [map]

theorem map_eq_refused {e : TreeError} : o.map f = refused e ↔ o = refused e := by
  cases o <;> simp [map]

theorem map_eq_done {c : γ} : o.map f = done c ↔ ∃ b, o = done b ∧ f b = c := by
  cases o <;> simp [map]

end Outcome

/-- The outcome of an edit and the tree it leaves. -/
structure Reply (α β : Type) where
  outcome : Outcome β
  tree : Tree α

namespace Reply

variable {α β γ : Type}

def map (f : β → γ) (r : Reply α β) : Reply α γ := ⟨r.outcome.map f, r.tree⟩

/-- Goes on with the next edit if this one was done. -/
def andThen (r : Reply α β) (next : β → Tree α → Reply α γ) : Reply α γ :=
  match r.outcome with
  | .done b => next b r.tree
  | .refused e => ⟨.refused e, r.tree⟩
  | .halted => ⟨.halted, r.tree⟩

def mapError (f : TreeError → TreeError) (r : Reply α β) : Reply α β :=
  match r.outcome with
  | .refused e => ⟨.refused (f e), r.tree⟩
  | _ => r

end Reply

namespace Tree

variable {α β γ : Type}

def answer (t : Tree α) (b : β) : Reply α β := ⟨.done b, t⟩

def refuse (t : Tree α) (e : TreeError) : Reply α β := ⟨.refused e, t⟩

/-- Goes on with `next` unless the check before it failed. -/
def require (t : Tree α) (check : Except TreeError γ) (next : γ → Reply α β) : Reply α β :=
  match check with
  | .ok c => next c
  | .error e => t.refuse e

@[simp] theorem outcome_map (r : Reply α β) (f : β → γ) : (r.map f).outcome = r.outcome.map f :=
  rfl

@[simp] theorem tree_map (r : Reply α β) (f : β → γ) : (r.map f).tree = r.tree := rfl

@[simp] theorem answer_outcome (t : Tree α) (b : β) : (t.answer b).outcome = .done b := rfl

@[simp] theorem answer_tree (t : Tree α) (b : β) : (t.answer b).tree = t := rfl

@[simp] theorem refuse_outcome (t : Tree α) (e : TreeError) :
    (t.refuse e : Reply α β).outcome = .refused e := rfl

@[simp] theorem refuse_tree (t : Tree α) (e : TreeError) : (t.refuse e : Reply α β).tree = t := rfl

@[simp] theorem require_ok (t : Tree α) (c : γ) (next : γ → Reply α β) :
    t.require (.ok c) next = next c := rfl

@[simp] theorem require_error (t : Tree α) (e : TreeError) (next : γ → Reply α β) :
    t.require (.error e) next = t.refuse e := rfl

@[simp] theorem andThen_answer (t : Tree α) (b : β) (next : β → Tree α → Reply α γ) :
    (t.answer b).andThen next = next b t := rfl

@[simp] theorem andThen_refuse (t : Tree α) (e : TreeError) (next : β → Tree α → Reply α γ) :
    (t.refuse e).andThen next = t.refuse e := rfl

theorem andThen_of_done {r : Reply α β} {b : β} (done : r.outcome = .done b)
    (next : β → Tree α → Reply α γ) : r.andThen next = next b r.tree := by
  rw [Reply.andThen, done]

theorem andThen_of_refused {r : Reply α β} {e : TreeError} (refused : r.outcome = .refused e)
    (next : β → Tree α → Reply α γ) : r.andThen next = r.tree.refuse e := by
  rw [Reply.andThen, refused]
  rfl

@[simp] theorem mapError_answer (t : Tree α) (b : β) (f : TreeError → TreeError) :
    (t.answer b).mapError f = t.answer b := rfl

@[simp] theorem mapError_refuse (t : Tree α) (e : TreeError) (f : TreeError → TreeError) :
    (t.refuse e : Reply α β).mapError f = t.refuse (f e) := rfl

/-- An edit that only restates the answer changes nothing else. -/
theorem andThen_restate (r : Reply α β) (k : β → γ) :
    (r.andThen fun b t => t.answer (k b)) = r.map k := by
  obtain ⟨outcome, t⟩ := r
  cases outcome <;> rfl

/-! ## Nodes -/

def node? (t : Tree α) (h : Handle) : Option (Node α) := t.arena.get? h

def node (t : Tree α) (h : Handle) : Except TreeError (Node α) :=
  match t.node? h with
  | some n => .ok n
  | none => .error (.invalidHandle h)

theorem exists_of_map_node {t : Tree α} {h : Handle} {k : Node α → β} {b : β}
    (found : (t.node h).map k = .ok b) : ∃ n, t.node? h = some n ∧ k n = b := by
  rw [node] at found
  cases live : t.node? h with
  | none =>
    rw [live] at found
    cases found
  | some n =>
    rw [live] at found
    exact ⟨n, rfl, Except.ok.inj found⟩

/-- The children listed at `h`; none if `h` is not live. -/
def childrenAt (t : Tree α) (h : Handle) : List Handle := ((t.node? h).map Node.children).getD []

/-- The values of the live nodes among `hs`. -/
def valuesAt (t : Tree α) (hs : List Handle) : List α :=
  hs.filterMap fun h => (t.node? h).map Node.value

def updateNode (t : Tree α) (h : Handle) (f : Node α → Node α) : Tree α :=
  { t with arena := t.arena.modify h f }

def updateChildren (t : Tree α) (h : Handle) (f : List Handle → List Handle) : Tree α :=
  t.updateNode h fun n => { n with children := f n.children }

/-- The parent of `h` and the index of `h` among its children; nothing for a root. -/
def slotInParent (t : Tree α) (h : Handle) : Except TreeError (Option (Handle × Nat)) := do
  match (← t.node h).parent with
  | none => return none
  | some p =>
    match (← t.node p).children.idxOf? h with
    | some i => return some (p, i)
    | none => throw (.missingFromParent h p)

/-! ## Questions about one node -/

def len (t : Tree α) : Nat := t.arena.len

def isEmpty (t : Tree α) : Bool := t.root.isNone

def contains (t : Tree α) (h : Handle) : Bool := t.arena.contains h

def get? (t : Tree α) (h : Handle) : Option α := (t.node? h).map Node.value

def value (t : Tree α) (h : Handle) : Except TreeError α := (t.node h).map Node.value

def parent (t : Tree α) (h : Handle) : Except TreeError (Option Handle) :=
  (t.node h).map Node.parent

def children (t : Tree α) (h : Handle) : Except TreeError (List Handle) :=
  (t.node h).map Node.children

def childCount (t : Tree α) (h : Handle) : Except TreeError Nat := (t.children h).map List.length

def isLeaf (t : Tree α) (h : Handle) : Except TreeError Bool := (t.children h).map List.isEmpty

/-- The index of `h` among its siblings; nothing for a root or a dead handle. -/
def position? (t : Tree α) (h : Handle) : Option Nat :=
  match t.slotInParent h with
  | .ok (some (_, i)) => some i
  | _ => none

end Tree

end PolicyTree
