import PolicyTree.Tree.Basic

/-! The check that a tree's links are sound. -/

namespace PolicyTree

/-- The work of an audit: how many nodes it has looked at, and those it still has to, last listed
first. -/
structure Agenda where
  reached : Nat
  pending : List Handle
deriving DecidableEq

/-- How many handles the agenda has taken up so far. -/
def Agenda.placed (a : Agenda) : Nat := a.reached + a.pending.length

/-- Where an audit stands, and the fault it stopped at. -/
structure Finding where
  agenda : Agenda
  fault : Option TreeError
deriving DecidableEq

namespace Tree

variable {α : Type}

/-- Takes up the children of `h`. Each must be live and point back to `h`, and the agenda must not
outgrow the arena. -/
def enlist (t : Tree α) (h : Handle) : List Handle → Agenda → Finding
  | [], a => ⟨a, none⟩
  | c :: cs, a =>
    match t.node? c with
    | none => ⟨a, some (.invalidHandle c)⟩
    | some n =>
      if n.parent ≠ some h then ⟨a, some (.strayChild c h)⟩
      else if t.len < a.placed then ⟨a, some (.listedTwice c)⟩
      else t.enlist h cs { a with pending := c :: a.pending }

/-- The first of `later` that does not belong right behind the siblings before it. -/
def orderFault (t : Tree α) (parent : Handle) (earlier : List Handle) :
    List Handle → Option TreeError
  | [] => none
  | c :: later =>
    match t.node? c with
    | none => some (.invalidHandle c)
    | some n =>
      if t.policy.place (t.valuesAt earlier) n.value = .before earlier.length then
        t.orderFault parent (earlier ++ [c]) later
      else some (.siblingOrder earlier.length parent)

def siblingFault (t : Tree α) (parent : Handle) (hs : List Handle) : Option TreeError :=
  if t.policy.keyed then t.orderFault parent [] hs else none

/-- Works off the agenda in at most `bound` rounds; nothing if that is not enough. -/
def auditRounds (t : Tree α) : Nat → Agenda → Option Finding
  | 0, _ => none
  | _, ⟨reached, []⟩ =>
    some ⟨⟨reached, []⟩, if reached = t.len then none else some (.unreachable reached t.len)⟩
  | bound + 1, ⟨reached, h :: pending⟩ =>
    match t.node? h with
    | none => some ⟨⟨reached + 1, pending⟩, some (.invalidHandle h)⟩
    | some n =>
      let listed := t.enlist h n.children ⟨reached + 1, pending⟩
      match listed.fault.or (t.siblingFault h n.children) with
      | some e => some { listed with fault := some e }
      | none => t.auditRounds bound listed.agenda

/-- An audit from the root `r` takes up at most one handle more than there are nodes. -/
def audit (t : Tree α) (r : Handle) : Option Finding := t.auditRounds (t.len + 2) ⟨0, [r]⟩

/-- Fails with the first fault: every node is reached from a parentless root through lists that its
parent links agree with, and keyed siblings are in order. -/
def check (t : Tree α) : Except TreeError Unit :=
  match t.root with
  | none => if t.len = 0 then .ok () else .error (.nodesWithoutRoot t.len)
  | some r => do
    if (← t.node r).parent.isSome then throw .rootHasParent
    match (t.audit r).bind Finding.fault with
    | some e => throw e
    | none => return ()

end Tree

end PolicyTree
