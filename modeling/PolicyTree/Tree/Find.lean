import PolicyTree.Tree.Walk

/-! Lookup of values, led by the policy. -/

namespace PolicyTree.Tree

variable {α : Type}

/-! ## By a predicate -/

/-- The first node in pre-order whose value satisfies `p`. -/
def findBy (t : Tree α) (p : α → Bool) : Option Handle :=
  (t.preOrder.find? (p ·.value)).map Visit.handle

/-- `findBy` for a predicate with effects, which runs on no value after the first hit. -/
def findByM {m : Type → Type} [Monad m] (t : Tree α) (p : α → m Bool) : m (Option Handle) := do
  return (← t.preOrder.findM? (p ·.value)).map Visit.handle

/-! ## By the policy -/

/-- The first hit strictly below `h` in pre-order. -/
def scanBelow (t : Tree α) (target : α) (h : Handle) : Except TreeError (Option Handle) :=
  (t.preOrderFrom h).map fun visits =>
    (visits.tail.find? (t.policy.agrees ·.value target)).map Visit.handle

/-- What one round of a search comes to: its answer, or the nodes still to be searched below. -/
inductive Round where
  | ended (answer : Option Handle)
  | going (pending : List Handle)
deriving DecidableEq

/-- Asks the policy about the children of `h`, before the pending nodes. A scan below a node that is
not live ends the search. -/
def searchRound (t : Tree α) (target : α) (h : Handle) (pending : List Handle) : Round :=
  let children := t.childrenAt h
  match t.policy.descend (t.valuesAt children) target with
  | .found i => .ended children[i]?
  | .into i => .going (children[i]?.toList ++ pending)
  | .miss => .going pending
  | .each => .going (children ++ pending)
  | .scan =>
    match t.scanBelow target h with
    | .error _ => .ended none
    | .ok (some hit) => .ended (some hit)
    | .ok none => .going pending

/-- Searches below the pending nodes, the first of them first, in at most `bound` rounds. -/
def search (t : Tree α) (target : α) : Nat → List Handle → Option Handle
  | 0, _ => none
  | _, [] => none
  | bound + 1, h :: pending =>
    match t.searchRound target h pending with
    | .ended answer => answer
    | .going pending => t.search target bound pending

/-- The root if it is the target, else what the policy's descent from the root meets. -/
def find (t : Tree α) (target : α) : Option Handle := do
  let r ← t.root
  let n ← t.node? r
  if t.policy.agrees n.value target then some r else t.search target t.len [r]

def findItem (t : Tree α) (target : α) : Except TreeError Handle :=
  match t.find target with
  | some h => .ok h
  | none => .error .notFound

end PolicyTree.Tree
