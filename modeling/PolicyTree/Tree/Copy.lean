import PolicyTree.Tree.Build
import PolicyTree.Tree.Insert

/-! Copies of subtrees: below a node of another tree, and as trees of their own. -/

namespace PolicyTree

/-- An error met while copying the children of `source` names `source` where they collide. -/
def TreeError.fromCopy (source : Handle) : TreeError → TreeError
  | .duplicateKey _ => .duplicateKey source
  | e => e

namespace Tree

variable {α : Type}

/-! ## Below a node -/

/-- Inserts the values of the given nodes of `source`, the children of `parent`, under `dest`, and
pairs each node with its copy. -/
def copyLevel (source : Tree α) (parent dest : Handle) :
    List Handle → Tree α → Reply α (List (Handle × Handle))
  | [], t => t.answer []
  | h :: hs, t =>
    t.require (source.value h) fun x =>
      ((t.insert dest x).mapError (.fromCopy parent)).andThen fun copy t =>
        (copyLevel source parent dest hs t).andThen fun copies t => t.answer ((h, copy) :: copies)

/-- Copies the children of each pending node under its partner, level by level, the nodes copied
last first, in at most `bound` rounds. Answers the number of copies. -/
def copyPending (source : Tree α) :
    Nat → List (Handle × Handle) → Nat → Tree α → Reply α Nat
  | 0, _, copied, t => t.answer copied
  | _, [], copied, t => t.answer copied
  | bound + 1, (h, dest) :: pending, copied, t =>
    t.require (source.node h) fun n =>
      (copyLevel source h dest n.children t).andThen fun copies t =>
        copyPending source bound (copies.reverse ++ pending) (copied + copies.length) t

/-- Copies everything strictly below `h` in `source` below `dest`. What was copied before an error
stays. -/
def copyBelow (t source : Tree α) (h dest : Handle) : Reply α Nat :=
  copyPending source source.len [(h, dest)] 0 t

/-! ## Trees of their own -/

/-- Makes a copy of the subtree at `h` in `source`, whose value is `x`, all that the tree holds. -/
def becomeCopy (t source : Tree α) (h : Handle) (x : α) : Reply α Nat :=
  (t.setRoot x).copyBelow source h t.freshRoot

/-- A new tree under `policy` with a copy of the subtree at `h`. A dead `h` takes no owner. -/
def extract (source : Tree α) (h : Handle) (policy : Policy α) (owners : Owners) :
    Outcome (Tree α) × Owners :=
  match source.value h with
  | .error e => (.refused e, owners)
  | .ok x =>
    let (t, owners) := withPolicy policy owners
    let copied := t.becomeCopy source h x
    (copied.outcome.map fun _ => copied.tree, owners)

/-- A copy in an arena of its own. Where the policy refuses a copied child, the copy ends there. -/
def clone (source : Tree α) (owners : Owners) : Tree α × Owners :=
  let (t, owners) := withCapacity source.policy source.len owners
  match source.root.bind fun r => (source.get? r).map fun x => (r, x) with
  | none => (t, owners)
  | some (r, x) => ((t.becomeCopy source r x).tree, owners)

end Tree

end PolicyTree
