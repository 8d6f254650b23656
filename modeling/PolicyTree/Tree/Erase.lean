import PolicyTree.Tree.Basic

/-! Erasure of subtrees. -/

namespace PolicyTree.Tree

variable {α : Type}

/-- The nodes below the pending ones, these included: each before its descendants, its children from
last to first. At most `bound` nodes are met. -/
def backward (t : Tree α) : Nat → List Handle → List Handle
  | 0, _ => []
  | _, [] => []
  | bound + 1, h :: pending =>
    match t.node? h with
    | none => t.backward bound pending
    | some n => h :: t.backward bound (n.children.reverse ++ pending)

/-- The order in which the nodes of a subtree are freed. -/
def backwardFrom (t : Tree α) (h : Handle) : List Handle := t.backward t.len [h]

/-- Frees every node of the subtree at `h`; the list that `h` stands in keeps it. -/
def release (t : Tree α) (h : Handle) : Tree α :=
  { t with arena := (t.backwardFrom h).foldl Arena.erase t.arena }

/-- Takes `h` out of its parent's list, or out of the root's place. -/
def detach (t : Tree α) : Option (Handle × Nat) → Tree α
  | none => { t with root := none }
  | some (p, i) => t.updateChildren p (·.eraseIdx i)

/-- Destroys the subtree at `h` and answers the value at `h`. -/
def erase (t : Tree α) (h : Handle) : Reply α α :=
  t.require (t.slotInParent h) fun slot =>
    t.require (t.value h) fun x => ((t.detach slot).release h).answer x

/-- Destroys every subtree below `h` and answers the number of nodes freed. -/
def eraseChildren (t : Tree α) (h : Handle) : Reply α Nat :=
  t.require (t.node h) fun n =>
    let bare := t.updateChildren h fun _ => []
    let emptied := n.children.foldl release bare
    emptied.answer (t.len - emptied.len)

end PolicyTree.Tree
