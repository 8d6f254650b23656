import PolicyTree.Tree.Basic

/-! New trees, and the resets of a whole tree. -/

namespace PolicyTree.Tree

variable {α : Type}

/-- The slots asked for where a constructor is told nothing else. -/
def defaultCapacity : Nat := 16

def withCapacity (policy : Policy α) (capacity : Nat) (owners : Owners) : Tree α × Owners :=
  (⟨.withCapacity owners.next capacity, none, policy⟩, owners.rest)

def withPolicy (policy : Policy α) (owners : Owners) : Tree α × Owners :=
  withCapacity policy defaultCapacity owners

/-- The handle that the next `setRoot` makes the root. -/
def freshRoot (t : Tree α) : Handle := t.arena.clear.fresh

/-- Discards every node and makes `x` the root. -/
def setRoot (t : Tree α) (x : α) : Tree α :=
  { t with arena := t.arena.clear.allocate ⟨x, none, []⟩, root := some t.freshRoot }

def clear (t : Tree α) : Tree α := { t with arena := t.arena.clear, root := none }

def withRoot (x : α) (policy : Policy α) (owners : Owners) : Tree α × Owners :=
  let (t, owners) := withPolicy policy owners
  (t.setRoot x, owners)

end PolicyTree.Tree
