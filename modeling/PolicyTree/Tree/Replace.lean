import PolicyTree.Tree.Copy
import PolicyTree.Tree.Erase

/-! Replacement of one value, and of a whole subtree. -/

namespace PolicyTree.Tree

variable {α : Type}

/-- Where the policy places `x` among the siblings of `h`, `h` left out. -/
def placeAmongOthers (t : Tree α) (parent h : Handle) (x : α) : Placement :=
  t.policy.place (t.valuesAt ((t.childrenAt parent).filter (· != h))) x

/-- Moves the entry at `old` to `new`, as `h`. A move past the end of the list leaves the entry
out. -/
def moveChild (t : Tree α) (parent : Handle) (old new : Nat) (h : Handle) : Reply α Unit :=
  let removed := t.updateChildren parent (·.eraseIdx old)
  if new ≤ (removed.childrenAt parent).length then
    (removed.updateChildren parent (·.insertIdx new h)).answer ()
  else ⟨.halted, removed⟩

/-! ## Values -/

/-- Moves `h` to where the policy wants `x`. Only keyed siblings move. -/
def reposition (t : Tree α) (h : Handle) (x : α) : Option (Handle × Nat) → Reply α Unit
  | none => t.answer ()
  | some (p, old) =>
    if t.policy.keyed then
      match t.placeAmongOthers p h x with
      | .taken _ => t.refuse (.duplicateKey p)
      | .before new => if new = old then t.answer () else t.moveChild p old new h
    else t.answer ()

/-- Stores `x` at `h`, moves `h` to its place and answers the former value. -/
def replaceValue (t : Tree α) (h : Handle) (x : α) : Reply α α :=
  t.require (t.slotInParent h) fun slot =>
    (t.reposition h x slot).andThen fun _ t =>
      t.require (t.value h) fun old => (t.updateNode h ({ · with value := x })).answer old

/-! ## Subtrees -/

/-- Puts `new`, a node already stored, in the place of `h` and frees the subtree at `h`. An unkeyed
policy keeps the index; a keyed one places the new value, or refuses it. -/
def substitute (t : Tree α) (h new : Handle) (x : α) : Option (Handle × Nat) → Reply α Handle
  | none => ({ t with root := some new }.release h).answer new
  | some (p, old) =>
    let placement := if t.policy.keyed then t.placeAmongOthers p h x else .before old
    match placement with
    | .taken _ => (t.release new).refuse (.duplicateKey p)
    | .before i =>
      let moved :=
        if i = old then (t.updateChildren p (·.set old new)).answer () else t.moveChild p old i new
      moved.andThen fun _ t => (t.release h).answer new

/-- Puts a copy of the subtree at `sourceNode` in the place of the subtree at `h`. The copy is built
before anything is changed, and freed again if it does not succeed. -/
def replaceWithSubtree (t : Tree α) (h : Handle) (source : Tree α) (sourceNode : Handle) :
    Reply α Handle :=
  t.require (t.slotInParent h) fun slot =>
    t.require (source.value sourceNode) fun x =>
      let new := t.arena.fresh
      let grown := { t with arena := t.arena.allocate ⟨x, slot.map Prod.fst, []⟩ }
      let copied := grown.copyBelow source sourceNode new
      match copied.outcome with
      | .done _ => copied.tree.substitute h new x slot
      | .refused e => (copied.tree.release new).refuse e
      | .halted => ⟨.halted, copied.tree⟩

/-- Puts a copy of a whole tree in the place of the subtree at `h`. -/
def replaceSubtree (t : Tree α) (h : Handle) (source : Tree α) : Reply α Handle :=
  match source.root with
  | none => t.refuse .emptyTree
  | some r => t.replaceWithSubtree h source r

end PolicyTree.Tree
