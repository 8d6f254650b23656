import PolicyTree.Tree.Basic

/-! Insertion of a child at the place its policy names. -/

namespace PolicyTree.Tree

variable {α : Type}

/-- Allocates a childless node and lists it under `parent` at `index`, or at the end if the list is
shorter. -/
def attach (t : Tree α) (parent : Handle) (index : Nat) (x : α) : Tree α :=
  { t with arena := t.arena.allocate ⟨x, some parent, []⟩ }.updateChildren parent fun hs =>
    hs.insertIdx (min index hs.length) t.arena.fresh

def insert (t : Tree α) (parent : Handle) (x : α) : Reply α Handle :=
  t.require (t.node parent) fun n =>
    match t.policy.place (t.valuesAt n.children) x with
    | .taken _ => t.refuse (.duplicateKey parent)
    | .before i => (t.attach parent i x).answer t.arena.fresh

end PolicyTree.Tree
