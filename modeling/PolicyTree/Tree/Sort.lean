import PolicyTree.Tree.Basic

/-! Stable sorting of sibling ranges. -/

namespace PolicyTree.Tree

variable {α : Type}

/-- The end of the sibling range from `first`, which stands under `parent`, to before `last`. -/
def rangeEnd (t : Tree α) (parent first : Handle) : Option Handle → Except TreeError Nat
  | none => .ok (t.childrenAt parent).length
  | some last => do
    match ← t.slotInParent last with
    | some (p, i) => if p = parent then return i else throw (.notSiblings first last)
    | none => throw (.notSiblings first last)

/-- The root is a range of one. -/
def checkRootRange (root : Handle) : Option Handle → Except TreeError Unit
  | none => .ok ()
  | some last => if last = root then .ok () else .error .rootHasNoSiblings

/-- The handles in stable order of their values; nothing if one is not live. -/
def sortedHandles (t : Tree α) (cmp : α → α → Ordering) (hs : List Handle) :
    Option (List Handle) := do
  let entries ← hs.mapM fun h => (t.get? h).map fun x => (x, h)
  return (entries.mergeSort fun a b => (cmp a.1 b.1).isLE).map Prod.snd

/-- Sorts the children of `parent` from index `first` to before index `last`. -/
def sortRange (t : Tree α) (parent : Handle) (first last : Nat) (cmp : α → α → Ordering) :
    Reply α Unit :=
  let range := ((t.childrenAt parent).take last).drop first
  match t.sortedHandles cmp range with
  | none => t.refuse (.freedChild parent)
  | some sorted =>
    (t.updateChildren parent fun hs => hs.take first ++ sorted ++ hs.drop last).answer ()

/-- Sorts the siblings from `first` on, to the end or to before `last`. Keyed siblings are in key
order already, so for them the request is checked and nothing moves. -/
def sortBy (t : Tree α) (first : Handle) (last : Option Handle) (cmp : α → α → Ordering) :
    Reply α Unit :=
  t.require (t.slotInParent first) fun
    | none => t.require (checkRootRange first last) fun _ => t.answer ()
    | some (p, i) =>
      t.require (t.rangeEnd p first last) fun j =>
        if j < i then t.refuse (.reversedRange i j)
        else if t.policy.keyed then t.answer ()
        else t.sortRange p i j cmp

def sortChildrenBy (t : Tree α) (parent : Handle) (cmp : α → α → Ordering) : Reply α Unit :=
  t.require (t.children parent) fun
    | [] => t.answer ()
    | first :: _ => t.sortBy first none cmp

def sortChildren [Ord α] (t : Tree α) (parent : Handle) : Reply α Unit :=
  t.sortChildrenBy parent compare

end PolicyTree.Tree
