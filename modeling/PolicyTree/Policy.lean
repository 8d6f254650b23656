import PolicyTree.Bisect

/-! Sibling policies: where a new child goes, and how a lookup passes through one level. -/

namespace PolicyTree

/-- Where a value goes among its siblings: before the sibling now at an index, or nowhere, because
the sibling at an index already holds its key. -/
inductive Placement where
  | before (index : Nat)
  | taken (index : Nat)
deriving DecidableEq

/-- What a lookup does with one list of siblings. -/
inductive Descent where
  /-- The sibling at this index is the target. -/
  | found (index : Nat)
  /-- Only the subtree of the sibling at this index can hold the target. -/
  | into (index : Nat)
  /-- Nothing below this level is the target. -/
  | miss
  /-- No sibling is the target, and every subtree may hold it. -/
  | each
  /-- Nothing is known, so the subtrees are searched in pre-order. -/
  | scan
deriving DecidableEq

/-- A discipline for siblings, which are shown to it as their values in order. A keyed policy keeps
them sorted and without equal keys. -/
structure Policy (α : Type) where
  name : String
  keyed : Bool
  place : List α → α → Placement
  /-- Whether a candidate is what a lookup for the second value wants. -/
  agrees : α → α → Bool
  descend : List α → α → Descent

namespace Policy

variable {α κ : Type}

/-! ## Insertion order -/

def append (siblings : List α) (_ : α) : Placement := .before siblings.length

def insertionOrderBy (eq : α → α → Bool) : Policy α where
  name := "InsertionOrderBy"
  keyed := false
  place := append
  agrees := eq
  descend _ _ := .scan

def insertionOrder [BEq α] : Policy α :=
  { insertionOrderBy fun a b => a == b with name := "InsertionOrder" }

/-! ## Key order -/

def keyedPlace (cmp : α → α → Ordering) (siblings : List α) (x : α) : Placement :=
  match bisect (cmp · x) siblings with
  | .hit i => .taken i
  | .gap i => .before i

/-- Keys below a sibling are unrelated to the sibling's, so a level without the target says nothing
about the levels below. -/
def keyedSearch (cmp : α → α → Ordering) (siblings : List α) (target : α) : Descent :=
  match bisect (cmp · target) siblings with
  | .hit i => .found i
  | .gap _ => .each

/-- Where ancestors sort before their descendants and subtrees do not interleave, only the last
sibling not above the target can hold it. -/
def keyedDescend (cmp : α → α → Ordering) (siblings : List α) (target : α) : Descent :=
  match partitionPoint (fun x => cmp x target != .gt) siblings with
  | 0 => .miss
  | i + 1 =>
    match siblings[i]? with
    | none => .miss
    | some x => if cmp x target = .eq then .found i else .into i

def keyOrder (cmp : α → α → Ordering) : Policy α where
  name := "KeyOrder"
  keyed := true
  place := keyedPlace cmp
  agrees a b := cmp a b == .eq
  descend := keyedSearch cmp

def byKey [Ord κ] [BEq κ] (key : α → κ) : Policy α :=
  { keyOrder fun a b => compare (key a) (key b) with
    name := "ByKey"
    agrees := fun a b => key a == key b }

def naturalOrder [Ord α] : Policy α :=
  { keyOrder compare with name := "NaturalOrder" }

def pathOrder [Ord α] : Policy α :=
  { keyOrder compare with name := "PathOrder", descend := keyedDescend compare }

end Policy

end PolicyTree
