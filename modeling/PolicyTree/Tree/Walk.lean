import PolicyTree.Tree.Basic

/-! Traversals: pre-order, children from both ends, leaves and ancestors. -/

namespace PolicyTree

/-! ## Pre-order -/

/-- A pre-order traversal under way: the start node while it is still to come, and the children
still to come at each level of the current path, innermost first. -/
structure Walk (α : Type) where
  arena : Arena (Node α)
  start : Option Handle
  levels : List (List Handle)

namespace Walk

variable {α : Type}

def ofStart (arena : Arena (Node α)) (start : Option Handle) : Walk α := ⟨arena, start, []⟩

/-- The first handle of the innermost level that has one, and the levels without it. -/
def takeNext : List (List Handle) → Option Handle × List (List Handle)
  | [] => (none, [])
  | [] :: outer => takeNext outer
  | (h :: later) :: outer => (some h, later :: outer)

/-- The depth of the node met last, counted from the start node. -/
def depth (w : Walk α) : Nat := w.levels.length - 1

/-- Meets the node `h` with the given levels still to come. -/
def visit (w : Walk α) (h : Handle) (levels : List (List Handle)) : Option (Handle × α) × Walk α :=
  match w.arena.get? h with
  | none => (none, ⟨w.arena, none, levels⟩)
  | some n => (some (h, n.value), ⟨w.arena, none, n.children :: levels⟩)

def next (w : Walk α) : Option (Handle × α) × Walk α :=
  match w.start, takeNext w.levels with
  | some h, _ => w.visit h w.levels
  | none, (some h, levels) => w.visit h levels
  | none, (none, levels) => (none, ⟨w.arena, none, levels⟩)

end Walk

/-- One entry of a pre-order listing. -/
structure Visit (α : Type) where
  depth : Nat
  handle : Handle
  value : α

namespace Visit

variable {α : Type}

def entry (v : Visit α) : Handle × α := (v.handle, v.value)

end Visit

/-- The visits of at most `bound` further steps. -/
def Walk.visits {α : Type} : Nat → Walk α → List (Visit α)
  | 0, _ => []
  | bound + 1, w =>
    match w.next with
    | (none, _) => []
    | (some (h, x), w') => ⟨w'.depth, h, x⟩ :: w'.visits bound

/-! ## Children from both ends -/

/-- The children of one node that neither end has met. -/
structure ChildCursor (α : Type) where
  arena : Arena (Node α)
  handles : List Handle

namespace ChildCursor

variable {α : Type}

def len (c : ChildCursor α) : Nat := c.handles.length

def resolve (c : ChildCursor α) (h : Handle) : Option (Handle × α) :=
  (c.arena.get? h).map fun n => (h, n.value)

def next (c : ChildCursor α) : Option (Handle × α) × ChildCursor α :=
  (c.handles.head?.bind c.resolve, { c with handles := c.handles.tail })

def nextBack (c : ChildCursor α) : Option (Handle × α) × ChildCursor α :=
  (c.handles.getLast?.bind c.resolve, { c with handles := c.handles.dropLast })

def entries (c : ChildCursor α) : List (Handle × α) := c.handles.filterMap c.resolve

end ChildCursor

/-! ## Traversals of a tree -/

namespace Tree

variable {α : Type}

def walk (t : Tree α) : Walk α := .ofStart t.arena t.root

def walkFrom (t : Tree α) (h : Handle) : Except TreeError (Walk α) :=
  (t.node h).map fun _ => .ofStart t.arena (some h)

def preOrder (t : Tree α) : List (Visit α) := t.walk.visits t.len

def preOrderFrom (t : Tree α) (h : Handle) : Except TreeError (List (Visit α)) :=
  (t.walkFrom h).map (Walk.visits t.len)

def handles (t : Tree α) : List Handle := t.preOrder.map Visit.handle

def values (t : Tree α) : List α := t.preOrder.map Visit.value

def isLeafVisit (t : Tree α) (v : Visit α) : Bool := (t.node? v.handle).any (·.children.isEmpty)

def leaves (t : Tree α) : List (Visit α) := t.preOrder.filter t.isLeafVisit

def leavesFrom (t : Tree α) (h : Handle) : Except TreeError (List (Visit α)) :=
  (t.preOrderFrom h).map (List.filter t.isLeafVisit)

def childrenOf (t : Tree α) (h : Handle) : Except TreeError (ChildCursor α) :=
  (t.children h).map (ChildCursor.mk t.arena)

/-- At most `bound` nodes met going up from `h`, itself included. -/
def ascend (t : Tree α) : Nat → Option Handle → List (Handle × α)
  | 0, _ => []
  | _, none => []
  | bound + 1, some h =>
    match t.node? h with
    | none => []
    | some n => (h, n.value) :: t.ascend bound n.parent

/-- From the parent up to the root. -/
def ancestors (t : Tree α) (h : Handle) : Except TreeError (List (Handle × α)) :=
  (t.parent h).map (t.ascend t.len)

/-- The number of edges between `h` and the root. -/
def depth (t : Tree α) (h : Handle) : Except TreeError Nat := (t.ancestors h).map List.length

end Tree

end PolicyTree
