import PolicyTree.Handle

/-! Failures of tree operations and their wording. -/

namespace PolicyTree

inductive TreeError where
  /-- The handle denotes no live node of the tree it was used on. -/
  | invalidHandle (h : Handle)
  /-- Two children of `parent` would have equal keys. -/
  | duplicateKey (parent : Handle)
  | notFound
  | emptyTree
  /-- The bounds of a sibling range do not fit together. -/
  | invalidRange (details : String)
  /-- The stored links contradict each other. -/
  | corruptedTree (details : String)
deriving DecidableEq

namespace TreeError

def message : TreeError → String
  | invalidHandle h => s!"invalid handle {h}"
  | duplicateKey parent => s!"duplicate key among the children of {parent}"
  | notFound => "value not found in tree"
  | emptyTree => "tree has no root"
  | invalidRange details => "invalid sibling range: " ++ details
  | corruptedTree details => "corrupted tree: " ++ details

def isInvalidHandle : TreeError → Bool
  | invalidHandle _ => true
  | _ => false

def isDuplicateKey : TreeError → Bool
  | duplicateKey _ => true
  | _ => false

/-- A lookup that finds nothing answers; every other error is a failure to do what was asked. -/
def isNegativeAnswer : TreeError → Bool
  | notFound => true
  | _ => false

/-! ## Context -/

def inContext (context details : String) : String := context ++ ": " ++ details

/-- Only errors that carry a text take the context. -/
def withContext (context : String) : TreeError → TreeError
  | invalidRange details => invalidRange (inContext context details)
  | corruptedTree details => corruptedTree (inContext context details)
  | e => e

def withOperation (operation : String) : TreeError → TreeError :=
  withContext ("Operation '" ++ operation ++ "'")

@[simp] theorem withContext_notFound (context : String) :
    notFound.withContext context = notFound := rfl

@[simp] theorem withContext_invalidHandle (context : String) (h : Handle) :
    (invalidHandle h).withContext context = invalidHandle h := rfl

@[simp] theorem withContext_duplicateKey (context : String) (h : Handle) :
    (duplicateKey h).withContext context = duplicateKey h := rfl

/-! ## Causes -/

def rangeError (operation details : String) : TreeError :=
  invalidRange (inContext operation details)

def corruption (component details : String) : TreeError :=
  corruptedTree (inContext (component ++ " corruption") details)

def rootHasNoSiblings : TreeError := rangeError "sort" "the root has no siblings"

def notSiblings (first last : Handle) : TreeError :=
  rangeError "sort" s!"{first} and {last} are not siblings"

def reversedRange (first last : Nat) : TreeError :=
  rangeError "sort" s!"end {last} precedes start {first}"

def missingFromParent (h parent : Handle) : TreeError :=
  corruption "Parent link" s!"{h} missing from {parent}"

def freedChild (parent : Handle) : TreeError :=
  corruption "Child list" s!"freed node among the children of {parent}"

def nodesWithoutRoot (count : Nat) : TreeError :=
  corruption "Arena" s!"{count} nodes allocated in an empty tree"

def rootHasParent : TreeError := corruption "Root" "root has a parent"

def strayChild (h parent : Handle) : TreeError :=
  corruption "Parent link" s!"{h} listed under {parent} but points elsewhere"

def listedTwice (h : Handle) : TreeError :=
  corruption "Child list" s!"{h} reached more than once"

def unreachable (reached allocated : Nat) : TreeError :=
  corruption "Arena" s!"{reached} reachable vs {allocated} allocated"

def siblingOrder (index : Nat) (parent : Handle) : TreeError :=
  corruption "Sibling order" s!"child {index} of {parent} is out of order or duplicated"

end TreeError

/-- Puts the default value in the place of a failure. -/
def orDefault {β : Type} [Inhabited β] : Except TreeError β → β
  | .ok b => b
  | .error _ => default

end PolicyTree
