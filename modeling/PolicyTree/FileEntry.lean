/-! Paths as values: entries that compare by their segments. -/

namespace PolicyTree

/-- A path and whether it names a directory. Equality, order and hash see the path's segments
only. -/
structure FileEntry where
  path : String
  isDirectory : Bool

/-- The stretches between separators, empty ones included. -/
def stretches : List Char → List (List Char)
  | [] => [[]]
  | c :: cs => if c = '/' then [] :: stretches cs else (stretches cs).modifyHead (c :: ·)

def segments (cs : List Char) : List (List Char) := (stretches cs).filter (!·.isEmpty)

@[simp] theorem segments_nil : segments [] = [] := rfl

@[simp] theorem segments_separator (cs : List Char) : segments ('/' :: cs) = segments cs := by
  simp [segments, stretches]

namespace FileEntry

def components (e : FileEntry) : List String := (segments e.path.toList).map String.ofList

/-- The path itself, character by character. -/
def hasPath (e : FileEntry) (path : String) : Bool := e.path == path

/-- The path up to its last segment: what stands before the last separator once trailing separators
are dropped, or that separator if it stands first. -/
def parentPath? (e : FileEntry) : Option String :=
  match (e.path.toList.reverse.dropWhile (· == '/')).dropWhile (· != '/') with
  | [] => none
  | [_] => some "/"
  | _ :: front => some (String.ofList front.reverse)

instance : Ord FileEntry where
  compare a b := compare a.components b.components

instance : BEq FileEntry where
  beq a b := compare a b == .eq

instance : Hashable FileEntry where
  hash e := hash e.components

instance : ToString FileEntry := ⟨path⟩

end FileEntry

end PolicyTree
