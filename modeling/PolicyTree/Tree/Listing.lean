import PolicyTree.Tree.Walk

/-! Figures and texts read off the pre-order listing of a tree. -/

namespace PolicyTree.Tree

variable {α : Type}

def leafCount (t : Tree α) : Nat := t.leaves.length

/-- The number of levels. -/
def height (t : Tree α) : Nat := (t.preOrder.map (·.depth + 1)).foldl max 0

/-- Equality of the listed values. The shape is not compared. -/
instance [BEq α] : BEq (Tree α) where
  beq t u := t.len == u.len && t.values == u.values

/-! ## Text -/

/-- One line of an indented listing. -/
def line (text : α → String) (indent : String) (v : Visit α) : String :=
  String.join (List.replicate v.depth indent) ++ text v.value ++ "\n"

/-- One value per line in pre-order, with `indent` once per level. -/
def renderWith (text : α → String) (indent : String) (t : Tree α) : String :=
  String.join (t.preOrder.map (line text indent))

def render (text : α → String) (t : Tree α) : String := t.renderWith text " "

end PolicyTree.Tree
