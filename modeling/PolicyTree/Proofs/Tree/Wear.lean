import PolicyTree.Proofs.Arena.Wear
import PolicyTree.Proofs.Session

/-! An edit first widens the arena and then wears it: it stores nodes, then changes and frees. -/

namespace PolicyTree.Tree

variable {α : Type} {t : Tree α} {e : Edit (Tree α) α}

theorem keptByBuilding_widened (a : Arena (Node α)) :
    KeptByBuilding fun t : Tree α => a.Widened t.arena where
  allocate widened n := widened.allocate n
  updateNode widened h f := widened.modify h f

theorem keptByPruning_worn (a : Arena (Node α)) :
    KeptByPruning fun t : Tree α => a.Worn t.arena where
  updateNode worn h f := worn.modify h f
  free worn h := worn.erase h
  reroot worn _ := worn

theorem widened_built (t : Tree α) (e : Edit (Tree α) α) :
    t.arena.Widened (t.built e).arena :=
  (keptByBuilding_widened t.arena).built .refl e

theorem worn_perform (t : Tree α) (goesOn : e.resets = false) :
    (t.built e).arena.Worn (t.perform e).tree.arena :=
  (keptByPruning_worn (t.built e).arena).perform goesOn .refl

end PolicyTree.Tree
