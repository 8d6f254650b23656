import PolicyTree.Proofs.Tree.Picture

/-! What changes of stored nodes do to the forest that a tree stores. -/

namespace PolicyTree

open Forest

variable {α : Type} {t : Tree α} {f : Forest α} {q : Option Handle}
  {rest rest' : List (Handle × Node α)} {s c : Sprig α}

namespace Tree.Stores

theorem allocate (stores : t.Stores q f rest) (n : Node α) :
    Tree.Stores { t with arena := t.arena.allocate n } q f ((t.arena.fresh, n) :: rest) :=
  (Arena.Holds.allocate stores n).perm List.perm_middle.symm

/-- A sibling list is changed. What leaves the list with its subtrees goes to the rest, and what
enters it comes from there. -/
theorem updateChildren (stores : t.Stores q f rest) (mem : s ∈ f.nodes)
    {g : Forest α → Forest α} {k : List Handle → List Handle}
    (listed : (g s.below).roots = k s.below.roots)
    (moved : ((g s.below).records (some s.handle) ++ rest').Perm
      (s.below.records (some s.handle) ++ rest)) :
    (t.updateChildren s.handle k).Stores q (f.mapBelow s.handle g) rest' := by
  -- Only the middle of the stored nodes changes: the record of `s` and those below it.
  obtain ⟨front, back, p, split⟩ := exists_split stores.nodup mem q
  have before : f.records q = front ++ s.records p ++ back := by simpa using split fun b => b
  have held : t.arena.Holds (s.record p ::
      (s.below.records (some s.handle) ++ rest ++ (front ++ back))) := by
    apply Arena.Holds.perm stores
    rw [before]
    exact perm_front_middle ..
  have changed := held.modify_cons fun n => { n with children := k n.children }
  apply changed.perm
  rw [split g]
  refine .trans ?_ (perm_front_middle ..).symm
  rw [Sprig.record, listed]
  exact (moved.symm.append_right _).cons _

theorem setValue (stores : t.Stores q f rest) (live : s ∈ f.nodes) (x : α) :
    (t.updateNode s.handle ({ · with value := x })).Stores q (f.setValue s.handle x) rest := by
  have changed := Arena.Holds.modify stores s.handle ({ · with value := x })
  have absent := stores.notMem_rest (mem_handles live)
  rw [List.map_append, Arena.map_rebind_of_notMem absent ({ · with value := x })] at changed
  rwa [Stores, records_setValue]

end Tree.Stores

end PolicyTree
