import PolicyTree.Proofs.Forest.Edits
import PolicyTree.Proofs.Policies

/-! Edits under a sorting policy keep every sibling list in order. -/

namespace PolicyTree

variable {α : Type}

/-- The children of the node, and all lists below them, are strictly increasing. -/
def Sprig.Ordered (cmp : α → α → Ordering) (s : Sprig α) : Prop :=
  ∀ c ∈ s.nodes, Ascending cmp c.below.rootValues

namespace Forest

variable {cmp : α → α → Ordering} {policy : Policy α} {f f' b : Forest α} {s c : Sprig α}
  {g : Forest α → Forest α} {i j : Nat}

/-- The children of every node are strictly increasing. -/
def Ordered (cmp : α → α → Ordering) (f : Forest α) : Prop :=
  ∀ s ∈ f.nodes, Ascending cmp s.below.rootValues

theorem ordered_nil : (nil : Forest α).Ordered cmp := nofun

theorem ordered_iff_sprigs : f.Ordered cmp ↔ ∀ s ∈ f.sprigs, s.Ordered cmp := by
  rw [Ordered, nodes_eq_flatMap, List.forall_mem_flatMap]
  rfl

theorem sprig_ordered_iff :
    s.Ordered cmp ↔ Ascending cmp s.below.rootValues ∧ s.below.Ordered cmp :=
  List.forall_mem_cons

theorem ordered_single_iff : (ofSprigs [s]).Ordered cmp ↔ s.Ordered cmp := by
  simp [ordered_iff_sprigs]

theorem Ordered.sprig (ordered : f.Ordered cmp) (mem : s ∈ f.nodes) : s.Ordered cmp :=
  sprig_ordered_iff.mpr ⟨ordered s mem, fun _ under => ordered _ (mem_nodes_of_mem_below mem under)⟩

theorem ordered_of_subset (ordered : f.Ordered cmp) (subset : f'.sprigs ⊆ f.sprigs) :
    f'.Ordered cmp :=
  ordered_iff_sprigs.mpr fun s mem => ordered_iff_sprigs.mp ordered s (subset mem)

/-- The value of a node does not enter the order below it. -/
theorem sprig_ordered_revalue (ordered : s.Ordered cmp) (x : α) :
    (Sprig.mk s.handle x s.below).Ordered cmp := by
  obtain ⟨asc, inside⟩ := sprig_ordered_iff.mp ordered
  exact sprig_ordered_iff.mpr ⟨asc, inside⟩

theorem sprig_ordered_leaf (h : Handle) (x : α) : (Sprig.mk h x nil).Ordered cmp :=
  sprig_ordered_iff.mpr ⟨List.Pairwise.nil, ordered_nil⟩

/-! ## One sibling list -/

/-- A change of one list keeps the forest in order if it leaves the list and all below it so. -/
theorem Ordered.mapBelow (ordered : f.Ordered cmp) (nodup : f.handles.Nodup) (mem : s ∈ f.nodes)
    (asc : Ascending cmp (g s.below).rootValues) (inside : (g s.below).Ordered cmp) :
    (f.mapBelow s.handle g).Ordered cmp := by
  intro c changed
  rcases mem_nodes_mapBelow changed with ⟨k, old, -, rfl⟩ | ⟨k, old, same, new⟩
  · rw [rootValues_mapBelow]
    exact ordered k old
  · obtain rfl := node_unique nodup old mem same
    rcases new with rfl | new
    · exact asc
    · exact inside c new

theorem Ordered.plantAt (ordered : b.Ordered cmp) (new : s.Ordered cmp) (i : Nat) :
    (b.plantAt i s).Ordered cmp := by
  rw [ordered_iff_sprigs]
  intro c mem
  rcases List.mem_cons.mp ((sprigs_plantAt_perm i s b).mem_iff.mp mem) with rfl | mem
  · exact new
  · exact ordered_iff_sprigs.mp ordered c mem

theorem Ordered.pluckAt (ordered : b.Ordered cmp) (i : Nat) : (b.pluckAt i).Ordered cmp := by
  apply ordered_of_subset ordered
  rw [Forest.pluckAt, sprigs_ofSprigs]
  exact List.eraseIdx_subset

theorem ascending_plantAt (sorts : policy.SortsBy cmp) (asc : Ascending cmp b.rootValues)
    (place : policy.place b.rootValues s.value = .before i) :
    Ascending cmp (b.plantAt i s).rootValues := by
  rw [sorts.place] at place
  have := sorts.trans
  rw [rootValues_plantAt, Nat.min_eq_left (keyedPlace_before_le place)]
  exact asc.insertIdx place

theorem ascending_pluckAt (asc : Ascending cmp b.rootValues) (i : Nat) :
    Ascending cmp (b.pluckAt i).rootValues := by
  rw [rootValues_pluckAt]
  exact List.Pairwise.sublist (List.eraseIdx_sublist ..) asc

/-! ## Edits -/

theorem Planted.ordered (planted : Planted policy f f') (sorts : policy.SortsBy cmp)
    (ordered : f.Ordered cmp) : f'.Ordered cmp := by
  obtain ⟨nodup, mem, place, -⟩ := planted
  obtain ⟨asc, inside⟩ := sprig_ordered_iff.mp (ordered.sprig mem)
  exact ordered.mapBelow nodup mem (ascending_plantAt sorts asc place)
    (inside.plantAt (sprig_ordered_leaf _ _) _)

theorem Grown.ordered (grown : Grown policy f f') (sorts : policy.SortsBy cmp)
    (ordered : f.Ordered cmp) : f'.Ordered cmp := by
  induction grown with
  | refl => exact ordered
  | tail _ planted ih => exact planted.ordered sorts ih

theorem Grown.ordered_of_leaf {h : Handle} {x : α}
    (grown : Grown policy (ofSprigs [⟨h, x, nil⟩]) f') (sorts : policy.SortsBy cmp) :
    f'.Ordered cmp :=
  grown.ordered sorts (ordered_single_iff.mpr (sprig_ordered_leaf h x))

theorem Ordered.swap (ordered : f.Ordered cmp) (sorts : policy.SortsBy cmp)
    (nodup : f.handles.Nodup) (mem : s ∈ f.nodes) (new : c.Ordered cmp)
    (settled : Resettled policy s.below i c.value j) :
    (f.mapBelow s.handle (swapAt i j c)).Ordered cmp := by
  have place := settled.place_eq sorts.keyed
  obtain ⟨asc, inside⟩ := sprig_ordered_iff.mp (ordered.sprig mem)
  exact ordered.mapBelow nodup mem (ascending_plantAt sorts (ascending_pluckAt asc i) place)
    ((inside.pluckAt i).plantAt new j)

theorem Edited.ordered (edited : Edited policy f f') (sorts : policy.SortsBy cmp)
    (nodup : f.handles.Nodup) (ordered : f.Ordered cmp) : f'.Ordered cmp := by
  cases edited with
  | same => exact ordered
  | cleared => exact ordered_nil
  | copied grown => exact grown.ordered_of_leaf sorts
  | planted planted => exact planted.ordered sorts ordered
  | plucked i mem =>
    obtain ⟨asc, inside⟩ := sprig_ordered_iff.mp (ordered.sprig mem)
    exact ordered.mapBelow nodup mem (ascending_pluckAt asc i) (inside.pluckAt i)
  | bared mem => exact ordered.mapBelow nodup mem List.Pairwise.nil ordered_nil
  | rootRevalued x only =>
    subst only
    exact ordered_single_iff.mpr (sprig_ordered_revalue (ordered_single_iff.mp ordered) x)
  | revalued mem child settled =>
    have kept := ordered.sprig (mem_nodes_of_child mem (List.mem_of_getElem? child))
    exact ordered.swap sorts nodup mem (sprig_ordered_revalue kept _) settled
  | substituted mem grown settled =>
    exact ordered.swap sorts nodup mem (ordered_single_iff.mp (grown.ordered_of_leaf sorts)) settled
  | sorted i j cmp unkeyed mem => rw [sorts.keyed] at unkeyed; cases unkeyed

end Forest

end PolicyTree
