import PolicyTree.Proofs.Tree.Cloning
import PolicyTree.Proofs.Tree.Commute
import PolicyTree.Proofs.Tree.Erasure
import PolicyTree.Proofs.Tree.Substitution

/-! A subtree that is taken out into a tree of its own and grafted back stands where it stood, under
other handles. -/

namespace PolicyTree.Tree

open Forest

variable {α : Type} {t t' u : Tree α} {f : Forest α} {q : Option Handle}
  {rest : List (Handle × Node α)} {s c k : Sprig α} {i : Nat} {x new : Handle}
  {π σ : Handle → Handle}

/-! ## The same place -/

/-- A built-in policy would put the value of a child where the child stands. -/
theorem resettled_self (builtIn : t.policy.BuiltIn)
    (ordered : ∀ cmp, t.policy.SortsBy cmp → f.Ordered cmp) (mem : s ∈ f.nodes)
    (child : s.below.sprigs[i]? = some c) : Resettled t.policy s.below i c.value i := by
  unfold Resettled
  split
  case isTrue keyed =>
    obtain ⟨cmp, sorting⟩ := builtIn.exists_keyed keyed
    have sorts := sorting.sortsBy
    have := sorts.trans
    exact place_eq_before_of_eq sorts (ordered cmp sorts s mem) child Std.ReflCmp.compare_self
  case isFalse => rfl

/-- A copy put in the place of a child is the child under new names. -/
theorem Stores.mapBelow_swapAt_rename (stores : t.Stores q f rest) (mem : s ∈ f.nodes)
    (child : s.below.sprigs[i]? = some c) (σ : Handle → Handle) :
    f.mapBelow s.handle (swapAt i i (c.rename σ)) = f.rename (graft id σ c) := by
  have apart := (stores.pluck mem child).apart
  -- The child comes as a new one to the forest without it.
  have grafted := rename_mapBelow_graft (σ := id) (p := s.handle) (k := plantAt i) σ
    (fun _ _ same => same) apart fun τ b => rename_plantAt τ i c b
  have stays : (f.mapBelow s.handle (pluckAt i)).mapBelow s.handle (plantAt i c) = f := by
    rw [mapBelow_mapBelow]
    exact mapBelow_swapAt_same stores.nodup mem child
  rw [stays, rename_id] at grafted
  rw [grafted]
  exact (mapBelow_mapBelow f s.handle (pluckAt i) (plantAt i (c.rename σ))).symm

/-! ## The same tree -/

/-- From `t` to `t'` the subtree at `x` got other handles, with `new` at its top, and all else stayed
as it was: `π` takes every live node of `t` to one of `t'` with the same value, whose parent and
children are those that correspond. -/
structure Regrafts (t t' : Tree α) (x new : Handle) (π : Handle → Handle) : Prop where
  top : π x = new
  kept : ∀ h, t.contains h = true → h ∉ t.subtree x → π h = h
  fresh : ∀ h ∈ t.subtree x, ¬t.contains (π h) = true
  copies : t'.Copies t {h | t.contains h = true} t.root some π
  preOrder_eq : t'.preOrder = t.preOrder.map (·.rename π)
  parent_eq : t'.parent new = t.parent x
  position?_eq : t'.position? new = t.position? x
  len_eq : t'.len = t.len

/-- Under other names every node has the index that it had. -/
theorem Shows.position?_rename (shows : t.Shows f) (mem : k ∈ f.nodes)
    (shown : t'.Shows (f.rename π)) : t'.position? (π k.handle) = t.position? k.handle := by
  rcases top_or_child mem with root | ⟨s, above, child⟩
  · have slot : t'.slotInParent (π k.handle) = .ok none :=
      shown.stores.slotInParent_of_top (top_rename root π)
    rw [position?, position?, slot, shows.stores.slotInParent_of_top root]
  · obtain ⟨i, entry⟩ := List.mem_iff_getElem?.mp child
    rw [shows.stores.position?_of_child above entry]
    exact shown.stores.position?_of_child (mem_rename above π) (child_rename entry π)

/-- If only the names in one subtree are new, its top hangs under the same node. -/
theorem Shows.parent_graft (shows : t.Shows f) (mem : k ∈ f.nodes)
    (shown : t'.Shows (f.rename (graft id σ k))) :
    t'.parent (graft id σ k k.handle) = t.parent k.handle := by
  rcases top_or_child mem with root | ⟨s, above, child⟩
  · have parent := parent_of_node?
      (shown.stores.node?_of_mem_sprigs (top_rename root (graft id σ k)))
    rw [parent_of_node? (shows.stores.node?_of_mem_sprigs root)]
    exact parent
  · obtain ⟨i, entry⟩ := List.mem_iff_getElem?.mp child
    have other : s.handle ∉ k.handles := fun inside =>
      (List.nodup_cons.mp (shows.nodup.sublist (handles_sublist above))).1
        ((handles_sublist (mem_nodes_of_mem_sprigs child)).subset inside)
    have parent := shown.stores.parent_of_child (mem_rename above (graft id σ k))
      (child_rename entry (graft id σ k))
    rw [Sprig.handle_rename, Sprig.handle_rename, graft_of_notMem other] at parent
    rw [parent, shows.stores.parent_of_child above entry, id]

theorem Shows.regrafts (shows : t.Shows f) (mem : k ∈ f.nodes)
    (fresh : ∀ h ∈ (k.rename σ).handles, h ∉ f.handles)
    (shown : t'.Shows (f.rename (graft id σ k))) :
    t.Regrafts t' k.handle (graft id σ k k.handle) (graft id σ k) := by
  refine ⟨rfl, fun h live outside => ?_, fun h within => ?_, shows.copies_rename shown,
    shows.preOrder_rename shown, shows.parent_graft mem shown, shows.position?_rename mem shown, ?_⟩
  · rw [shows.mem_subtree_iff mem] at outside
    exact graft_of_notMem outside
  · rw [shows.mem_subtree_iff mem] at within
    rw [graft_of_mem within, shows.contains_iff]
    apply fresh
    rw [Sprig.handles_rename]
    exact List.mem_map_of_mem within
  · rw [shown.len_eq, shows.len_eq, handles_rename, List.length_map]

/-! ## There and back -/

/-- What stands in a tree under a built-in policy, under whatever names, can be grafted where it
stands. -/
theorem Shows.replaceSubtree_self (shows : t.Shows f) (builtIn : t.policy.BuiltIn)
    (ordered : ∀ cmp, t.policy.SortsBy cmp → f.Ordered cmp) (mem : k ∈ f.nodes)
    (shown : u.Shows (ofSprigs [k.rename σ])) :
    ∃ (t' : Tree α) (new : Handle) (π : Handle → Handle),
      t.replaceSubtree k.handle u = t'.answer new ∧ t.Regrafts t' k.handle new π := by
  have settled : ∀ s ∈ (ofSprigs [k]).nodes,
      t.policy.arrange Sprig.value s.below.sprigs = some s.below.sprigs := by
    intro s inside
    rw [nodes_single] at inside
    exact arrange_of_builtIn builtIn ordered ((nodes_sublist mem).subset inside)
  have settled' := settled_rename settled σ
  rw [rename_single, nodes_single] at settled'
  have root := shown.root_eq_some
  rw [replaceSubtree, root]
  dsimp only
  rcases shows.replaceWithSubtree_exact builtIn.inRange shown.stores (mem_nodes_single _)
      (shows.stores.contains mem) with
    ⟨c, first, -⟩ | ⟨-, ⟨s, above, i, c, m, child, here, keyed, taken, -⟩ |
      ⟨partner, t', done, fresh, placed⟩⟩
  · exact absurd first (Follows.not_first_clash fun s inside => follows_some (settled' s inside))
  · obtain rfl := node_unique shows.nodup
      (mem_nodes_of_child above (List.mem_of_getElem? child)) mem here
    exact absurd taken ((resettled_self builtIn ordered above child).not_taken keyed)
  · rw [Sprig.replica_eq_rename settled', Sprig.rename_rename] at fresh placed
    have top : graft id (fun h => partner (σ h)) k k.handle = partner (σ k.handle) :=
      graft_of_mem (List.mem_cons_self ..)
    refine ⟨t', _, _, by rw [top]; exact done, shows.regrafts mem fresh ?_⟩
    rcases placed with ⟨s, rfl, here, shown'⟩ | ⟨s, above, i, j, c, child, here, resettled, shown'⟩
    · obtain rfl := node_unique shows.nodup (mem_nodes_single s) mem here
      rw [rename_single, Sprig.rename_graft]
      exact shown'
    · obtain rfl := node_unique shows.nodup
        (mem_nodes_of_child above (List.mem_of_getElem? child)) mem here
      have own := resettled_self builtIn ordered above child
      obtain rfl := resettled.unique own
      rw [← shows.stores.mapBelow_swapAt_rename above child]
      exact shown'

/-- Under a built-in policy any live node can be taken out with its subtree into a tree under the same
policy, and that tree can be put in the place of the subtree. The tree is then as it was, node by
node and list by list, but that the nodes of the subtree have new handles. -/
theorem Reachable.round_trip (reached : t.Reachable) (builtIn : t.policy.BuiltIn)
    (live : t.contains x = true) (owners : Owners) :
    ∃ u, (t.extract x t.policy owners).1 = .done u ∧
      ∃ (t' : Tree α) (new : Handle) (π : Handle → Handle),
        t.replaceSubtree x u = t'.answer new ∧ t.Regrafts t' x new π := by
  obtain ⟨f, shows, ordered⟩ := reached.exists_forest builtIn.inRange
  obtain ⟨n, stored⟩ := Arena.contains_iff.mp live
  obtain ⟨k, mem, rfl, -⟩ := shows.exists_node stored
  have settled : ∀ s ∈ k.nodes,
      t.policy.arrange Sprig.value s.below.sprigs = some s.below.sprigs := fun s inside =>
    arrange_of_builtIn builtIn ordered ((nodes_sublist mem).subset inside)
  rcases shows.stores.extract_cases mem t.policy owners with
    ⟨c, first, -⟩ | ⟨-, u, partner, done, shown⟩
  · exact absurd first (Follows.not_first_clash fun s inside => follows_some (settled s inside))
  · rw [Sprig.replica_eq_rename settled] at shown
    exact ⟨u, done, shows.replaceSubtree_self builtIn ordered mem shown⟩

/-- The child 7 is taken out with the 9 below it, and comes back before the 2. -/
theorem round_trip_sample :
    sampleBranch.policy.BuiltIn ∧ sampleBranch.contains ⟨1, 1, 0⟩ = true ∧
      ∃ u, (sampleBranch.extract ⟨1, 1, 0⟩ sampleBranch.policy ⟨2⟩).1 = .done u ∧
        ∃ (t' : Tree Nat) (new : Handle), sampleBranch.replaceSubtree ⟨1, 1, 0⟩ u = t'.answer new ∧
          new ≠ ⟨1, 1, 0⟩ ∧ t'.position? new = some 0 ∧ t'.values = [5, 7, 9, 2] := by
  have builtIn : sampleBranch.policy.BuiltIn := by
    rw [sampleBranch, policy_insert, policy_sample]
    exact .insertionOrder
  have live : sampleBranch.contains ⟨1, 1, 0⟩ = true := by decide +kernel
  have position : sampleBranch.position? ⟨1, 1, 0⟩ = some 0 := by decide +kernel
  have values : sampleBranch.values = [5, 7, 9, 2] := by decide +kernel
  obtain ⟨u, taken, t', new, π, done, regrafts⟩ :=
    reachable_sampleBranch.round_trip builtIn live ⟨2⟩
  refine ⟨builtIn, live, u, taken, t', new, done, fun same => ?_, ?_, ?_⟩
  · exact regrafts.fresh _ .refl (by rw [regrafts.top, same, live])
  · rw [regrafts.position?_eq, position]
  · rw [Tree.values, regrafts.preOrder_eq, map_value_rename, ← values, Tree.values]

end PolicyTree.Tree
