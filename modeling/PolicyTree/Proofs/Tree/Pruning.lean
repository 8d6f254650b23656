import PolicyTree.Proofs.Forest.Siblings
import PolicyTree.Proofs.Tree.Closure
import PolicyTree.Proofs.Tree.Relink

/-! Freeing of subtrees, and the erasures built on it. -/

namespace PolicyTree.Tree

open Forest

variable {α : Type} {t : Tree α} {f : Forest α} {q : Option Handle} {rest : List (Handle × Node α)}
  {s c : Sprig α}

/-! ## Freeing -/

@[simp] theorem root_foldl_release (hs : List Handle) (t : Tree α) :
    (hs.foldl Tree.release t).root = t.root := by
  induction hs generalizing t with
  | nil => rfl
  | cons h hs ih => exact ih (t.release h)

/-- The nodes below the pending ones are met with later siblings before earlier ones. -/
theorem Stores.backward_eq (stores : t.Stores q f rest) (bound : Nat) (pending : List (Sprig α))
    (inside : ∀ s ∈ pending, s ∈ f.nodes)
    (enough : (pending.flatMap Sprig.backward).length ≤ bound) :
    t.backward bound (pending.map Sprig.handle) =
      (pending.flatMap Sprig.backward).map Sprig.handle := by
  induction bound generalizing pending with
  | zero =>
    rw [List.eq_nil_of_length_eq_zero (Nat.le_zero.mp enough)]
    rfl
  | succ bound ih =>
    cases pending with
    | nil => rfl
    | cons s pending =>
      have here := inside s (List.mem_cons_self ..)
      obtain ⟨p, stored⟩ := stores.exists_node? here
      have next : s.below.roots.reverse ++ pending.map Sprig.handle =
          (s.below.sprigs.reverse ++ pending).map Sprig.handle := by
        simp [roots]
      have whole : (s :: pending).flatMap Sprig.backward =
          s :: (s.below.sprigs.reverse ++ pending).flatMap Sprig.backward := by
        rw [List.flatMap_append, ← backward_eq_flatMap]
        rfl
      rw [whole] at enough ⊢
      rw [List.map_cons, backward, stored]
      dsimp only
      rw [next, ih _ (fun c mem => ?_) (Nat.le_of_succ_le_succ enough), List.map_cons]
      rcases List.mem_append.mp mem with child | later
      · exact mem_nodes_of_child here (List.mem_reverse.mp child)
      · exact inside c (List.mem_cons_of_mem _ later)

theorem Stores.backwardFrom_eq (stores : t.Stores q f rest) (mem : s ∈ f.nodes) :
    t.backwardFrom s.handle = s.backward.map Sprig.handle := by
  have enough : s.backward.length ≤ t.len := by
    rw [(backward_perm_sprig s).length_eq, ← List.length_map Sprig.handle]
    exact stores.length_handles_le mem
  have single : [s].flatMap Sprig.backward = s.backward := List.flatMap_singleton ..
  have listed := stores.backward_eq t.len [s] (fun c here => by rwa [List.mem_singleton.mp here])
  rw [single] at listed
  exact listed enough

/-- Freeing a subtree leaves what is stored beside it. -/
theorem Stores.release (stores : t.Stores q (ofSprigs [s]) rest) :
    (t.release s.handle).arena.Holds rest := by
  apply Arena.Holds.foldl_erase stores
  rw [map_fst_records, handles_single, stores.backwardFrom_eq (mem_nodes_single s)]
  exact (backward_perm_sprig s).map Sprig.handle

theorem Stores.release_beside {p : Option Handle}
    (stores : t.Stores p f (s.records q ++ rest)) : (t.release s.handle).Stores p f rest :=
  stores.beside.release

theorem Stores.foldl_release {ss : List (Sprig α)} (stores : t.Stores q (ofSprigs ss) rest) :
    ((ss.map Sprig.handle).foldl Tree.release t).arena.Holds rest := by
  induction ss generalizing t with
  | nil => exact stores
  | cons s ss ih =>
    refine ih (t := t.release s.handle) (Stores.release (q := q) ?_)
    simpa [Stores, records_eq_flatMap] using stores

/-! ## Erasures -/

/-- A child taken out of its list, with its subtree, is stored beside the other nodes. -/
theorem Stores.pluck (stores : t.Stores q f rest) (mem : s ∈ f.nodes) {i : Nat}
    (child : s.below.sprigs[i]? = some c) :
    (t.updateChildren s.handle (·.eraseIdx i)).Stores q (f.mapBelow s.handle (pluckAt i))
      (c.records (some s.handle) ++ rest) := by
  apply stores.updateChildren mem (roots_pluckAt ..)
  rw [← List.append_assoc]
  apply List.Perm.append_right
  apply List.perm_append_comm.trans
  exact (records_perm_cons (sprigs_pluckAt_perm child) _).symm

/-- Erasing a child answers its value and takes it out with its subtree. -/
theorem Stores.erase_eq (stores : t.Stores q f rest) (mem : s ∈ f.nodes) {i : Nat}
    (child : s.below.sprigs[i]? = some c) :
    ∃ t' : Tree α, t.erase c.handle = t'.answer c.value ∧
      t'.Stores q (f.mapBelow s.handle (pluckAt i)) rest ∧ t'.root = t.root := by
  have valued := stores.value_eq (mem_nodes_of_child mem (List.mem_of_getElem? child))
  rw [Tree.erase, stores.slotInParent_of_child mem child, require_ok, valued, require_ok]
  exact ⟨_, rfl, (stores.pluck mem child).release_beside, rfl⟩

/-- Erasing the children of a node leaves it bare and counts all that stood below it. -/
theorem Stores.eraseChildren_eq (stores : t.Stores q f rest) (mem : s ∈ f.nodes) :
    ∃ t' : Tree α, t.eraseChildren s.handle = t'.answer s.below.handles.length ∧
      t'.Stores q (f.mapBelow s.handle fun _ => nil) rest ∧ t'.root = t.root := by
  have bared : (t.updateChildren s.handle fun _ => []).Stores q
      (f.mapBelow s.handle fun _ => nil) (s.below.records (some s.handle) ++ rest) :=
    stores.updateChildren mem rfl (.refl _)
  have freed : (s.below.roots.foldl Tree.release (t.updateChildren s.handle fun _ => [])).Stores q
      (f.mapBelow s.handle fun _ => nil) rest := by
    apply Stores.foldl_release (q := some s.handle)
    apply Arena.Holds.perm bared
    rw [ofSprigs_sprigs]
    exact List.perm_append_comm_assoc ..
  obtain ⟨p, stored⟩ := stores.exists_node? mem
  rw [Tree.eraseChildren, node, stored, require_ok]
  refine ⟨_, ?_, freed, root_foldl_release ..⟩
  have before := Arena.Holds.len_eq bared
  have after := Arena.Holds.len_eq freed
  rw [List.length_append, List.length_append, length_records, length_records] at before
  rw [List.length_append, length_records] at after
  have counted : (t.updateChildren s.handle fun _ => []).arena.len = t.arena.len :=
    Arena.len_modify ..
  simp only [answer, len, Reply.mk.injEq, Outcome.done.injEq, and_true]
  omega

/-- Erasing the root takes away the root with all below it. -/
theorem Stores.erase_root (stores : t.Stores none (ofSprigs [s]) rest) :
    ∃ t' : Tree α, t.erase s.handle = t'.answer s.value ∧ t'.arena.Holds rest ∧ t'.root = none := by
  have valued := stores.value_eq (mem_nodes_single s)
  have freed : ((t.detach none).release s.handle).arena.Holds rest :=
    Stores.release (t := t.detach none) stores
  rw [Tree.erase, stores.slotInParent_of_top (s := s) (by simp), require_ok, valued, require_ok]
  exact ⟨_, rfl, freed, rfl⟩

theorem Shows.erase_root (shows : t.Shows (ofSprigs [s])) :
    (t.erase s.handle).outcome = .done s.value ∧ (t.erase s.handle).tree.Shows nil := by
  obtain ⟨t', done, empty, root⟩ := shows.stores.erase_root
  rw [done]
  refine ⟨rfl, ?_, stores_nil_iff.mpr empty⟩
  rw [answer_tree, root]
  rfl

/-- Erasing fails on a dead handle, empties the tree at its root, and plucks any other node. -/
theorem Shows.erase_cases (shows : t.Shows f) (h : Handle) :
    (t.node? h = none ∧ t.erase h = t.refuse (.invalidHandle h)) ∨
      (∃ s, f = ofSprigs [s] ∧ s.handle = h ∧ (t.erase h).outcome = .done s.value ∧
        (t.erase h).tree.Shows nil) ∨
      ∃ s ∈ f.nodes, ∃ i c, s.below.sprigs[i]? = some c ∧ c.handle = h ∧
        (t.erase h).outcome = .done c.value ∧
        (t.erase h).tree.Shows (f.mapBelow s.handle (pluckAt i)) := by
  rcases shows.locate h with ⟨dead, slot⟩ | ⟨s, rfl, rfl, -⟩ | ⟨s, mem, i, c, child, rfl, -⟩
  · refine .inl ⟨dead, ?_⟩
    rw [Tree.erase, slot, require_error]
  · exact .inr (.inl ⟨s, rfl, rfl, shows.erase_root⟩)
  · obtain ⟨t', done, stores, root⟩ := shows.stores.erase_eq mem child
    refine .inr (.inr ⟨s, mem, i, c, child, rfl, ?_⟩)
    rw [done]
    exact ⟨rfl, shows_mapBelow (shows.roots_of_eq root) stores⟩

/-- Erasing the children of a live node leaves it bare and counts all that stood below it. -/
theorem Shows.eraseChildren_cases (shows : t.Shows f) (h : Handle) :
    (t.node? h = none ∧ t.eraseChildren h = t.refuse (.invalidHandle h)) ∨
      ∃ s ∈ f.nodes, s.handle = h ∧
        (t.eraseChildren h).outcome = .done s.below.handles.length ∧
        (t.eraseChildren h).tree.Shows (f.mapBelow s.handle fun _ => nil) := by
  cases live : t.node? h with
  | none =>
    refine .inl ⟨rfl, ?_⟩
    rw [Tree.eraseChildren, node, live, require_error]
  | some n =>
    obtain ⟨s, mem, rfl, -⟩ := shows.exists_node live
    obtain ⟨t', done, stores, root⟩ := shows.stores.eraseChildren_eq mem
    refine .inr ⟨s, mem, rfl, ?_⟩
    rw [done]
    exact ⟨rfl, shows_mapBelow (shows.roots_of_eq root) stores⟩

end PolicyTree.Tree
