import Mathlib.Data.Set.Function
import PolicyTree.Proofs.Tree.Copying
import PolicyTree.Proofs.Tree.Lifetime

/-! When a tree is a copy of a part of another tree, node by node. -/

namespace PolicyTree

open Forest

variable {α : Type}

/-- The copies stand for their nodes one to one. -/
theorem Sprig.bijOn_replica {k : Sprig α} {policy : Policy α} {partner : Handle → Handle}
    (nodup : (k.replica policy partner).handles.Nodup)
    (clear : ∀ s ∈ k.nodes, s.clashes policy = false) :
    Set.BijOn partner {h | h ∈ k.handles} {h | h ∈ (k.replica policy partner).handles} := by
  have listed := Sprig.handles_replica_perm partner clear
  rw [listed.nodup_iff] at nodup
  refine ⟨fun h inside => ?_, fun h inside h' inside' same => ?_, fun h inside => ?_⟩
  · exact listed.mem_iff.mpr (List.mem_map_of_mem inside)
  · exact List.inj_on_of_nodup_map nodup inside inside' same
  · exact List.mem_map.mp (listed.mem_iff.mp inside)

def Visit.rename (partner : Handle → Handle) (v : Visit α) : Visit α :=
  { v with handle := partner v.handle }

namespace Tree

variable {t source : Tree α} {f : Forest α} {k : Sprig α} {policy : Policy α}
  {partner : Handle → Handle} {part : Set Handle} {order : List Handle → Option (List Handle)}

/-- `h` and all that child lists lead to from it. -/
def subtree (t : Tree α) (h : Handle) : Set Handle := {k | Relation.ReflTransGen t.Lists h k}

/-- `partner` takes the nodes of `source` in `part` one to one to the nodes of `t`. Values stay, the
copy of `top` is the root and every other copy hangs under the copy of the parent, with siblings in
the sequence that `order` makes of the handles copied. -/
structure Copies (t source : Tree α) (part : Set Handle) (top : Option Handle)
    (order : List Handle → Option (List Handle)) (partner : Handle → Handle) : Prop where
  root_eq : t.root = top.map partner
  bijOn : Set.BijOn partner part {h | t.contains h = true}
  node?_eq : ∀ h ∈ part, ∀ n, source.node? h = some n → ∃ hs, order n.children = some hs ∧
    t.node? (partner h) =
      some ⟨n.value, if top = some h then none else n.parent.map partner, hs.map partner⟩

theorem Stores.mem_subtree_iff {q : Option Handle} {rest : List (Handle × Node α)}
    (stores : t.Stores q f rest) (mem : k ∈ f.nodes) {h : Handle} :
    h ∈ t.subtree k.handle ↔ h ∈ k.handles := by
  have split : h ∈ t.subtree k.handle ↔ h = k.handle ∨ t.Above k.handle h :=
    Relation.reflTransGen_iff_eq_or_transGen
  rw [split, stores.above_iff mem]
  exact List.mem_cons.symm

theorem Shows.mem_subtree_iff (shows : t.Shows f) (mem : k ∈ f.nodes) {h : Handle} :
    h ∈ t.subtree k.handle ↔ h ∈ k.handles :=
  shows.stores.mem_subtree_iff mem

/-! ## Replicas are copies -/

/-- The order agrees with what the policy makes of the children of `s`. -/
def Follows (order : List Handle → Option (List Handle)) (policy : Policy α) (s : Sprig α) : Prop :=
  ∃ out, policy.arrange Sprig.value s.below.sprigs = some out ∧
    order s.below.roots = some (out.map Sprig.handle)

theorem Follows.not_clashes {s : Sprig α} (follows : Follows order policy s) :
    s.clashes policy = false := by
  obtain ⟨out, arranged, -⟩ := follows
  rw [Sprig.clashes, arranged]
  rfl

theorem Follows.exists_roots {s : Sprig α} (follows : Follows order policy s)
    (partner : Handle → Handle) : ∃ hs, order s.below.roots = some hs ∧
      (s.replica policy partner).below.roots = hs.map partner := by
  obtain ⟨out, arranged, ordered⟩ := follows
  refine ⟨_, ordered, ?_⟩
  rw [Sprig.below_replica arranged, roots_ofSprigs, List.map_map, List.map_map]
  rfl

/-- The handles of the copy are those of the part under their new names, each once. -/
theorem Shows.bijOn_replica (shown : t.Shows (ofSprigs [k.replica policy partner]))
    (clear : ∀ s ∈ k.nodes, s.clashes policy = false) :
    Set.BijOn partner {h | h ∈ k.handles} {h | t.contains h = true} := by
  have nodup := shown.nodup
  rw [handles_single] at nodup
  have live : {h | t.contains h = true} = {h | h ∈ (k.replica policy partner).handles} := by
    ext h
    rw [Set.mem_ofPred_eq, shown.contains_iff, handles_single]
    rfl
  rw [live]
  exact Sprig.bijOn_replica nodup clear

/-- Nothing that a policy refuses below `k` hangs on the value at `k`. -/
theorem Follows.clear_under (follows : ∀ s ∈ k.nodes, Follows order policy s) (x : α) :
    ∀ s ∈ ({ k with value := x } : Sprig α).nodes, s.clashes policy = false := by
  obtain ⟨top, under⟩ := List.forall_mem_cons.mp follows
  exact List.forall_mem_cons.mpr ⟨top.not_clashes, fun s mem => (under s mem).not_clashes⟩

section Replica

variable {p q above : Option Handle} {g : Forest α} {rest rest' : List (Handle × Node α)}
  (stored : source.Stores p f rest) (mem : k ∈ f.nodes) (stores : t.Stores q g rest')
  (follows : ∀ s ∈ k.nodes, Follows order policy s) {h : Handle} {n : Node α}
include stored mem stores follows

/-- Wherever a replica is stored, the nodes below its top are those of the subtree under their new
names, whatever the value at the top. -/
theorem Stores.node?_below_replica {x : α}
    (placed : ({ k with value := x } : Sprig α).replica policy partner ∈ g.nodes)
    (inside : h ∈ k.below.handles) (live : source.node? h = some n) :
    ∃ hs, order n.children = some hs ∧
      t.node? (partner h) = some ⟨n.value, n.parent.map partner, hs.map partner⟩ := by
  have clear := Follows.clear_under follows x
  obtain ⟨s, under, rfl⟩ := List.mem_map.mp inside
  obtain ⟨hs, ordered, roots⟩ := (follows s (List.mem_cons_of_mem _ under)).exists_roots partner
  rcases top_or_child under with child | ⟨d, upper, child⟩
  · have here := stored.node?_of_child mem child
    obtain rfl := Option.some.inj (live.symm.trans here)
    refine ⟨hs, ordered, ?_⟩
    rw [← roots]
    exact stores.node?_of_child placed (Sprig.replica_child (clear _ (List.mem_cons_self ..)) child)
  · have here := stored.node?_of_child (mem_nodes_of_mem_below mem upper) child
    obtain rfl := Option.some.inj (live.symm.trans here)
    have copied : d.replica policy partner ∈ g.nodes :=
      (nodes_sublist placed).subset (Sprig.replica_mem clear (List.mem_cons_of_mem _ upper))
    refine ⟨hs, ordered, ?_⟩
    rw [← roots]
    exact stores.node?_of_child copied
      (Sprig.replica_child (clear d (List.mem_cons_of_mem _ upper)) child)

theorem Stores.node?_replica (placed : k.replica policy partner ∈ g.nodes)
    (top : t.node? (partner k.handle) =
      some ⟨k.value, above, (k.replica policy partner).below.roots⟩)
    (inside : h ∈ k.handles) (live : source.node? h = some n) :
    ∃ hs, order n.children = some hs ∧ t.node? (partner h) =
      some ⟨n.value, if h = k.handle then above else n.parent.map partner, hs.map partner⟩ := by
  rcases List.mem_cons.mp inside with rfl | under
  · obtain ⟨hs, ordered, roots⟩ := (follows k (List.mem_cons_self ..)).exists_roots partner
    obtain ⟨q, here⟩ := stored.exists_node? mem
    obtain rfl := Option.some.inj (live.symm.trans here)
    refine ⟨hs, ordered, ?_⟩
    rw [if_pos rfl, ← roots]
    exact top
  · have distinct := stored.nodup.sublist (handles_sublist mem)
    have other : h ≠ k.handle := by
      rintro rfl
      exact (List.nodup_cons.mp distinct).1 under
    rw [if_neg other]
    exact stored.node?_below_replica mem stores follows placed under live

end Replica

/-- A tree that shows a replica is a copy of the subtree. -/
theorem Shows.copies (shows : source.Shows f) (mem : k ∈ f.nodes)
    (shown : t.Shows (ofSprigs [k.replica policy partner]))
    (follows : ∀ s ∈ k.nodes, Follows order policy s) :
    t.Copies source {h | h ∈ k.handles} (some k.handle) order partner where
  root_eq := shown.root_eq_some
  bijOn := shown.bijOn_replica fun s inside => (follows s inside).not_clashes
  node?_eq := by
    intro h inside n live
    have top := shown.stores.node?_of_mem_sprigs (s := k.replica policy partner) (by simp)
    have copied := shows.stores.node?_replica mem shown.stores follows (mem_nodes_single _) top
      inside live
    simpa only [Option.some.injEq, eq_comm] using copied

/-! ## Listings -/

theorem Stores.preOrderFrom_eq {q : Option Handle} {rest : List (Handle × Node α)}
    (stores : source.Stores q f rest) (mem : k ∈ f.nodes) :
    source.preOrderFrom k.handle = .ok ((ofSprigs [k]).visits 0) := by
  obtain ⟨p, stored⟩ := stores.exists_node? mem
  rw [preOrderFrom, walkFrom, node, stored]
  exact congrArg Except.ok (stores.visits_from mem (stores.length_handles_le mem))

/-- If the policy leaves every sibling list as it is, the copy is listed as the subtree is. -/
theorem Shows.preOrder_replica (shown : t.Shows (ofSprigs [k.replica policy partner]))
    (settled : ∀ s ∈ k.nodes, policy.arrange Sprig.value s.below.sprigs = some s.below.sprigs) :
    t.preOrder = ((ofSprigs [k]).visits 0).map (·.rename partner) := by
  rw [shown.preOrder_eq, Sprig.visits_replica settled]
  rfl

theorem map_value_rename (partner : Handle → Handle) (vs : List (Visit α)) :
    (vs.map (·.rename partner)).map Visit.value = vs.map Visit.value := by
  rw [List.map_map]
  rfl

end Tree

end PolicyTree
