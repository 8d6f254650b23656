import PolicyTree.Proofs.Arrangement
import PolicyTree.Proofs.Forest.Rename

/-! Copies of forests under other handles, every sibling list arranged anew by a policy. -/

namespace PolicyTree

open Forest

variable {α : Type} {policy : Policy α} {partner partner' : Handle → Handle} {f : Forest α}
  {s k c : Sprig α} {out : List (Sprig α)}

/-- The copies of the siblings, one by one. Below a node whose children the policy refuses nothing
is copied. -/
def Forest.replicas (policy : Policy α) (partner : Handle → Handle) : Forest α → List (Sprig α)
  | nil => []
  | cons h x below later =>
    ⟨partner h, x, ofSprigs
        ((policy.arrange Sprig.value (below.replicas policy partner)).getD [])⟩ ::
      later.replicas policy partner

namespace Sprig

/-- The policy refuses one of the children of `s` if they are placed one by one. -/
def clashes (policy : Policy α) (s : Sprig α) : Bool :=
  (policy.arrange value s.below.sprigs).isNone

theorem exists_arrangement (free : s.clashes policy = false) :
    ∃ out, policy.arrange value s.below.sprigs = some out :=
  Option.isSome_iff_exists.mp (Option.isNone_eq_false_iff.mp free)

def replica (policy : Policy α) (partner : Handle → Handle) (s : Sprig α) : Sprig α :=
  ⟨partner s.handle, s.value,
    ofSprigs ((policy.arrange value (s.below.replicas policy partner)).getD [])⟩

@[simp] theorem handle_replica (s : Sprig α) :
    (s.replica policy partner).handle = partner s.handle := rfl

@[simp] theorem value_replica (s : Sprig α) : (s.replica policy partner).value = s.value := rfl

end Sprig

namespace Forest

theorem replicas_eq_map (f : Forest α) :
    f.replicas policy partner = f.sprigs.map (Sprig.replica policy partner) := by
  induction f with
  | nil => rfl
  | cons h x below later _ ih =>
    rw [replicas, ih]
    rfl

/-- Copies are arranged as the nodes are. -/
theorem arrange_replicas (f : Forest α) :
    policy.arrange Sprig.value (f.replicas policy partner) =
      (policy.arrange Sprig.value f.sprigs).map (List.map (Sprig.replica policy partner)) := by
  rw [replicas_eq_map, Policy.arrange_map]
  rfl

end Forest

/-- The children of a copy are the copies of the children, arranged. -/
theorem Sprig.below_replica (arranged : policy.arrange Sprig.value s.below.sprigs = some out) :
    (s.replica policy partner).below = ofSprigs (out.map (Sprig.replica policy partner)) := by
  rw [replica, arrange_replicas, arranged]
  rfl

/-! ## Nodes -/

theorem Forest.nodes_replicas_perm (partner : Handle → Handle)
    (free : ∀ k ∈ f.nodes, k.clashes policy = false) :
    ((f.replicas policy partner).flatMap Sprig.nodes).Perm
      (f.nodes.map (Sprig.replica policy partner)) := by
  induction f with
  | nil => exact .refl _
  | cons h x below later ihBelow ihLater =>
    simp only [nodes, List.forall_mem_cons, List.forall_mem_append] at free
    obtain ⟨here, inside, others⟩ := free
    obtain ⟨out, arranged⟩ := Sprig.exists_arrangement here
    have moved : (out.map (Sprig.replica policy partner)).Perm (below.replicas policy partner) := by
      rw [replicas_eq_map]
      exact (Policy.perm_of_arrange arranged).map _
    have under : (Sprig.replica policy partner ⟨h, x, below⟩).below.nodes.Perm
        (below.nodes.map (Sprig.replica policy partner)) := by
      rw [Sprig.below_replica arranged, nodes_eq_flatMap, sprigs_ofSprigs]
      exact (moved.flatMap_right Sprig.nodes).trans (ihBelow inside)
    rw [nodes, List.map_cons, List.map_append]
    exact (under.append (ihLater others)).cons (Sprig.replica policy partner ⟨h, x, below⟩)

/-- A whole copy has the copies of all nodes, each once. -/
theorem Sprig.nodes_replica_perm (partner : Handle → Handle)
    (free : ∀ k ∈ s.nodes, k.clashes policy = false) :
    (s.replica policy partner).nodes.Perm (s.nodes.map (Sprig.replica policy partner)) := by
  have alone : ∀ k ∈ (ofSprigs [s]).nodes, k.clashes policy = false := by rwa [nodes_single]
  have copied := nodes_replicas_perm partner alone
  rw [nodes_single, replicas_eq_map, sprigs_ofSprigs, List.map_singleton,
    List.flatMap_singleton] at copied
  exact copied

theorem Sprig.handles_replica_perm (partner : Handle → Handle)
    (free : ∀ k ∈ s.nodes, k.clashes policy = false) :
    (s.replica policy partner).handles.Perm (s.handles.map partner) := by
  have listed := (nodes_replica_perm partner free).map Sprig.handle
  rw [List.map_map] at listed
  rw [Sprig.handles, Sprig.handles, List.map_map]
  exact listed

theorem Sprig.length_handles_replica (partner : Handle → Handle)
    (free : ∀ k ∈ s.nodes, k.clashes policy = false) :
    (s.replica policy partner).handles.length = s.handles.length := by
  rw [(handles_replica_perm partner free).length_eq, List.length_map]

theorem Sprig.replica_mem (free : ∀ k ∈ s.nodes, k.clashes policy = false) (mem : k ∈ s.nodes) :
    k.replica policy partner ∈ (s.replica policy partner).nodes :=
  (nodes_replica_perm partner free).mem_iff.mpr (List.mem_map_of_mem mem)

/-- The copy of a child is a child of the copy. -/
theorem Sprig.replica_child (free : k.clashes policy = false) (child : c ∈ k.below.sprigs) :
    c.replica policy partner ∈ (k.replica policy partner).below.sprigs := by
  obtain ⟨out, arranged⟩ := exists_arrangement free
  rw [below_replica arranged, sprigs_ofSprigs]
  exact List.mem_map_of_mem ((Policy.perm_of_arrange arranged).mem_iff.mpr child)

/-! ## Names -/

theorem Forest.replicas_congr (agree : ∀ h ∈ f.handles, partner h = partner' h) :
    f.replicas policy partner = f.replicas policy partner' := by
  induction f with
  | nil => rfl
  | cons h x below later ihBelow ihLater =>
    simp only [handles_cons, List.forall_mem_cons, List.forall_mem_append] at agree
    obtain ⟨here, inside, others⟩ := agree
    rw [replicas, replicas, here, ihBelow inside, ihLater others]

theorem Sprig.replica_congr (agree : ∀ h ∈ s.handles, partner h = partner' h) :
    s.replica policy partner = s.replica policy partner' := by
  obtain ⟨here, inside⟩ := List.forall_mem_cons.mp agree
  rw [replica, replica, replicas_congr inside, here]

/-! ## Copies in the same order -/

theorem Forest.arrange_replicas_eq (here : policy.arrange Sprig.value f.sprigs = some f.sprigs) :
    policy.arrange Sprig.value (f.replicas policy partner) =
      some (f.replicas policy partner) := by
  rw [arrange_replicas, here, replicas_eq_map]
  rfl

section Settled

variable
  (settled : ∀ k ∈ f.nodes, policy.arrange Sprig.value k.below.sprigs = some k.below.sprigs)
include settled

/-- Where every sibling list is arranged as it stands, the copies are the nodes under their new
names. -/
theorem Forest.ofSprigs_replicas : ofSprigs (f.replicas policy partner) = f.rename partner := by
  induction f with
  | nil => rfl
  | cons h x below later ihBelow ihLater =>
    simp only [nodes, List.forall_mem_cons, List.forall_mem_append] at settled
    obtain ⟨here, inside, others⟩ := settled
    rw [replicas, arrange_replicas_eq here, Option.getD_some, ofSprigs, ihBelow inside,
      ihLater others, rename]

/-- Under other names the sibling lists are arranged as they stand, too. -/
theorem Forest.settled_rename (σ : Handle → Handle) : ∀ k ∈ (f.rename σ).nodes,
    policy.arrange Sprig.value k.below.sprigs = some k.below.sprigs := by
  intro k mem
  rw [nodes_rename] at mem
  obtain ⟨s, old, rfl⟩ := List.mem_map.mp mem
  have here : policy.arrange (fun c => (Sprig.rename σ c).value) s.below.sprigs =
      some s.below.sprigs := settled s old
  rw [Sprig.below_rename, sprigs_rename, Policy.arrange_map, here]
  rfl

end Settled

section Settled

variable
  (settled : ∀ k ∈ s.nodes, policy.arrange Sprig.value k.below.sprigs = some k.below.sprigs)
include settled

theorem Sprig.replica_eq_rename : s.replica policy partner = s.rename partner := by
  obtain ⟨here, inside⟩ := List.forall_mem_cons.mp settled
  rw [replica, arrange_replicas_eq here, Option.getD_some, ofSprigs_replicas inside, rename]

theorem Sprig.visits_replica :
    (ofSprigs [s.replica policy partner]).visits 0 =
      ((ofSprigs [s]).visits 0).map fun v => { v with handle := partner v.handle } := by
  rw [replica_eq_rename settled, ← rename_single, visits_rename]

end Settled

end PolicyTree
