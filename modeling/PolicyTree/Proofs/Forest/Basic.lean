import Mathlib.Data.List.Nodup
import PolicyTree.Tree.Walk

/-! Ordered forests: the nodes of a tree with their shape, apart from any storage. -/

namespace PolicyTree

/-- Siblings in order, each with its handle, its value and the forest of its children. -/
inductive Forest (α : Type) where
  | nil
  | cons (handle : Handle) (value : α) (below later : Forest α)

/-- One node of a forest with all that stands below it. -/
structure Sprig (α : Type) where
  handle : Handle
  value : α
  below : Forest α

namespace Forest

variable {α : Type}

/-- The siblings at the top. -/
def sprigs : Forest α → List (Sprig α)
  | nil => []
  | cons h x below later => ⟨h, x, below⟩ :: later.sprigs

def ofSprigs : List (Sprig α) → Forest α
  | [] => nil
  | s :: ss => cons s.handle s.value s.below (ofSprigs ss)

def roots (f : Forest α) : List Handle := f.sprigs.map Sprig.handle

def rootValues (f : Forest α) : List α := f.sprigs.map Sprig.value

/-- Every node of the forest in pre-order. -/
def nodes : Forest α → List (Sprig α)
  | nil => []
  | cons h x below later => ⟨h, x, below⟩ :: (below.nodes ++ later.nodes)

def handles (f : Forest α) : List Handle := f.nodes.map Sprig.handle

/-- Every node before all below it, and later siblings before earlier ones. -/
def backward : Forest α → List (Sprig α)
  | nil => []
  | cons h x below later => later.backward ++ ⟨h, x, below⟩ :: below.backward

/-- The pre-order listing, with the top at the given depth. -/
def visits : Forest α → Nat → List (Visit α)
  | nil, _ => []
  | cons h x below later, depth =>
    ⟨depth, h, x⟩ :: (below.visits (depth + 1) ++ later.visits depth)

end Forest

namespace Sprig

variable {α : Type}

def nodes (s : Sprig α) : List (Sprig α) := s :: s.below.nodes

def backward (s : Sprig α) : List (Sprig α) := s :: s.below.backward

def handles (s : Sprig α) : List Handle := s.nodes.map handle

/-- The node that stores `s` under the given parent. -/
def record (s : Sprig α) (parent : Option Handle) : Handle × Node α :=
  (s.handle, ⟨s.value, parent, s.below.roots⟩)

@[simp] theorem record_fst (s : Sprig α) (parent : Option Handle) :
    (s.record parent).1 = s.handle := rfl

end Sprig

namespace Forest

variable {α : Type}

/-- The stored nodes of a forest whose top stands under `parent`, in pre-order. -/
def records : Forest α → Option Handle → List (Handle × Node α)
  | nil, _ => []
  | cons h x below later, parent =>
    Sprig.record ⟨h, x, below⟩ parent :: (below.records (some h) ++ later.records parent)

end Forest

/-- The stored nodes of `s` and of all below it. -/
def Sprig.records {α : Type} (s : Sprig α) (parent : Option Handle) : List (Handle × Node α) :=
  s.record parent :: s.below.records (some s.handle)

namespace Forest

variable {α : Type} {f : Forest α}

/-! ## Forests as lists of sprigs -/

@[simp] theorem sprigs_nil : (nil : Forest α).sprigs = [] := rfl

@[simp] theorem sprigs_cons (h : Handle) (x : α) (below later : Forest α) :
    (cons h x below later).sprigs = ⟨h, x, below⟩ :: later.sprigs := rfl

@[simp] theorem sprigs_ofSprigs (ss : List (Sprig α)) : (ofSprigs ss).sprigs = ss := by
  induction ss with
  | nil => rfl
  | cons s ss ih => simp [ofSprigs, ih]

@[simp] theorem ofSprigs_sprigs (f : Forest α) : ofSprigs f.sprigs = f := by
  induction f with
  | nil => rfl
  | cons h x below later _ ih => simp [ofSprigs, ih]

@[simp] theorem roots_ofSprigs (ss : List (Sprig α)) :
    (ofSprigs ss).roots = ss.map Sprig.handle := by
  simp [roots]

@[simp] theorem rootValues_ofSprigs (ss : List (Sprig α)) :
    (ofSprigs ss).rootValues = ss.map Sprig.value := by
  simp [rootValues]

@[simp] theorem getElem?_roots (f : Forest α) (i : Nat) :
    f.roots[i]? = f.sprigs[i]?.map Sprig.handle :=
  List.getElem?_map ..

@[simp] theorem getElem?_rootValues (f : Forest α) (i : Nat) :
    f.rootValues[i]? = f.sprigs[i]?.map Sprig.value :=
  List.getElem?_map ..

@[simp] theorem length_roots (f : Forest α) : f.roots.length = f.sprigs.length := by
  simp [roots]

theorem lt_length_roots {f : Forest α} {i : Nat} {s : Sprig α} (entry : f.sprigs[i]? = some s) :
    i < f.roots.length := by
  rw [length_roots]
  exact (List.getElem?_eq_some_iff.mp entry).1

theorem nodes_eq_flatMap (f : Forest α) : f.nodes = f.sprigs.flatMap Sprig.nodes := by
  induction f with
  | nil => rfl
  | cons h x below later _ ih => simp [nodes, Sprig.nodes, ih]

theorem handles_eq_flatMap (f : Forest α) : f.handles = f.sprigs.flatMap Sprig.handles := by
  rw [handles, nodes_eq_flatMap, List.map_flatMap]
  rfl

theorem backward_eq_flatMap (f : Forest α) :
    f.backward = f.sprigs.reverse.flatMap Sprig.backward := by
  induction f with
  | nil => rfl
  | cons h x below later _ ih => simp [backward, Sprig.backward, ih, List.flatMap_append]

theorem backward_perm (f : Forest α) : f.backward.Perm f.nodes := by
  induction f with
  | nil => exact .refl _
  | cons h x below later ihBelow ihLater =>
    exact List.perm_append_comm.trans ((ihBelow.append ihLater).cons _)

theorem backward_perm_sprig (s : Sprig α) : s.backward.Perm s.nodes := s.below.backward_perm.cons s

theorem records_eq_flatMap (f : Forest α) (parent : Option Handle) :
    f.records parent = f.sprigs.flatMap (·.records parent) := by
  induction f with
  | nil => rfl
  | cons h x below later _ ih => simp [records, Sprig.records, ih]

/-! ## Nodes -/

@[simp] theorem nodes_nil : (nil : Forest α).nodes = [] := rfl

@[simp] theorem handles_nil : (nil : Forest α).handles = [] := rfl

@[simp] theorem handles_cons (h : Handle) (x : α) (below later : Forest α) :
    (cons h x below later).handles = h :: (below.handles ++ later.handles) := by
  simp [handles, nodes]

@[simp] theorem nodes_single (s : Sprig α) : (ofSprigs [s]).nodes = s.nodes := by
  simp [nodes_eq_flatMap]

@[simp] theorem handles_single (s : Sprig α) : (ofSprigs [s]).handles = s.handles := by
  rw [handles, nodes_single]
  rfl

theorem mem_nodes_single (s : Sprig α) : s ∈ (ofSprigs [s]).nodes := by
  rw [nodes_single]
  exact List.mem_cons_self ..

theorem mem_nodes_of_mem_sprigs {s : Sprig α} (mem : s ∈ f.sprigs) : s ∈ f.nodes := by
  rw [nodes_eq_flatMap]
  exact List.mem_flatMap.mpr ⟨s, mem, List.mem_cons_self ..⟩

/-- A node stands at the top or among the children of another. -/
theorem top_or_child {s : Sprig α} (mem : s ∈ f.nodes) :
    s ∈ f.sprigs ∨ ∃ k ∈ f.nodes, s ∈ k.below.sprigs := by
  induction f with
  | nil => simp at mem
  | cons h x below later ihBelow ihLater =>
    simp only [nodes, sprigs_cons, List.mem_cons, List.mem_append] at mem ⊢
    rcases mem with rfl | mem | mem
    · exact .inl (.inl rfl)
    · right
      rcases ihBelow mem with top | ⟨k, inside, child⟩
      · exact ⟨_, .inl rfl, top⟩
      · exact ⟨k, .inr (.inl inside), child⟩
    · rcases ihLater mem with top | ⟨k, inside, child⟩
      · exact .inl (.inr top)
      · exact .inr ⟨k, .inr (.inr inside), child⟩

theorem handle_ne_of_mem_below {s c : Sprig α} (nodup : s.handles.Nodup) (mem : c ∈ s.below.nodes) :
    s.handle ≠ c.handle := by
  intro same
  exact (List.nodup_cons.mp nodup).1 (List.mem_map.mpr ⟨c, mem, same.symm⟩)

/-- What stands below a node of the forest is in the forest. -/
theorem mem_nodes_of_mem_below {s c : Sprig α} (mem : s ∈ f.nodes) (under : c ∈ s.below.nodes) :
    c ∈ f.nodes := by
  induction f with
  | nil => simp at mem
  | cons h x below later ihBelow ihLater =>
    simp only [nodes, List.mem_cons, List.mem_append] at mem ⊢
    rcases mem with rfl | mem | mem
    · exact .inr (.inl under)
    · exact .inr (.inl (ihBelow mem))
    · exact .inr (.inr (ihLater mem))

theorem mem_nodes_of_child {s c : Sprig α} (mem : s ∈ f.nodes) (child : c ∈ s.below.sprigs) :
    c ∈ f.nodes :=
  mem_nodes_of_mem_below mem (mem_nodes_of_mem_sprigs child)

theorem mem_handles {s : Sprig α} (mem : s ∈ f.nodes) : s.handle ∈ f.handles :=
  List.mem_map.mpr ⟨s, mem, rfl⟩

theorem mem_handles_of_mem_roots {h : Handle} (mem : h ∈ f.roots) : h ∈ f.handles := by
  obtain ⟨s, top, rfl⟩ := List.mem_map.mp mem
  exact mem_handles (mem_nodes_of_mem_sprigs top)

theorem roots_sublist_handles (f : Forest α) : f.roots.Sublist f.handles := by
  induction f with
  | nil => simp [roots]
  | cons h x below later _ ih =>
    simp only [roots, sprigs_cons, List.map_cons, handles_cons]
    exact (ih.trans (List.sublist_append_right ..)).cons_cons h

theorem nodup_cons_iff {h : Handle} {x : α} {below later : Forest α} :
    (cons h x below later).handles.Nodup ↔
      (h ∉ below.handles ∧ h ∉ later.handles) ∧ below.handles.Nodup ∧ later.handles.Nodup ∧
        ∀ k ∈ below.handles, k ∉ later.handles := by
  rw [handles_cons, List.nodup_cons, List.mem_append, not_or, List.nodup_append']
  rfl

/-- Below the first sibling stands nothing that stands elsewhere. -/
theorem apart_of_mem_below {h : Handle} {x : α} {below later : Forest α}
    (nodup : (cons h x below later).handles.Nodup) {s : Sprig α} (mem : s ∈ below.nodes) :
    h ≠ s.handle ∧ s.handle ∉ later.handles := by
  obtain ⟨⟨notBelow, -⟩, -, -, apart⟩ := nodup_cons_iff.mp nodup
  have inside := mem_handles mem
  exact ⟨fun e => notBelow (e ▸ inside), apart _ inside⟩

theorem apart_of_mem_later {h : Handle} {x : α} {below later : Forest α}
    (nodup : (cons h x below later).handles.Nodup) {s : Sprig α} (mem : s ∈ later.nodes) :
    h ≠ s.handle ∧ s.handle ∉ below.handles := by
  obtain ⟨⟨-, notLater⟩, -, -, apart⟩ := nodup_cons_iff.mp nodup
  have inside := mem_handles mem
  exact ⟨fun e => notLater (e ▸ inside), fun there => apart _ there inside⟩

/-- A handle without duplicates stands for one node. -/
theorem node_unique (nodup : f.handles.Nodup) {s c : Sprig α} (hs : s ∈ f.nodes) (hc : c ∈ f.nodes)
    (same : s.handle = c.handle) : s = c :=
  List.inj_on_of_nodup_map nodup hs hc same

theorem nodes_sublist {s : Sprig α} (mem : s ∈ f.nodes) : s.nodes.Sublist f.nodes := by
  induction f with
  | nil => simp at mem
  | cons h x below later ihBelow ihLater =>
    rw [nodes]
    rcases List.mem_cons.mp mem with rfl | mem
    · exact (List.sublist_append_left ..).cons_cons _
    · rcases List.mem_append.mp mem with mem | mem
      · exact ((ihBelow mem).trans (List.sublist_append_left ..)).cons _
      · exact ((ihLater mem).trans (List.sublist_append_right ..)).cons _

theorem handles_sublist {s : Sprig α} (mem : s ∈ f.nodes) : s.handles.Sublist f.handles :=
  (nodes_sublist mem).map Sprig.handle

theorem handles_below_sublist {s : Sprig α} (mem : s ∈ f.nodes) :
    s.below.handles.Sublist f.handles :=
  (List.sublist_cons_self ..).trans (handles_sublist mem)

theorem nodup_roots_below (nodup : f.handles.Nodup) {s : Sprig α} (mem : s ∈ f.nodes) :
    s.below.roots.Nodup :=
  (nodup.sublist (handles_below_sublist mem)).sublist (roots_sublist_handles _)

/-! ## Records -/

@[simp] theorem map_fst_records (f : Forest α) (parent : Option Handle) :
    (f.records parent).map Prod.fst = f.handles := by
  induction f generalizing parent with
  | nil => rfl
  | cons h x below later ihBelow ihLater => simp [records, ihBelow, ihLater]

@[simp] theorem records_single (s : Sprig α) (parent : Option Handle) :
    (ofSprigs [s]).records parent = s.records parent := by
  simp [records_eq_flatMap]

theorem map_fst_records_sprig (s : Sprig α) (parent : Option Handle) :
    (s.records parent).map Prod.fst = s.handles := by
  rw [← records_single, map_fst_records, handles_single]

@[simp] theorem length_records (f : Forest α) (parent : Option Handle) :
    (f.records parent).length = f.handles.length := by
  rw [← map_fst_records f parent, List.length_map]

theorem length_records_sprig (s : Sprig α) (parent : Option Handle) :
    (s.records parent).length = s.handles.length := by
  rw [← map_fst_records_sprig s parent, List.length_map]

/-- A stored node stands at the top, or below another node that lists it. -/
theorem mem_records_iff {parent : Option Handle} {e : Handle × Node α} :
    e ∈ f.records parent ↔
      (∃ s ∈ f.sprigs, e = s.record parent) ∨
        ∃ s ∈ f.nodes, ∃ c ∈ s.below.sprigs, e = c.record (some s.handle) := by
  induction f generalizing parent with
  | nil => simp [records]
  | cons h x below later ihBelow ihLater =>
    simp only [records, nodes, List.mem_cons, List.mem_append, ihBelow, ihLater, sprigs_cons,
      or_and_right, exists_or, exists_eq_left]
    grind

theorem record_mem_of_mem_sprigs {s : Sprig α} (mem : s ∈ f.sprigs) (parent : Option Handle) :
    s.record parent ∈ f.records parent :=
  mem_records_iff.mpr (.inl ⟨s, mem, rfl⟩)

theorem record_mem_of_child {s c : Sprig α} (mem : s ∈ f.nodes) (child : c ∈ s.below.sprigs)
    (parent : Option Handle) : c.record (some s.handle) ∈ f.records parent :=
  mem_records_iff.mpr (.inr ⟨s, mem, c, child, rfl⟩)

theorem exists_record_mem {s : Sprig α} (mem : s ∈ f.nodes) (parent : Option Handle) :
    ∃ p, s.record p ∈ f.records parent := by
  induction f generalizing parent with
  | nil => simp at mem
  | cons h x below later ihBelow ihLater =>
    simp only [nodes, List.mem_cons, List.mem_append] at mem
    simp only [records, List.mem_cons, List.mem_append]
    rcases mem with rfl | mem | mem
    · exact ⟨parent, .inl rfl⟩
    · obtain ⟨p, stored⟩ := ihBelow mem (some h)
      exact ⟨p, .inr (.inl stored)⟩
    · obtain ⟨p, stored⟩ := ihLater mem parent
      exact ⟨p, .inr (.inr stored)⟩

theorem exists_node_of_mem_records {parent : Option Handle} {e : Handle × Node α}
    (mem : e ∈ f.records parent) : ∃ s ∈ f.nodes, ∃ p, e = s.record p := by
  rcases mem_records_iff.mp mem with ⟨s, top, rfl⟩ | ⟨s, inside, c, child, rfl⟩
  · exact ⟨s, mem_nodes_of_mem_sprigs top, parent, rfl⟩
  · exact ⟨c, mem_nodes_of_child inside child, _, rfl⟩

end Forest

end PolicyTree
