import Mathlib.Data.List.Perm.Basic
import PolicyTree.Proofs.Arena.Contents
import PolicyTree.Proofs.Forest.Level
import PolicyTree.Tree.Basic

/-! The forest that a tree stores, and what the questions about one node read from it. -/

namespace PolicyTree

open Forest

variable {α : Type} {t : Tree α} {f : Forest α} {q : Option Handle}
  {rest rest' : List (Handle × Node α)} {s c : Sprig α}

namespace Tree

/-- The arena of `t` holds the nodes of `f`, whose top stands under `q`, and those of `rest`. -/
def Stores (t : Tree α) (q : Option Handle) (f : Forest α) (rest : List (Handle × Node α)) : Prop :=
  t.arena.Holds (f.records q ++ rest)

/-- `f` is all that `t` holds, and its top is the root. -/
structure Shows (t : Tree α) (f : Forest α) : Prop where
  roots_eq : f.roots = t.root.toList
  stores : t.Stores none f []

/-! ## Stored nodes -/

theorem stores_nil_iff : t.Stores q f [] ↔ t.arena.Holds (f.records q) := by
  rw [Stores, List.append_nil]

namespace Stores

theorem nodup (stores : t.Stores q f rest) : f.handles.Nodup := by
  have distinct := Arena.Holds.nodup stores
  rw [List.map_append, map_fst_records] at distinct
  exact (List.nodup_append.mp distinct).1

theorem length_le_len (stores : t.Stores q f rest) : f.handles.length ≤ t.len := by
  have counted : t.len = (f.records q ++ rest).length := Arena.Holds.len_eq stores
  rw [List.length_append, length_records] at counted
  omega

theorem length_handles_le (stores : t.Stores q f rest) (mem : s ∈ f.nodes) :
    s.handles.length ≤ t.len :=
  Nat.le_trans (handles_sublist mem).length_le stores.length_le_len

theorem contains_iff (stores : t.Stores q f rest) {h : Handle} :
    t.contains h = true ↔ h ∈ f.handles ∨ h ∈ rest.map Prod.fst := by
  rw [← map_fst_records f q, ← List.mem_append, ← List.map_append]
  exact Arena.Holds.contains_iff stores

theorem notMem_rest (stores : t.Stores q f rest) {h : Handle} (mem : h ∈ f.handles) :
    h ∉ rest.map Prod.fst := by
  have distinct := Arena.Holds.nodup stores
  rw [List.map_append, map_fst_records, List.nodup_append'] at distinct
  exact distinct.2.2 mem

theorem node?_of_mem_records (stores : t.Stores q f rest) {h : Handle} {n : Node α}
    (mem : (h, n) ∈ f.records q) : t.node? h = some n :=
  Arena.Holds.get? stores (List.mem_append_left _ mem)

theorem node?_of_mem_sprigs (stores : t.Stores q f rest) (top : s ∈ f.sprigs) :
    t.node? s.handle = some ⟨s.value, q, s.below.roots⟩ :=
  stores.node?_of_mem_records (record_mem_of_mem_sprigs top q)

theorem node?_of_child (stores : t.Stores q f rest) (mem : s ∈ f.nodes)
    (child : c ∈ s.below.sprigs) :
    t.node? c.handle = some ⟨c.value, some s.handle, c.below.roots⟩ :=
  stores.node?_of_mem_records (record_mem_of_child mem child q)

theorem exists_node? (stores : t.Stores q f rest) (mem : s ∈ f.nodes) :
    ∃ p, t.node? s.handle = some ⟨s.value, p, s.below.roots⟩ :=
  (exists_record_mem mem q).imp fun _ => stores.node?_of_mem_records

theorem contains (stores : t.Stores q f rest) (mem : s ∈ f.nodes) : t.contains s.handle = true := by
  obtain ⟨p, stored⟩ := stores.exists_node? mem
  exact Arena.contains_iff.mpr ⟨_, stored⟩

theorem childrenAt_eq (stores : t.Stores q f rest) (mem : s ∈ f.nodes) :
    t.childrenAt s.handle = s.below.roots := by
  obtain ⟨p, stored⟩ := stores.exists_node? mem
  simp [childrenAt, stored]

theorem get?_eq (stores : t.Stores q f rest) (mem : s ∈ f.nodes) :
    t.get? s.handle = some s.value := by
  obtain ⟨p, stored⟩ := stores.exists_node? mem
  simp [Tree.get?, stored]

theorem value_eq (stores : t.Stores q f rest) (mem : s ∈ f.nodes) :
    t.value s.handle = .ok s.value := by
  obtain ⟨p, stored⟩ := stores.exists_node? mem
  simp [value, node, stored, Except.map]

theorem valuesAt_map_handle (stores : t.Stores q f rest) {ss : List (Sprig α)}
    (all : ∀ s ∈ ss, s ∈ f.nodes) : t.valuesAt (ss.map Sprig.handle) = ss.map Sprig.value := by
  induction ss with
  | nil => rfl
  | cons s ss ih =>
    obtain ⟨p, stored⟩ := stores.exists_node? (all s (List.mem_cons_self ..))
    have others := ih fun s mem => all s (List.mem_cons_of_mem _ mem)
    simp only [valuesAt] at others
    simp [valuesAt, stored, others]

theorem valuesAt_roots (stores : t.Stores q f rest) (mem : s ∈ f.nodes) :
    t.valuesAt s.below.roots = s.below.rootValues :=
  stores.valuesAt_map_handle fun _ child => mem_nodes_of_child mem child

theorem map_get?_roots (stores : t.Stores q f rest) (mem : s ∈ f.nodes) :
    s.below.roots.map t.get? = s.below.rootValues.map some := by
  rw [roots, rootValues, List.map_map, List.map_map]
  exact List.map_congr_left fun c child => stores.get?_eq (mem_nodes_of_child mem child)

theorem perm (stores : t.Stores q f rest) (same : rest.Perm rest') : t.Stores q f rest' :=
  Arena.Holds.perm stores (same.append_left _)

/-- A sprig stored beside the forest, seen with the forest beside it. -/
theorem beside {p : Option Handle} (stores : t.Stores p f (s.records q ++ rest)) :
    t.Stores q (ofSprigs [s]) (f.records p ++ rest) := by
  apply Arena.Holds.perm stores
  rw [records_single]
  exact List.perm_append_comm_assoc ..

/-- A sprig stored beside the forest has none of its nodes. -/
theorem apart {p : Option Handle} (stores : t.Stores p f (s.records q ++ rest)) :
    ∀ h ∈ s.handles, h ∉ f.handles := by
  have distinct := Arena.Holds.nodup stores
  rw [List.map_append, map_fst_records, List.map_append, map_fst_records_sprig,
    List.nodup_append'] at distinct
  exact fun h new old => distinct.2.2 old (List.mem_append_left _ new)

theorem around {p : Option Handle} (stores : t.Stores q (ofSprigs [s]) (f.records p ++ rest)) :
    t.Stores p f (s.records q ++ rest) := by
  apply Arena.Holds.perm stores
  rw [records_single]
  exact List.perm_append_comm_assoc ..

end Stores

/-! ## The whole tree -/

namespace Shows

theorem holds (shows : t.Shows f) : t.arena.Holds (f.records none) :=
  stores_nil_iff.mp shows.stores

theorem nodup (shows : t.Shows f) : f.handles.Nodup := shows.stores.nodup

theorem roots_of_eq (shows : t.Shows f) {t' : Tree α} (same : t'.root = t.root) :
    f.roots = t'.root.toList := by
  rw [shows.roots_eq, same]

theorem root_eq_of_roots (shows : t.Shows f) {t' : Tree α} {f' : Forest α} (shown : t'.Shows f')
    (roots : f'.roots = f.roots) : t'.root = t.root := by
  have same : t'.root.toList = t.root.toList := by rw [← shown.roots_eq, roots, shows.roots_eq]
  cases root : t.root with
  | none => simpa [root] using same
  | some r => simpa [root, Option.toList_eq_singleton_iff] using same

theorem len_eq (shows : t.Shows f) : t.len = f.handles.length :=
  shows.holds.len_eq.trans (length_records f none)

theorem contains_iff (shows : t.Shows f) {h : Handle} : t.contains h = true ↔ h ∈ f.handles := by
  rw [← map_fst_records f none]
  exact shows.holds.contains_iff

theorem node?_eq_some_iff (shows : t.Shows f) {h : Handle} {n : Node α} :
    t.node? h = some n ↔ (h, n) ∈ f.records none :=
  shows.holds.bound h n

/-- A live handle names a node of the forest. -/
theorem exists_node (shows : t.Shows f) {h : Handle} {n : Node α} (live : t.node? h = some n) :
    ∃ s ∈ f.nodes, s.handle = h ∧ s.value = n.value ∧ s.below.roots = n.children := by
  obtain ⟨s, mem, p, e⟩ := exists_node_of_mem_records (shows.node?_eq_some_iff.mp live)
  cases e
  exact ⟨s, mem, rfl, rfl, rfl⟩

/-- A rooted forest is one sprig; a tree without a root stores nothing. -/
theorem sprigs_eq (shows : t.Shows f) :
    (t.root = none ∧ f = nil) ∨ ∃ s, t.root = some s.handle ∧ f = ofSprigs [s] := by
  have top := shows.roots_eq
  cases root : t.root with
  | none =>
    rw [root, roots, Option.toList_none, List.map_eq_nil_iff] at top
    exact .inl ⟨rfl, by rw [← ofSprigs_sprigs f, top]; rfl⟩
  | some r =>
    rw [root, roots, Option.toList_some, List.map_eq_singleton_iff] at top
    obtain ⟨s, single, rfl⟩ := top
    exact .inr ⟨s, rfl, by rw [← ofSprigs_sprigs f, single]⟩

theorem eq_single (shows : t.Shows f) {h : Handle} (root : t.root = some h) :
    ∃ s, f = ofSprigs [s] ∧ s.handle = h := by
  rcases shows.sprigs_eq with ⟨noRoot, -⟩ | ⟨s, isRoot, only⟩
  · rw [noRoot] at root
    cases root
  · exact ⟨s, only, Option.some.inj (isRoot.symm.trans root)⟩

theorem root_eq_some (shows : t.Shows (ofSprigs [s])) : t.root = some s.handle := by
  have top := shows.roots_eq
  rw [roots_ofSprigs, List.map_singleton] at top
  exact Option.toList_eq_singleton_iff.mp top.symm

end Shows

/-- A change below the top leaves the root where it was. -/
theorem shows_mapBelow {p : Handle} {g : Forest α → Forest α} (roots_eq : f.roots = t.root.toList)
    (stores : t.Stores none (f.mapBelow p g) []) : t.Shows (f.mapBelow p g) where
  roots_eq := by rw [roots_mapBelow, roots_eq]
  stores := stores

/-! ## The place of a node -/

theorem slotInParent_of_dead {h : Handle} (dead : t.node? h = none) :
    t.slotInParent h = .error (.invalidHandle h) := by
  simp [slotInParent, node, dead, bind, Except.bind]

theorem Shows.exists_of_value {h : Handle} {x : α} (shows : t.Shows f)
    (valued : t.value h = .ok x) : ∃ s ∈ f.nodes, s.handle = h := by
  cases stored : t.node? h with
  | none =>
    rw [value, node, stored] at valued
    cases valued
  | some n =>
    obtain ⟨s, mem, here, -⟩ := shows.exists_node stored
    exact ⟨s, mem, here⟩

theorem contains_of_slotInParent {h : Handle} {slot : Option (Handle × Nat)}
    (located : t.slotInParent h = .ok slot) : t.contains h = true := by
  apply Decidable.by_contra
  intro dead
  rw [slotInParent_of_dead (Arena.not_contains_iff.mp dead)] at located
  cases located

theorem Stores.slotInParent_of_child (stores : t.Stores q f rest) (mem : s ∈ f.nodes) {i : Nat}
    (child : s.below.sprigs[i]? = some c) :
    t.slotInParent c.handle = .ok (some (s.handle, i)) := by
  obtain ⟨p, stored⟩ := stores.exists_node? mem
  have listed := List.mem_of_getElem? child
  have distinct := nodup_roots_below stores.nodup mem
  have position : s.below.roots.idxOf? c.handle = some i := by
    have inside := lt_length_roots child
    have entry : s.below.roots[i] = c.handle := by
      simpa [roots] using congrArg Sprig.handle (List.getElem?_eq_some_iff.mp child).2
    rw [List.idxOf?_eq_some_iff]
    refine ⟨inside, entry, fun j before same => ?_⟩
    have := (List.Nodup.getElem_inj_iff distinct).mp (same.trans entry.symm)
    omega
  simp [slotInParent, node, stores.node?_of_child mem listed, stored, position, bind, Except.bind,
    pure, Except.pure]

theorem Stores.slotInParent_of_top (stores : t.Stores none f rest) (top : s ∈ f.sprigs) :
    t.slotInParent s.handle = .ok none := by
  simp [slotInParent, node, stores.node?_of_mem_sprigs top, bind, Except.bind, pure, Except.pure]

theorem Shows.slotInParent_of_root (shows : t.Shows f) {h : Handle} (root : t.root = some h) :
    t.slotInParent h = .ok none := by
  obtain ⟨s, rfl, rfl⟩ := shows.eq_single root
  exact shows.stores.slotInParent_of_top (by simp)

/-- A live node is the root or a child of another node. -/
theorem Shows.root_or_child (shows : t.Shows f) {h : Handle} (live : h ∈ f.handles) :
    t.root = some h ∨
      ∃ s ∈ f.nodes, ∃ (i : Nat) (c : Sprig α), s.below.sprigs[i]? = some c ∧ c.handle = h := by
  rw [← map_fst_records f none] at live
  obtain ⟨⟨_, n⟩, mem, rfl⟩ := List.mem_map.mp live
  rcases mem_records_iff.mp mem with ⟨s, top, e⟩ | ⟨s, inside, c, child, e⟩
  · left
    have listed : s.handle ∈ t.root.toList := shows.roots_eq ▸ List.mem_map.mpr ⟨s, top, rfl⟩
    rw [congrArg Prod.fst e]
    simpa using listed
  · obtain ⟨i, place⟩ := List.mem_iff_getElem?.mp child
    exact .inr ⟨s, inside, i, c, place, (congrArg Prod.fst e).symm⟩

/-- Where a handle stands: nowhere, at the root, or among the children of a node. -/
theorem Shows.locate (shows : t.Shows f) (h : Handle) :
    (t.node? h = none ∧ t.slotInParent h = .error (.invalidHandle h)) ∨
      (∃ s, f = ofSprigs [s] ∧ s.handle = h ∧ t.root = some h ∧ t.slotInParent h = .ok none) ∨
      ∃ s ∈ f.nodes, ∃ i c, s.below.sprigs[i]? = some c ∧ c.handle = h ∧
        t.slotInParent h = .ok (some (s.handle, i)) := by
  cases live : t.node? h with
  | none => exact .inl ⟨rfl, slotInParent_of_dead live⟩
  | some n =>
    obtain ⟨k, here, rfl, -⟩ := shows.exists_node live
    rcases shows.root_or_child (mem_handles here) with root | ⟨s, mem, i, c, child, e⟩
    · obtain ⟨s, only, same⟩ := shows.eq_single root
      exact .inr (.inl ⟨s, only, same, root, shows.slotInParent_of_root root⟩)
    · exact .inr (.inr ⟨s, mem, i, c, child, e, e ▸ shows.stores.slotInParent_of_child mem child⟩)

/-- What is known of a handle that stands somewhere. -/
theorem Shows.slot_cases (shows : t.Shows f) {h : Handle} {slot : Option (Handle × Nat)}
    (located : t.slotInParent h = .ok slot) :
    (∃ s, f = ofSprigs [s] ∧ s.handle = h ∧ slot = none) ∨
      ∃ s ∈ f.nodes, ∃ i c, s.below.sprigs[i]? = some c ∧ c.handle = h ∧
        slot = some (s.handle, i) := by
  rcases shows.locate h with ⟨-, nowhere⟩ | ⟨s, only, same, -, top⟩ |
    ⟨s, mem, i, c, child, same, place⟩
  · rw [nowhere] at located
    cases located
  · rw [top] at located
    exact .inl ⟨s, only, same, (Except.ok.inj located).symm⟩
  · rw [place] at located
    exact .inr ⟨s, mem, i, c, child, same, (Except.ok.inj located).symm⟩

end Tree

end PolicyTree
