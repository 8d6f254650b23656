import PolicyTree.Proofs.Forest.Level
import PolicyTree.Proofs.Forest.Siblings

/-! Where the nodes of a forest hang, and which of them an edit takes away. -/

namespace PolicyTree

/-- A node with its parent and its value, but without its children. -/
structure Stem (α : Type) where
  handle : Handle
  parent : Option Handle
  value : α

variable {α : Type}

def Stem.ofRecord (e : Handle × Node α) : Stem α := ⟨e.1, e.2.parent, e.2.value⟩

def Forest.stems (f : Forest α) (q : Option Handle) : List (Stem α) :=
  (f.records q).map Stem.ofRecord

def Sprig.stems (s : Sprig α) (q : Option Handle) : List (Stem α) :=
  (s.records q).map Stem.ofRecord

theorem Sprig.stems_eq (s : Sprig α) (q : Option Handle) :
    s.stems q = ⟨s.handle, q, s.value⟩ :: s.below.stems (some s.handle) := rfl

namespace Forest

variable {f f' b : Forest α} {c n s : Sprig α} {e : Stem α} {i j : Nat} {h k : Handle} {x : α}
  {p q : Option Handle} {gone kept new : List (Stem α)}

theorem stems_single (s : Sprig α) (q : Option Handle) : (ofSprigs [s]).stems q = s.stems q := by
  simp [stems, Sprig.stems, records_eq_flatMap]

@[simp] theorem map_handle_stems (f : Forest α) (q : Option Handle) :
    (f.stems q).map Stem.handle = f.handles := by
  rw [stems, List.map_map, ← map_fst_records f q]
  rfl

@[simp] theorem map_handle_stems_sprig (s : Sprig α) (q : Option Handle) :
    (s.stems q).map Stem.handle = s.handles := by
  rw [Sprig.stems_eq, List.map_cons, map_handle_stems]
  rfl

theorem mem_handles_of_mem_stems (mem : e ∈ f.stems q) : e.handle ∈ f.handles := by
  rw [← map_handle_stems f q]
  exact List.mem_map.mpr ⟨e, mem, rfl⟩

/-! ## One sibling list -/

theorem stems_pluckAt_perm (entry : b.sprigs[i]? = some c) (q : Option Handle) :
    (b.stems q).Perm (c.stems q ++ (b.pluckAt i).stems q) := by
  have listed := (records_perm_cons (sprigs_pluckAt_perm entry) q).map Stem.ofRecord
  rwa [List.map_append] at listed

theorem stems_plantAt_perm (i : Nat) (s : Sprig α) (b : Forest α) (q : Option Handle) :
    ((b.plantAt i s).stems q).Perm (s.stems q ++ b.stems q) := by
  have listed := (records_perm_cons (sprigs_plantAt_perm i s b) q).map Stem.ofRecord
  rwa [List.map_append] at listed

theorem stems_sortAt_perm (le : i ≤ j) (cmp : α → α → Ordering) (b : Forest α)
    (q : Option Handle) : ((b.sortAt i j cmp).stems q).Perm (b.stems q) :=
  (records_perm_of_perm (sprigs_sortAt_perm le cmp b) q).map Stem.ofRecord

/-- A change below `s` leaves every other node hanging where it hangs. -/
theorem exists_around (nodup : f.handles.Nodup) (mem : s ∈ f.nodes) (q : Option Handle) :
    ∃ around : List (Stem α), (f.stems q).Perm (s.below.stems (some s.handle) ++ around) ∧
      ∀ g : Forest α → Forest α,
        ((f.mapBelow s.handle g).stems q).Perm ((g s.below).stems (some s.handle) ++ around) := by
  obtain ⟨front, back, p, split⟩ := exists_split nodup mem q
  have changed : ∀ g : Forest α → Forest α, ((f.mapBelow s.handle g).stems q).Perm
      ((g s.below).stems (some s.handle) ++
        (⟨s.handle, p, s.value⟩ :: (front ++ back).map Stem.ofRecord)) := by
    intro g
    have listed : (f.mapBelow s.handle g).stems q =
        front.map Stem.ofRecord ++ (⟨s.handle, p, s.value⟩ :: (g s.below).stems (some s.handle)) ++
          back.map Stem.ofRecord := by
      rw [stems, split g, List.map_append, List.map_append]
      rfl
    have moved := perm_front_middle (front.map Stem.ofRecord)
      ((g s.below).stems (some s.handle)) (back.map Stem.ofRecord) [] ⟨s.handle, p, s.value⟩
    rw [List.append_nil, List.append_nil] at moved
    rw [listed, List.map_append]
    exact moved.trans List.perm_middle.symm
  refine ⟨_, ?_, changed⟩
  simpa using changed fun b => b

theorem stems_mapBelow_plantAt_perm (nodup : f.handles.Nodup) (mem : s ∈ f.nodes) (i : Nat)
    (n : Sprig α) : ((f.mapBelow s.handle (plantAt i n)).stems none).Perm
      (n.stems (some s.handle) ++ f.stems none) := by
  obtain ⟨around, before, split⟩ := exists_around nodup mem none
  refine (split _).trans (((stems_plantAt_perm i _ _ _).append_right around).trans ?_)
  rw [List.append_assoc]
  exact before.symm.append_left _

/-! ## Turnover -/

/-- From `f` to `f'` the nodes that `dies` singles out disappear. All others stay under their
parents, with the value that `now` gives them. -/
structure Turnover (f f' : Forest α) (dies : Handle → Prop) (now : Handle → α → α) : Prop where
  dead : ∀ h ∈ f.handles, dies h → h ∉ f'.handles
  kept : ∀ h p x, ⟨h, p, x⟩ ∈ f.stems none → ¬dies h → ⟨h, p, now h x⟩ ∈ f'.stems none

variable {dies : Handle → Prop} {now : Handle → α → α}

/-- Some nodes go, and others with new handles come. -/
theorem turnover_of_perm (nodup : f.handles.Nodup) (before : (f.stems none).Perm (gone ++ kept))
    (after : (f'.stems none).Perm (new ++ kept)) (fresh : ∀ e ∈ new, e.handle ∉ f.handles)
    (dying : ∀ h ∈ f.handles, dies h ↔ h ∈ gone.map Stem.handle) (same : ∀ h x, now h x = x) :
    f.Turnover f' dies now where
  dead h live dying' := by
    have left := (dying h live).mp dying'
    have listed := (before.map Stem.handle).nodup_iff.mp (by rwa [map_handle_stems])
    rw [List.map_append, List.nodup_append'] at listed
    rw [← map_handle_stems f' none, (after.map Stem.handle).mem_iff, List.map_append,
      List.mem_append, not_or]
    refine ⟨fun added => ?_, fun stayed => listed.2.2 left stayed⟩
    obtain ⟨e, mem, rfl⟩ := List.mem_map.mp added
    exact fresh e mem live
  kept h p x mem lives := by
    rw [same]
    have live := mem_handles_of_mem_stems mem
    apply after.mem_iff.mpr
    rcases List.mem_append.mp (before.mem_iff.mp mem) with left | stayed
    · exact absurd ((dying h live).mpr (List.mem_map.mpr ⟨_, left, rfl⟩)) lives
    · exact List.mem_append_right _ stayed

/-- Nothing goes. -/
theorem turnover_of_grown (nodup : f.handles.Nodup)
    (after : (f'.stems none).Perm (new ++ f.stems none)) (fresh : ∀ e ∈ new, e.handle ∉ f.handles)
    (none_dies : ∀ h, ¬dies h) (same : ∀ h x, now h x = x) : f.Turnover f' dies now := by
  have before : (f.stems none).Perm ([] ++ f.stems none) := .refl _
  refine turnover_of_perm nodup before after fresh (fun h _ => ?_) same
  exact iff_of_false (none_dies h) List.not_mem_nil

/-- Nothing comes. -/
theorem turnover_of_shrunk (nodup : f.handles.Nodup) (before : (f.stems none).Perm (gone ++ kept))
    (after : (f'.stems none).Perm kept)
    (dying : ∀ h ∈ f.handles, dies h ↔ h ∈ gone.map Stem.handle) (same : ∀ h x, now h x = x) :
    f.Turnover f' dies now := by
  have none_new : (f'.stems none).Perm ([] ++ kept) := after
  exact turnover_of_perm nodup before none_new nofun dying same

theorem turnover_self (nodup : f.handles.Nodup) (none_dies : ∀ h, ¬dies h)
    (same : ∀ h x, now h x = x) : f.Turnover f dies now := by
  have after : (f.stems none).Perm ([] ++ f.stems none) := .refl _
  exact turnover_of_grown nodup after nofun none_dies same

/-- Everything goes. -/
theorem turnover_of_apart (nodup : f.handles.Nodup) (apart : ∀ h ∈ f'.handles, h ∉ f.handles)
    (all_die : ∀ h ∈ f.handles, dies h) (same : ∀ h x, now h x = x) : f.Turnover f' dies now := by
  have before : (f.stems none).Perm (f.stems none ++ []) := by simp
  have after : (f'.stems none).Perm (f'.stems none ++ []) := by simp
  refine turnover_of_perm nodup before after (fun e mem => ?_) (fun h live => ?_) same
  · exact apart _ (mem_handles_of_mem_stems mem)
  · rw [map_handle_stems]
    exact iff_of_true (all_die h live) live

theorem turnover_nil (nodup : f.handles.Nodup) (all_die : ∀ h ∈ f.handles, dies h)
    (same : ∀ h x, now h x = x) : f.Turnover nil dies now :=
  turnover_of_apart nodup (fun _ mem => absurd mem List.not_mem_nil) all_die same

theorem turnover_plantAt (nodup : f.handles.Nodup) (mem : s ∈ f.nodes) (i : Nat)
    (fresh : h ∉ f.handles) (none_dies : ∀ h, ¬dies h) (same : ∀ h x, now h x = x) :
    f.Turnover (f.mapBelow s.handle (plantAt i ⟨h, x, nil⟩)) dies now := by
  have after := stems_mapBelow_plantAt_perm nodup mem i ⟨h, x, nil⟩
  refine turnover_of_grown nodup after (fun e mem => ?_) none_dies same
  obtain rfl := List.mem_singleton.mp mem
  exact fresh

theorem turnover_sortAt (nodup : f.handles.Nodup) (mem : s ∈ f.nodes) (le : i ≤ j)
    (cmp : α → α → Ordering) (none_dies : ∀ h, ¬dies h) (same : ∀ h x, now h x = x) :
    f.Turnover (f.mapBelow s.handle (sortAt i j cmp)) dies now := by
  obtain ⟨around, before, split⟩ := exists_around nodup mem none
  have after : ((f.mapBelow s.handle (sortAt i j cmp)).stems none).Perm ([] ++ f.stems none) :=
    (split _).trans (((stems_sortAt_perm le cmp _ _).append_right around).trans before.symm)
  exact turnover_of_grown nodup after nofun none_dies same

theorem turnover_bare (nodup : f.handles.Nodup) (mem : s ∈ f.nodes)
    (dying : ∀ h ∈ f.handles, dies h ↔ h ∈ s.below.handles) (same : ∀ h x, now h x = x) :
    f.Turnover (f.mapBelow s.handle fun _ => nil) dies now := by
  obtain ⟨around, before, split⟩ := exists_around nodup mem none
  refine turnover_of_shrunk nodup before (split _) ?_ same
  rwa [map_handle_stems]

/-- The stems of a forest split at a child of one of its nodes. -/
theorem exists_around_child (nodup : f.handles.Nodup) (mem : s ∈ f.nodes)
    (child : s.below.sprigs[i]? = some c) :
    ∃ around : List (Stem α), (f.stems none).Perm (c.stems (some s.handle) ++ around) ∧
      ((f.mapBelow s.handle (pluckAt i)).stems none).Perm around ∧
      ∀ j n, ((f.mapBelow s.handle (swapAt i j n)).stems none).Perm
        (n.stems (some s.handle) ++ around) := by
  obtain ⟨around, before, split⟩ := exists_around nodup mem none
  refine ⟨(s.below.pluckAt i).stems (some s.handle) ++ around, ?_, split _, fun j n => ?_⟩
  · rw [← List.append_assoc]
    exact before.trans ((stems_pluckAt_perm child _).append_right around)
  · rw [← List.append_assoc]
    exact (split _).trans ((stems_plantAt_perm j n _ _).append_right around)

theorem turnover_pluckAt (nodup : f.handles.Nodup) (mem : s ∈ f.nodes)
    (child : s.below.sprigs[i]? = some c) (dying : ∀ h ∈ f.handles, dies h ↔ h ∈ c.handles)
    (same : ∀ h x, now h x = x) : f.Turnover (f.mapBelow s.handle (pluckAt i)) dies now := by
  obtain ⟨around, before, plucked, -⟩ := exists_around_child nodup mem child
  refine turnover_of_shrunk nodup before plucked ?_ same
  rwa [map_handle_stems_sprig]

theorem turnover_swapAt (nodup : f.handles.Nodup) (mem : s ∈ f.nodes)
    (child : s.below.sprigs[i]? = some c) (j : Nat) (fresh : ∀ h ∈ n.handles, h ∉ f.handles)
    (dying : ∀ h ∈ f.handles, dies h ↔ h ∈ c.handles) (same : ∀ h x, now h x = x) :
    f.Turnover (f.mapBelow s.handle (swapAt i j n)) dies now := by
  obtain ⟨around, before, -, swapped⟩ := exists_around_child nodup mem child
  refine turnover_of_perm nodup before (swapped j n) (fun e mem => fresh _ ?_) ?_ same
  · rw [← map_handle_stems_sprig n (some s.handle)]
    exact List.mem_map.mpr ⟨e, mem, rfl⟩
  · rwa [map_handle_stems_sprig]

/-- One node takes a new value. -/
theorem turnover_of_revalued (nodup : f.handles.Nodup) {y : α}
    (before : (f.stems none).Perm (⟨k, p, y⟩ :: kept))
    (after : (f'.stems none).Perm (⟨k, p, x⟩ :: kept)) (none_dies : ∀ h, ¬dies h)
    (stored : now k y = x) (same : ∀ h z, h ≠ k → now h z = z) : f.Turnover f' dies now where
  dead h _ dying := absurd dying (none_dies h)
  kept h q z mem _ := by
    apply after.mem_iff.mpr
    have listed := (before.map Stem.handle).nodup_iff.mp (by rwa [map_handle_stems])
    rcases List.mem_cons.mp (before.mem_iff.mp mem) with here | there
    · cases here
      rw [stored]
      exact List.mem_cons_self ..
    · have other : h ≠ k := by
        rintro rfl
        exact (List.nodup_cons.mp listed).1 (List.mem_map.mpr ⟨_, there, rfl⟩)
      rw [same h z other]
      exact List.mem_cons_of_mem _ there

theorem turnover_revalueAt (nodup : f.handles.Nodup) (mem : s ∈ f.nodes)
    (child : s.below.sprigs[i]? = some c) (j : Nat) (none_dies : ∀ h, ¬dies h)
    (stored : now c.handle c.value = x) (same : ∀ h z, h ≠ c.handle → now h z = z) :
    f.Turnover (f.mapBelow s.handle (swapAt i j ⟨c.handle, x, c.below⟩)) dies now := by
  obtain ⟨around, before, -, swapped⟩ := exists_around_child nodup mem child
  exact turnover_of_revalued nodup before (swapped j ⟨c.handle, x, c.below⟩) none_dies stored same

theorem turnover_revalue_root (nodup : (ofSprigs [s]).handles.Nodup) (none_dies : ∀ h, ¬dies h)
    (stored : now s.handle s.value = x) (same : ∀ h z, h ≠ s.handle → now h z = z) :
    (ofSprigs [s]).Turnover (ofSprigs [⟨s.handle, x, s.below⟩]) dies now := by
  have listed : ∀ y, ((ofSprigs [⟨s.handle, y, s.below⟩]).stems none).Perm
      (⟨s.handle, none, y⟩ :: s.below.stems (some s.handle)) := by
    intro y
    rw [stems_single, Sprig.stems_eq]
  exact turnover_of_revalued nodup (listed s.value) (listed x) none_dies stored same

end Forest

end PolicyTree
