import Mathlib.Data.Finmap
import Mathlib.Data.List.Perm.Basic
import PolicyTree.Proofs.Arena.Slots

/-! The finite map that an arena stores, read off its slots, and the number of its slots. -/

namespace PolicyTree.Arena

variable {α : Type} {a : Arena α} {bs : List (Handle × α)} {h : Handle} {x : α} {i : Nat}

/-! ## Bindings -/

/-- What slot `i` holds, with the handle that it goes by. -/
def bindingAt (a : Arena α) (i : Nat) : Option (Handle × α) :=
  (a.slots[i]?.bind Slot.item).map fun x => (a.handleAt i, x)

/-- What the occupied slots hold, by slot. -/
def bindings (a : Arena α) : List (Handle × α) :=
  (List.range a.slots.size).filterMap a.bindingAt

theorem bindingAt_eq_some_iff :
    a.bindingAt i = some (h, x) ↔ a.get? h = some x ∧ h.index = i := by
  obtain ⟨o, j, g⟩ := h
  simp only [bindingAt, get?_eq_some_iff, handleAt, generationAt, Option.map_eq_some_iff,
    Option.bind_eq_some_iff, Prod.mk.injEq, Handle.mk.injEq]
  constructor
  · rintro ⟨y, ⟨⟨g', item⟩, slot, holds⟩, ⟨rfl, rfl, generation⟩, rfl⟩
    simp_all
  · rintro ⟨⟨rfl, slot⟩, rfl⟩
    exact ⟨x, ⟨_, slot, rfl⟩, by simp [slot]⟩

theorem mem_bindings_iff : (h, x) ∈ a.bindings ↔ a.get? h = some x := by
  simp only [bindings, List.mem_filterMap, List.mem_range, bindingAt_eq_some_iff]
  constructor
  · rintro ⟨_, -, live, -⟩
    exact live
  · intro live
    refine ⟨h.index, ?_, live, rfl⟩
    exact (Array.getElem?_eq_some_iff.mp (get?_eq_some_iff.mp live).2).1

theorem contains_iff_mem_bindings : a.contains h = true ↔ h ∈ a.bindings.map Prod.fst := by
  rw [contains_iff, List.mem_map]
  constructor
  · rintro ⟨x, live⟩
    exact ⟨(h, x), mem_bindings_iff.mpr live, rfl⟩
  · rintro ⟨⟨h, x⟩, mem, rfl⟩
    exact ⟨x, mem_bindings_iff.mp mem⟩

theorem map_index_bindings (a : Arena α) :
    (a.bindings.map fun e => e.1.index) = (List.range a.slots.size).filter a.occupiedAt := by
  rw [bindings, List.map_filterMap, ← List.filterMap_eq_filter]
  apply List.filterMap_congr
  intro i _
  cases slot : a.slots[i]? with
  | none => simp [bindingAt, occupiedAt, Option.guard, slot]
  | some s =>
    obtain ⟨g, item⟩ := s
    cases item <;> simp [bindingAt, occupiedAt, Slot.occupied, Option.guard, handleAt, slot]

theorem nodup_bindings (a : Arena α) : (a.bindings.map Prod.fst).Nodup := by
  have distinct : (a.bindings.map fun e => e.1.index).Nodup := by
    rw [map_index_bindings]
    exact List.nodup_range.filter _
  apply List.Nodup.of_map Handle.index
  rwa [List.map_map]

/-! ## Bookkeeping -/

/-- The free list and the count agree with the slots. -/
structure Kept (a : Arena α) : Prop where
  tidy : a.Tidy
  len_eq : a.len = a.bindings.length

theorem Kept.holds (kept : a.Kept) : a.Holds a.bindings where
  tidy := kept.tidy
  nodup := a.nodup_bindings
  bound _ _ := mem_bindings_iff.symm
  len_eq := kept.len_eq

theorem Holds.perm_bindings (holds : a.Holds bs) : bs.Perm a.bindings := by
  rw [List.perm_ext_iff_of_nodup holds.nodup.of_map a.nodup_bindings.of_map]
  rintro ⟨h, x⟩
  rw [← holds.bound, mem_bindings_iff]

theorem Holds.kept (holds : a.Holds bs) : a.Kept where
  tidy := holds.tidy
  len_eq := holds.len_eq.trans holds.perm_bindings.length_eq

theorem Kept.allocate (kept : a.Kept) (x : α) : (a.allocate x).Kept := (kept.holds.allocate x).kept

theorem Kept.modify (kept : a.Kept) (h : Handle) (f : α → α) : (a.modify h f).Kept :=
  (kept.holds.modify h f).kept

theorem Kept.erase (kept : a.Kept) (h : Handle) : (a.erase h).Kept := by
  cases bound : a.get? h with
  | none => rwa [erase_of_dead bound]
  | some x =>
    obtain ⟨front, back, split⟩ := List.append_of_mem (mem_bindings_iff.mpr bound)
    have first : a.Holds ((h, x) :: (front ++ back)) := by
      apply kept.holds.perm
      rw [split]
      exact List.perm_middle
    exact first.erase.kept

theorem kept_clear (a : Arena α) : a.clear.Kept := (Holds.clear a).kept

/-! ## Lists of live handles -/

variable {hs : List Handle}

theorem length_le_of_live (kept : a.Kept) (nodup : hs.Nodup)
    (live : ∀ h ∈ hs, a.contains h = true) : hs.length ≤ a.len := by
  rw [kept.len_eq, ← List.length_map Prod.fst]
  apply (nodup.subperm fun h mem => ?_).length_le
  exact contains_iff_mem_bindings.mp (live h mem)

/-- As many live handles as there are items are all live handles. -/
theorem mem_of_length_eq (kept : a.Kept) (nodup : hs.Nodup)
    (live : ∀ h ∈ hs, a.contains h = true) (all : hs.length = a.len) (here : a.contains h = true) :
    h ∈ hs := by
  have within : hs.Subperm (a.bindings.map Prod.fst) :=
    nodup.subperm fun h mem => contains_iff_mem_bindings.mp (live h mem)
  apply (within.perm_of_length_le ?_).mem_iff.mpr (contains_iff_mem_bindings.mp here)
  rw [List.length_map, ← kept.len_eq, all]

theorem length_eq_of_live_iff (kept : a.Kept) (nodup : hs.Nodup)
    (live : ∀ h, h ∈ hs ↔ a.contains h = true) : hs.length = a.len := by
  have same : hs.Perm (a.bindings.map Prod.fst) := by
    rw [List.perm_ext_iff_of_nodup nodup a.nodup_bindings]
    exact fun h => (live h).trans contains_iff_mem_bindings
  rw [same.length_eq, List.length_map, kept.len_eq]

/-! ## The number of slots -/

theorem Tidy.perm_free (tidy : a.Tidy) :
    a.free.Perm ((List.range a.slots.size).filter (!a.occupiedAt ·)) := by
  rw [List.perm_ext_iff_of_nodup tidy.nodup (List.nodup_range.filter _)]
  intro i
  rw [tidy.mem_iff, List.mem_filter, List.mem_range]
  constructor
  · rintro ⟨s, slot, vacant⟩
    refine ⟨(Array.getElem?_eq_some_iff.mp slot).1, ?_⟩
    simp [occupiedAt, slot, Slot.occupied, vacant]
  · rintro ⟨inside, vacant⟩
    refine ⟨a.slots[i], Array.getElem?_eq_getElem inside, ?_⟩
    simpa [occupiedAt, inside, Slot.occupied] using vacant

/-- Every slot is in use or free. -/
theorem Kept.size_eq (kept : a.Kept) : a.slots.size = a.len + a.freeCount := by
  have used : a.len = ((List.range a.slots.size).filter a.occupiedAt).length := by
    rw [kept.len_eq, ← map_index_bindings, List.length_map]
  have free : a.freeCount = ((List.range a.slots.size).filter (!a.occupiedAt ·)).length :=
    kept.tidy.perm_free.length_eq
  rw [used, free, ← List.length_eq_length_filter_add, List.length_range]

/-! ## Contents -/

theorem nodupKeys_bindings (a : Arena α) : (a.bindings.map Prod.toSigma).NodupKeys := by
  rw [List.NodupKeys, List.keys, List.map_map]
  exact a.nodup_bindings

/-- What each live handle denotes. -/
def contents (a : Arena α) : Finmap fun _ : Handle => α :=
  AList.toFinmap ⟨a.bindings.map Prod.toSigma, a.nodupKeys_bindings⟩

theorem lookup_contents (a : Arena α) (h : Handle) : a.contents.lookup h = a.get? h := by
  ext x
  rw [contents, Finmap.lookup_toFinmap, ← Option.mem_def, AList.mem_lookup_iff, List.mem_map,
    ← mem_bindings_iff]
  constructor
  · rintro ⟨⟨k, y⟩, mem, same⟩
    cases same
    exact mem
  · intro mem
    exact ⟨_, mem, rfl⟩

theorem mem_contents_iff : h ∈ a.contents ↔ a.contains h = true := by
  rw [← Finmap.lookup_isSome, lookup_contents]
  rfl

theorem Kept.len_eq_card (kept : a.Kept) : a.len = a.contents.keys.card := by
  rw [kept.len_eq, contents, Finmap.keys, Finset.card]
  simp [Multiset.keys]

end PolicyTree.Arena
