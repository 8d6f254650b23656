import PolicyTree.Proofs.Arena.Wear

/-! Runs of calls on one arena: each does to a finite map what it should, and slots grow older. -/

namespace PolicyTree.Arena

variable {α : Type} {a : Arena α} {bs : List (Handle × α)} {h : Handle} {x : α} {i : Nat}

/-! ## Calls -/

/-- A call with its arguments. `modify` writes through a borrowed item. -/
inductive Call (α : Type) where
  | allocate (x : α)
  | take (h : Handle)
  | get (h : Handle)
  | modify (h : Handle) (f : α → α)
  | contains (h : Handle)
  | clear

inductive Result (α : Type) where
  | nothing
  | handle (h : Handle)
  | item (x : Option α)
  | truth (b : Bool)

def call (a : Arena α) : Call α → Result α × Arena α
  | .allocate x => (.handle a.fresh, a.allocate x)
  | .take h => (.item (a.take h).1, (a.take h).2)
  | .get h => (.item (a.get? h), a)
  | .modify h f => (.item (a.get? h), a.modify h f)
  | .contains h => (.truth (a.contains h), a)
  | .clear => (.nothing, a.clear)

def callAll (a : Arena α) (cs : List (Call α)) : Arena α := cs.foldl (fun a c => (a.call c).2) a

theorem callAll_append (a : Arena α) (cs ds : List (Call α)) :
    a.callAll (cs ++ ds) = (a.callAll cs).callAll ds :=
  List.foldl_append ..

@[simp] theorem owner_call (a : Arena α) (c : Call α) : (a.call c).2.owner = a.owner := by
  cases c <;> simp [call, take]

@[simp] theorem owner_callAll (a : Arena α) (cs : List (Call α)) :
    (a.callAll cs).owner = a.owner := by
  induction cs generalizing a with
  | nil => rfl
  | cons c cs ih => exact (ih (a.call c).2).trans (owner_call a c)

/-! ## Calls on a finite map -/

/-- What a call may answer on a map from handles to items, and the map that it leaves. Only the
handle that an allocation issues is left open: any that is not bound. -/
inductive MapCall (m : Finmap fun _ : Handle => α) :
    Call α → Result α → (Finmap fun _ : Handle => α) → Prop where
  | allocate {h : Handle} {x : α} (unbound : h ∉ m) :
      MapCall m (.allocate x) (.handle h) (m.insert h x)
  | takeBound {h : Handle} {x : α} (bound : m.lookup h = some x) :
      MapCall m (.take h) (.item (some x)) (m.erase h)
  | takeUnbound {h : Handle} (unbound : h ∉ m) : MapCall m (.take h) (.item none) m
  | get {h : Handle} : MapCall m (.get h) (.item (m.lookup h)) m
  | modifyBound {h : Handle} {f : α → α} {x : α} (bound : m.lookup h = some x) :
      MapCall m (.modify h f) (.item (some x)) (m.insert h (f x))
  | modifyUnbound {h : Handle} {f : α → α} (unbound : h ∉ m) :
      MapCall m (.modify h f) (.item none) m
  | contains {h : Handle} {b : Bool} (tells : b = true ↔ h ∈ m) :
      MapCall m (.contains h) (.truth b) m
  | clear : MapCall m .clear .nothing ∅

theorem Tidy.contents_allocate (tidy : a.Tidy) (x : α) :
    (a.allocate x).contents = a.contents.insert a.fresh x := by
  apply Finmap.ext_lookup
  intro h
  by_cases same : h = a.fresh
  · rw [same, lookup_contents, tidy.get?_allocate_self, Finmap.lookup_insert]
  · rw [lookup_contents, tidy.get?_allocate_of_ne same, Finmap.lookup_insert_of_ne _ same,
      lookup_contents]

theorem contents_erase (a : Arena α) (h : Handle) :
    (a.erase h).contents = a.contents.erase h := by
  apply Finmap.ext_lookup
  intro k
  by_cases same : k = h
  · rw [same, lookup_contents, get?_erase_self, Finmap.lookup_erase]
  · rw [lookup_contents, get?_erase_of_ne same, Finmap.lookup_erase_ne same, lookup_contents]

theorem contents_modify (bound : a.get? h = some x) (f : α → α) :
    (a.modify h f).contents = a.contents.insert h (f x) := by
  apply Finmap.ext_lookup
  intro k
  by_cases same : k = h
  · rw [same, lookup_contents, get?_modify_self, bound, Finmap.lookup_insert, Option.map_some]
  · rw [lookup_contents, get?_modify_of_ne same, Finmap.lookup_insert_of_ne _ same,
      lookup_contents]

theorem contents_clear (a : Arena α) : a.clear.contents = ∅ := by
  apply Finmap.ext_lookup
  intro h
  rw [lookup_contents, get?_clear, Finmap.lookup_empty]

theorem notMem_contents_of_get? (unbound : a.get? h = none) : h ∉ a.contents := by
  rw [mem_contents_iff]
  exact not_contains_iff.mpr unbound

/-- Each call does to the contents what it does to a finite map. -/
theorem Kept.mapCall (kept : a.Kept) (c : Call α) :
    MapCall a.contents c (a.call c).1 (a.call c).2.contents := by
  cases c with
  | allocate x =>
    rw [call, kept.tidy.contents_allocate]
    exact .allocate (notMem_contents_of_get? kept.tidy.get?_fresh)
  | take h =>
    rw [call, take]
    cases bound : a.get? h with
    | none =>
      rw [erase_of_dead bound]
      exact .takeUnbound (notMem_contents_of_get? bound)
    | some x =>
      rw [contents_erase]
      exact .takeBound ((lookup_contents a h).trans bound)
  | get h =>
    rw [call, ← lookup_contents]
    exact .get
  | modify h f =>
    rw [call]
    cases bound : a.get? h with
    | none =>
      rw [modify_of_dead bound]
      exact .modifyUnbound (notMem_contents_of_get? bound)
    | some x =>
      rw [contents_modify bound]
      exact .modifyBound ((lookup_contents a h).trans bound)
  | contains h => exact .contains mem_contents_iff.symm
  | clear =>
    rw [call, contents_clear]
    exact .clear

theorem Kept.call (kept : a.Kept) (c : Call α) : (a.call c).2.Kept := by
  cases c with
  | allocate x => exact kept.allocate x
  | take h => exact kept.erase h
  | modify h f => exact kept.modify h f
  | get h | contains h => exact kept
  | clear => exact kept_clear a

theorem Kept.callAll (kept : a.Kept) (cs : List (Call α)) : (a.callAll cs).Kept := by
  induction cs generalizing a with
  | nil => exact kept
  | cons c cs ih => exact ih (kept.call c)

/-! ## Slots freed -/

/-- Whether the call frees slot `i`. -/
def frees (a : Arena α) : Call α → Nat → Bool
  | .take h, i => a.contains h && h.index == i
  | .clear, i => a.occupiedAt i
  | _, _ => false

/-- How often the calls free slot `i`. -/
def timesFreed (i : Nat) : Arena α → List (Call α) → Nat
  | _, [] => 0
  | a, c :: cs => (if a.frees c i then 1 else 0) + (a.call c).2.timesFreed i cs

theorem generationAt_call (a : Arena α) (c : Call α) (i : Nat) :
    (a.call c).2.generationAt i =
      a.generationAt i + UInt32.ofNat (if a.frees c i then 1 else 0) := by
  cases c with
  | allocate x => simp [call, frees]
  | take h =>
    rw [call, take, generationAt_erase, frees]
    by_cases here : a.contains h = true ∧ h.index = i
    · simp [here]
    · rw [if_neg here, if_neg (by simpa using here)]
      simp
  | modify h f => simp [call, frees]
  | get h | contains h => simp [call, frees]
  | clear =>
    rw [call, generationAt_clear, frees]
    cases a.occupiedAt i <;> simp

theorem generationAt_callAll (a : Arena α) (cs : List (Call α)) (i : Nat) :
    (a.callAll cs).generationAt i = a.generationAt i + UInt32.ofNat (a.timesFreed i cs) := by
  induction cs generalizing a with
  | nil => simp [callAll, timesFreed]
  | cons c cs ih =>
    have rest := ih (a.call c).2
    rw [generationAt_call] at rest
    rw [timesFreed, UInt32.ofNat_add, ← UInt32.add_assoc]
    exact rest

/-- An item stays until its slot is freed. -/
theorem Tidy.contains_call (tidy : a.Tidy) (live : a.contains h = true) {c : Call α}
    (held : ¬a.frees c h.index = true) : (a.call c).2.contains h = true := by
  cases c with
  | allocate x => exact tidy.contains_allocate live x
  | take k =>
    have other : h ≠ k := by
      rintro rfl
      exact held (by simp [frees, live])
    rw [call, take, contains, get?_erase_of_ne other]
    exact live
  | modify k f =>
    rw [call, contains_modify]
    exact live
  | get k | contains k => exact live
  | clear => exact absurd (contains_iff_handleAt.mp live).2 held

theorem Kept.contains_callAll (kept : a.Kept) (live : a.contains h = true) {cs : List (Call α)}
    (held : a.timesFreed h.index cs = 0) : (a.callAll cs).contains h = true := by
  induction cs generalizing a with
  | nil => exact live
  | cons c cs ih =>
    obtain ⟨now, later⟩ := Nat.add_eq_zero_iff.mp held
    have stays : ¬a.frees c h.index = true := by
      intro freed
      simp [freed] at now
    exact ih (kept.call c) (kept.tidy.contains_call live stays) later

theorem timesFreed_append (a : Arena α) (cs ds : List (Call α)) (i : Nat) :
    a.timesFreed i (cs ++ ds) = a.timesFreed i cs + (a.callAll cs).timesFreed i ds := by
  induction cs generalizing a with
  | nil => simp [timesFreed, callAll]
  | cons c cs ih =>
    rw [List.cons_append, timesFreed, timesFreed, ih, Nat.add_assoc]
    rfl

/-- A handle that died and is live again has seen its slot freed a positive multiple of `2 ^ 32`
times. -/
theorem Kept.freed_of_live_again (kept : a.Kept) (live : a.contains h = true)
    {cs ds : List (Call α)} (died : ¬(a.callAll cs).contains h = true)
    (again : (a.callAll (cs ++ ds)).contains h = true) :
    0 < a.timesFreed h.index (cs ++ ds) ∧ 2 ^ 32 ∣ a.timesFreed h.index (cs ++ ds) := by
  constructor
  · rw [timesFreed_append]
    apply Nat.add_pos_left
    exact Nat.pos_of_ne_zero fun never => died (kept.contains_callAll live never)
  · have aged := generationAt_callAll a (cs ++ ds) h.index
    rw [generationAt_of_contains again, generationAt_of_contains live] at aged
    exact dvd_of_generation_eq aged.symm

end PolicyTree.Arena
