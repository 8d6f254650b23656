import PolicyTree.Proofs.Arena.Calls

/-! Many arenas under one supply of owners: each is a finite map, and none knows another's
handles. -/

namespace PolicyTree

open Arena (Call MapCall)

/-- The arenas created so far, in the order of their creation, and the owners still to be given. -/
structure Depot (α : Type) where
  owners : Owners
  arenas : List (Arena α)

namespace Depot

variable {α : Type} {d : Depot α} {a b : Arena α} {h : Handle} {i j : Nat}

/-! ## Runs -/

/-- What the users of a depot can do next: `call i c` makes the call `c` on arena `i`. -/
inductive Request (α : Type) where
  | create (reserved : Nat)
  | call (i : Nat) (c : Call α)

def Request.creates : Request α → Bool
  | .create _ => true
  | .call .. => false

def start : Depot α := ⟨.start, []⟩

def step (d : Depot α) : Request α → Depot α
  | .create reserved => ⟨d.owners.rest, d.arenas ++ [.withCapacity d.owners.next reserved]⟩
  | .call i c => { d with arenas := d.arenas.modify i fun a => (a.call c).2 }

def runFrom (d : Depot α) (rs : List (Request α)) : Depot α := rs.foldl step d

def run (rs : List (Request α)) : Depot α := start.runFrom rs

/-- The calls on arena `i` among the requests. -/
def callsOn (i : Nat) (rs : List (Request α)) : List (Call α) :=
  rs.filterMap fun
    | .create _ => none
    | .call j c => if j = i then some c else none

theorem callsOn_append (i : Nat) (rs ss : List (Request α)) :
    callsOn i (rs ++ ss) = callsOn i rs ++ callsOn i ss :=
  List.filterMap_append

theorem run_append (rs ss : List (Request α)) : run (rs ++ ss) = (run rs).runFrom ss :=
  List.foldl_append ..

theorem step_call (stored : d.arenas[i]? = some a) (c : Call α) :
    (d.step (.call i c)).arenas = d.arenas.set i (a.call c).2 := by
  apply List.ext_getElem?
  intro j
  simp only [step, List.getElem?_modify, List.getElem?_set']
  by_cases same : i = j
  · subst same
    simp [stored]
  · simp [same]

/-- A call on one arena is no business of the others. -/
theorem step_stored (stored : d.arenas[i]? = some a) (r : Request α) :
    (d.step r).arenas[i]? = some (a.callAll (callsOn i [r])) := by
  cases r with
  | create reserved =>
    rw [step, List.getElem?_append_left (List.getElem?_eq_some_iff.mp stored).1]
    exact stored
  | call j c =>
    by_cases same : j = i
    · simp [step, same, stored, callsOn, Arena.callAll]
    · simp [step, same, stored, callsOn, Arena.callAll]

/-- An arena does the calls made on it, whatever comes between them. -/
theorem runFrom_stored (stored : d.arenas[i]? = some a) (rs : List (Request α)) :
    (d.runFrom rs).arenas[i]? = some (a.callAll (callsOn i rs)) := by
  induction rs generalizing d a with
  | nil => exact stored
  | cons r rs ih =>
    have rest := ih (step_stored stored r)
    rw [← Arena.callAll_append, ← callsOn_append] at rest
    exact rest

/-! ## The arenas of a run -/

/-- The arenas are numbered by owner, and each keeps its books. -/
structure Sound (d : Depot α) : Prop where
  next_eq : d.owners.next = UInt32.ofNat (d.arenas.length + 1)
  owner_eq : ∀ (i : Nat) (a : Arena α), d.arenas[i]? = some a → a.owner = UInt32.ofNat (i + 1)
  kept : ∀ (i : Nat) (a : Arena α), d.arenas[i]? = some a → a.Kept

theorem sound_start : (start : Depot α).Sound where
  next_eq := rfl
  owner_eq _ _ stored := by cases stored
  kept _ _ stored := by cases stored

/-- An arena of the depot after a request was there before it, or has just been created. -/
theorem step_cases {r : Request α} (stored : (d.step r).arenas[i]? = some b) :
    (∃ a, d.arenas[i]? = some a ∧ b = a.callAll (callsOn i [r])) ∨
      (∃ reserved, r = .create reserved ∧ i = d.arenas.length ∧
        b = .withCapacity d.owners.next reserved) := by
  cases old : d.arenas[i]? with
  | some a =>
    left
    rw [step_stored old] at stored
    exact ⟨a, rfl, (Option.some.inj stored).symm⟩
  | none =>
    right
    cases r with
    | create reserved =>
      rw [step, List.getElem?_append_right (List.getElem?_eq_none_iff.mp old),
        List.getElem?_singleton] at stored
      split at stored
      case isTrue last =>
        have outside := List.getElem?_eq_none_iff.mp old
        exact ⟨reserved, rfl, by omega, (Option.some.inj stored).symm⟩
      case isFalse => cases stored
    | call j c =>
      rw [step, List.getElem?_modify, old] at stored
      cases stored

theorem Sound.step (sound : d.Sound) (r : Request α) : (d.step r).Sound where
  next_eq := by
    cases r with
    | create reserved =>
      simp [Depot.step, Owners.rest, sound.next_eq, UInt32.ofNat_add]
    | call i c => simpa [Depot.step] using sound.next_eq
  owner_eq i b stored := by
    rcases step_cases stored with ⟨a, old, rfl⟩ | ⟨_, -, rfl, rfl⟩
    · rw [Arena.owner_callAll]
      exact sound.owner_eq i a old
    · exact sound.next_eq
  kept i b stored := by
    rcases step_cases stored with ⟨a, old, rfl⟩ | ⟨reserved, -, -, rfl⟩
    · exact (sound.kept i a old).callAll _
    · exact (Arena.Holds.withCapacity d.owners.next reserved).kept

theorem sound_run (rs : List (Request α)) : (run rs).Sound := by
  induction rs using List.reverseRecOn with
  | nil => exact sound_start
  | append_singleton rs r ih =>
    rw [run_append]
    exact ih.step r

theorem length_run (rs : List (Request α)) :
    (run rs).arenas.length = rs.countP Request.creates := by
  induction rs using List.reverseRecOn with
  | nil => rfl
  | append_singleton rs r ih =>
    rw [run_append, List.countP_append, ← ih]
    cases r <;> simp [runFrom, step, Request.creates]

/-- Fewer than `2 ^ 32` arenas all have different owners. -/
theorem Sound.index_eq (sound : d.Sound) (few : d.arenas.length < 2 ^ 32)
    (first : d.arenas[i]? = some a) {e : Depot α} (sound' : e.Sound)
    (few' : e.arenas.length < 2 ^ 32) (second : e.arenas[j]? = some b)
    (same : a.owner = b.owner) : i = j := by
  rw [sound.owner_eq i a first, sound'.owner_eq j b second] at same
  have equal := congrArg UInt32.toNat same
  rw [UInt32.toNat_ofNat', UInt32.toNat_ofNat'] at equal
  have := (List.getElem?_eq_some_iff.mp first).1
  have := (List.getElem?_eq_some_iff.mp second).1
  omega

/-! ## Main result -/

/-- After the requests `before`, arena `i` answers an allocation of `x` with `h`. -/
def Issues (before : List (Request α)) (i : Nat) (x : α) (h : Handle) : Prop :=
  ∃ a, (run before).arenas[i]? = some a ∧ (a.call (.allocate x)).1 = .handle h

/-- After the requests, arena `i` has a binding for `h`. -/
def Binds (rs : List (Request α)) (i : Nat) (h : Handle) : Prop :=
  ∃ a, (run rs).arenas[i]? = some a ∧ h ∈ a.contents

/-- How often slot `s` of arena `i` is freed by `later`, after the requests `before`. -/
def timesFreed (i s : Nat) (before later : List (Request α)) : Nat :=
  ((run before).arenas[i]?.map fun a => a.timesFreed s (callsOn i later)).getD 0

theorem timesFreed_stored {before : List (Request α)} (stored : (run before).arenas[i]? = some a)
    (s : Nat) (later : List (Request α)) :
    timesFreed i s before later = a.timesFreed s (callsOn i later) := by
  rw [timesFreed, stored]
  rfl

/-- Every arena of the run is a finite map from handles, apart from all others. -/
structure ServesMaps (rs : List (Request α)) : Prop where
  /-- A new arena binds nothing, and the others stay as they are. -/
  create : ∀ reserved, ∃ new : Arena α, new.contents = ∅ ∧
    (run (rs ++ [.create reserved])).arenas = (run rs).arenas ++ [new]
  /-- A call does what it does on a finite map, and the other arenas stay as they are. -/
  call : ∀ (i : Nat) (a : Arena α), (run rs).arenas[i]? = some a → ∀ c, ∃ a' : Arena α,
    MapCall a.contents c (a.call c).1 a'.contents ∧
      (run (rs ++ [.call i c])).arenas = (run rs).arenas.set i a'
  len_eq : ∀ (i : Nat) (a : Arena α), (run rs).arenas[i]? = some a → a.len = a.contents.keys.card
  /-- What one arena issues is at no time bound in another. -/
  apart : ∀ before i x h, before ++ [.call i (.allocate x)] <+: rs → Issues before i x h →
    ∀ now, now <+: rs → ∀ j, Binds now j h → j = i
  /-- A removed handle is bound again only once its slot has been freed a positive multiple of
  `2 ^ 32` times since it was issued. -/
  stale : ∀ before i x h during later,
    before ++ [.call i (.allocate x)] ++ (during ++ later) = rs → Issues before i x h →
      ¬Binds (before ++ [.call i (.allocate x)] ++ during) i h → Binds rs i h →
        let freed := timesFreed i h.index (before ++ [.call i (.allocate x)]) (during ++ later)
        0 < freed ∧ 2 ^ 32 ∣ freed

theorem contents_withCapacity (owner : UInt32) (reserved : Nat) :
    (Arena.withCapacity owner reserved : Arena α).contents = ∅ := by
  apply Finmap.ext_lookup
  intro h
  rw [Arena.lookup_contents, Finmap.lookup_empty]
  exact (Arena.Holds.withCapacity owner reserved).get?_eq_none_iff.mpr List.not_mem_nil

theorem Issues.owner_eq {before : List (Request α)} {x : α} (issues : Issues before i x h)
    (stored : (run before).arenas[i]? = some a) : h.owner = a.owner := by
  obtain ⟨a', stored', issued⟩ := issues
  rw [stored] at stored'
  cases stored'
  cases issued
  exact Arena.owner_fresh a

theorem few_of_early {rs before : List (Request α)} (few : rs.countP Request.creates < 2 ^ 32)
    (early : before <+: rs) : (run before).arenas.length < 2 ^ 32 := by
  rw [length_run]
  exact Nat.lt_of_le_of_lt early.sublist.countP_le few

/-- However the requests on different arenas follow on one another, each arena is a finite map. -/
theorem serves_maps (rs : List (Request α)) (few : rs.countP Request.creates < 2 ^ 32) :
    ServesMaps rs where
  create reserved := by
    refine ⟨_, contents_withCapacity (run rs).owners.next reserved, ?_⟩
    rw [run_append]
    rfl
  call i a stored c := by
    refine ⟨(a.call c).2, ((sound_run rs).kept i a stored).mapCall c, ?_⟩
    rw [run_append]
    exact step_call stored c
  len_eq i a stored := ((sound_run rs).kept i a stored).len_eq_card
  apart before i x h early issues now sooner j binds := by
    obtain ⟨a, stored, -⟩ := id issues
    obtain ⟨b, found, bound⟩ := binds
    have same : b.owner = a.owner := by
      rw [← issues.owner_eq stored]
      exact (Arena.owner_of_contains (Arena.mem_contents_iff.mp bound)).symm
    have shorter : before <+: rs := (List.prefix_append ..).trans early
    exact (sound_run now).index_eq (few_of_early few sooner) found (sound_run before)
      (few_of_early few shorter) stored same
  stale before i x h during later split issues removed again := by
    obtain ⟨a, stored, issued⟩ := issues
    cases issued
    subst split
    have kept := (sound_run before).kept i a stored
    have after : (run (before ++ [.call i (.allocate x)])).arenas[i]? = some (a.allocate x) := by
      rw [run_append]
      simpa [callsOn, Arena.callAll, Arena.call] using
        runFrom_stored stored [.call i (.allocate x)]
    have live : (a.allocate x).contains a.fresh = true := by
      rw [Arena.contains, kept.tidy.get?_allocate_self]
      rfl
    have died : ¬((a.allocate x).callAll (callsOn i during)).contains a.fresh = true := by
      intro still
      refine removed ⟨_, ?_, Arena.mem_contents_iff.mpr still⟩
      rw [run_append]
      exact runFrom_stored after during
    obtain ⟨b, found, bound⟩ := again
    rw [run_append, runFrom_stored after, callsOn_append] at found
    cases found
    have freed := (kept.call (.allocate x)).freed_of_live_again live died
      (Arena.mem_contents_iff.mp bound)
    rw [timesFreed_stored after, callsOn_append]
    exact freed

/-- Two arenas in use; the slot of the first is filled anew. -/
def sampleRequests : List (Request Nat) :=
  [.create 0, .create 2, .call 0 (.allocate 5), .call 1 (.allocate 7), .call 0 (.take ⟨1, 0, 0⟩),
    .call 0 (.allocate 6)]

theorem serves_maps_sample :
    sampleRequests.countP Request.creates < 2 ^ 32 ∧ ServesMaps sampleRequests ∧
      Issues (sampleRequests.take 2) 0 5 ⟨1, 0, 0⟩ ∧ Issues (sampleRequests.take 5) 0 6 ⟨1, 0, 1⟩ :=
  ⟨by decide, serves_maps sampleRequests (by decide), ⟨_, rfl, rfl⟩, ⟨_, rfl, rfl⟩⟩

end Depot

end PolicyTree
