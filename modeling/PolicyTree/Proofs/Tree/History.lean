import PolicyTree.Proofs.Tree.Lifetime

/-! Handles through runs of edits: how long they stay live, and what they denote meanwhile. -/

namespace PolicyTree.Tree

open Forest

variable {α : Type} {t t' : Tree α} {f f' : Forest α} {h : Handle} {n : Node α} {o : Option Handle}
  {d : Nat} {e : Edit (Tree α) α} {es : List (Edit (Tree α) α)}

/-! ## Runs of edits -/

def performAll (t : Tree α) (es : List (Edit (Tree α) α)) : Tree α :=
  es.foldl (fun t e => (t.perform e).tree) t

/-- Each edit of a run with the tree that it is performed on. -/
def steps : Tree α → List (Edit (Tree α) α) → List (Tree α × Edit (Tree α) α)
  | _, [] => []
  | t, e :: es => (t, e) :: (t.perform e).tree.steps es

/-- Whether the edit frees slot `i` of the arena: it held a node before the freeing began, and holds
it no longer. -/
def frees (t : Tree α) (e : Edit (Tree α) α) (i : Nat) : Bool :=
  (t.built e).arena.lostAt (t.perform e).tree.arena i

/-- How often the run frees slot `i`. -/
def timesFreed (t : Tree α) (i : Nat) (es : List (Edit (Tree α) α)) : Nat :=
  (t.steps es).countP fun s => s.1.frees s.2 i

/-- The value of `h` after the run, if it was `x` before and `h` stays live. -/
def lastValue (t : Tree α) (h : Handle) (x : α) (es : List (Edit (Tree α) α)) : α :=
  (t.steps es).foldl (fun x s => s.1.valueAfter s.2 h x) x

/-! ## One edit -/

theorem Shows.mem_stems_iff (shows : t.Shows f) {p : Option Handle} {x : α} :
    ⟨h, p, x⟩ ∈ f.stems none ↔ ∃ n, t.node? h = some n ∧ n.parent = p ∧ n.value = x := by
  rw [stems, List.mem_map]
  constructor
  · rintro ⟨⟨k, n⟩, mem, same⟩
    cases same
    exact ⟨n, shows.node?_eq_some_iff.mpr mem, rfl, rfl⟩
  · rintro ⟨n, live, rfl, rfl⟩
    exact ⟨(h, n), shows.node?_eq_some_iff.mp live, rfl⟩

/-- A live node that the edit does not fell keeps its parent, and its value unless it is given a new
one. -/
theorem Shows.node?_perform (shows : t.Shows f) (inRange : t.policy.InRange)
    (live : t.node? h = some n) (stays : ¬t.Fells e h) :
    ∃ n', (t.perform e).tree.node? h = some n' ∧ n'.parent = n.parent ∧
      n'.value = t.valueAfter e h n.value := by
  obtain ⟨f', shown, turnover⟩ := shows.turnsInto inRange e
  apply shown.mem_stems_iff.mp
  exact turnover.kept h _ _ (shows.mem_stems_iff.mpr ⟨n, live, rfl, rfl⟩) stays

theorem Shows.dead_of_fells (shows : t.Shows f) (inRange : t.policy.InRange)
    (live : t.contains h = true) (fells : t.Fells e h) :
    ¬(t.perform e).tree.contains h = true := by
  obtain ⟨f', shown, turnover⟩ := shows.turnsInto inRange e
  rw [shown.contains_iff]
  exact turnover.dead h (shows.contains_iff.mp live) fells

/-- The way up from a node that stays is the same as before, since all nodes on it stay. -/
theorem Shows.climbs_perform (shows : t.Shows f) (inRange : t.policy.InRange)
    (climbs : t.Climbs o d) (stay : ∀ k, o = some k → ¬t.Fells e k) :
    (t.perform e).tree.Climbs o d := by
  induction climbs with
  | top => exact .top
  | step stored above ih =>
    obtain ⟨n', stored', parent, -⟩ := shows.node?_perform inRange stored (stay _ rfl)
    apply Climbs.step stored'
    rw [parent]
    refine ih fun k above fells => stay _ rfl ?_
    exact fells.of_parent (shows.lists_parent stored above)

theorem Shows.depth_perform (shows : t.Shows f) (inRange : t.policy.InRange)
    (live : t.node? h = some n) (stays : ¬t.Fells e h) :
    (t.perform e).tree.depth h = t.depth h := by
  obtain ⟨f', -, shown⟩ := shows.perform inRange e
  obtain ⟨n', live', parent, -⟩ := shows.node?_perform inRange live stays
  obtain ⟨d, climbs, depth⟩ := shows.depth_eq live
  obtain ⟨d', climbs', depth'⟩ := shown.depth_eq live'
  have onward : (t.perform e).tree.Climbs n.parent d := by
    refine shows.climbs_perform inRange climbs fun k above fells => stays ?_
    exact fells.of_parent (shows.lists_parent live above)
  rw [parent] at climbs'
  rw [depth, depth', climbs'.unique onward]

/-! ## Slots -/

theorem ages_perform (t : Tree α) (e : Edit (Tree α) α) :
    (t.built e).arena.Ages (t.perform e).tree.arena := by
  cases resets : e.resets with
  | false => exact (worn_perform t resets).ages
  | true =>
    cases e with
    | setRoot x => exact t.arena.ages_allocate_clear _
    | clear => exact t.arena.ages_clear
    | _ => cases resets

theorem generationAt_perform (t : Tree α) (e : Edit (Tree α) α) (i : Nat) :
    (t.perform e).tree.arena.generationAt i =
      t.arena.generationAt i + UInt32.ofNat (if t.frees e i then 1 else 0) := by
  rw [t.ages_perform e i, (t.widened_built e).generationAt_eq, frees]
  split <;> rfl

theorem generationAt_performAll (t : Tree α) (es : List (Edit (Tree α) α)) (i : Nat) :
    (t.performAll es).arena.generationAt i =
      t.arena.generationAt i + UInt32.ofNat (t.timesFreed i es) := by
  induction es generalizing t with
  | nil => simp [performAll, timesFreed, steps]
  | cons e es ih =>
    have rest := ih (t.perform e).tree
    rw [generationAt_perform] at rest
    rw [timesFreed, steps, List.countP_cons, Nat.add_comm, UInt32.ofNat_add, ← UInt32.add_assoc]
    exact rest

/-- A node that dies has its slot freed. -/
theorem Shows.frees_of_dead (shows : t.Shows f) (live : t.contains h = true)
    (dead : ¬(t.perform e).tree.contains h = true) : t.frees e h.index = true :=
  Arena.lostAt_of_contains ((t.widened_built e).contains shows.holds.kept live) dead

/-! ## Runs -/

theorem Shows.performAll (shows : t.Shows f) (inRange : t.policy.InRange)
    (es : List (Edit (Tree α) α)) : ∃ f', (t.performAll es).Shows f' := by
  induction es generalizing t f with
  | nil => exact ⟨f, shows⟩
  | cons e es ih =>
    obtain ⟨f', -, shown⟩ := shows.perform inRange e
    exact ih shown (by rwa [policy_perform])

@[simp] theorem policy_performAll (t : Tree α) (es : List (Edit (Tree α) α)) :
    (t.performAll es).policy = t.policy := by
  induction es generalizing t with
  | nil => rfl
  | cons e es ih => exact (ih _).trans (policy_perform t e)

/-- A sorting policy keeps the forest in order throughout. -/
theorem Shows.performAll_ordered {cmp : α → α → Ordering} (shows : t.Shows f)
    (ordered : f.Ordered cmp) (sorts : t.policy.SortsBy cmp) (es : List (Edit (Tree α) α)) :
    ∃ f', (t.performAll es).Shows f' ∧ f'.Ordered cmp := by
  induction es generalizing t f with
  | nil => exact ⟨f, shows, ordered⟩
  | cons e es ih =>
    obtain ⟨f', edited, shown⟩ := shows.perform sorts.inRange e
    exact ih shown (edited.ordered sorts shows.nodup ordered) (by rwa [policy_perform])

/-- A node that no edit of the run fells is the same node at the end. -/
theorem Shows.same_after (shows : t.Shows f) (inRange : t.policy.InRange)
    (live : t.node? h = some n) (stays : ∀ s ∈ t.steps es, ¬s.1.Fells s.2 h) :
    ∃ n', (t.performAll es).node? h = some n' ∧ n'.parent = n.parent ∧
      n'.value = t.lastValue h n.value es ∧ (t.performAll es).depth h = t.depth h := by
  induction es generalizing t f n with
  | nil => exact ⟨n, live, rfl, rfl, rfl⟩
  | cons e es ih =>
    rw [steps, List.forall_mem_cons] at stays
    obtain ⟨f', -, shown⟩ := shows.perform inRange e
    obtain ⟨m, live', parent, value⟩ := shows.node?_perform inRange live stays.1
    obtain ⟨n', last, parent', value', depth⟩ :=
      ih shown (by rwa [policy_perform]) live' stays.2
    refine ⟨n', last, parent'.trans parent, ?_, ?_⟩
    · rw [value', value]
      rfl
    · exact depth.trans (shows.depth_perform inRange live stays.1)

/-- A node whose slot the run never frees is felled by no edit of the run. -/
theorem Shows.not_fells_of_held (shows : t.Shows f) (inRange : t.policy.InRange)
    (live : t.contains h = true) (held : t.timesFreed h.index es = 0) :
    ∀ s ∈ t.steps es, ¬s.1.Fells s.2 h := by
  induction es generalizing t f with
  | nil => exact nofun
  | cons e es ih =>
    rw [timesFreed, steps, List.countP_cons, Nat.add_eq_zero_iff] at held
    obtain ⟨later, now⟩ := held
    have stays : (t.perform e).tree.contains h = true := by
      by_contra dead
      rw [if_pos (shows.frees_of_dead live dead)] at now
      cases now
    obtain ⟨f', -, shown⟩ := shows.perform inRange e
    rw [steps, List.forall_mem_cons]
    exact ⟨fun fells => shows.dead_of_fells inRange live fells stays,
      ih shown (by rwa [policy_perform]) stays later⟩

/-- A handle is live again at the end only if its slot was freed a multiple of `2 ^ 32` times. -/
theorem dvd_timesFreed (live : t.contains h = true)
    (again : (t.performAll es).contains h = true) : 2 ^ 32 ∣ t.timesFreed h.index es := by
  have aged := t.generationAt_performAll es h.index
  rw [Arena.generationAt_of_contains live, Arena.generationAt_of_contains again] at aged
  exact Arena.dvd_of_generation_eq aged.symm

/-- Under a policy in range a live handle stays live until an edit fells its node, and denotes the
same node as long as it is live, if its slot is freed fewer than `2 ^ 32` times. -/
theorem Reachable.handle_lifetime (reached : t.Reachable) (inRange : t.policy.InRange)
    (live : t.contains h = true) (few : t.timesFreed h.index es < 2 ^ 32) :
    ((t.performAll es).contains h = true ↔ ∀ s ∈ t.steps es, ¬s.1.Fells s.2 h) ∧
      ((t.performAll es).contains h = true →
        (t.performAll es).parent h = t.parent h ∧ (t.performAll es).depth h = t.depth h ∧
          (t.performAll es).get? h = (t.get? h).map fun x => t.lastValue h x es) := by
  obtain ⟨f, shows, -⟩ := reached.exists_forest inRange
  obtain ⟨n, stored⟩ : ∃ n, t.node? h = some n := Arena.contains_iff.mp live
  have unfelled : (t.performAll es).contains h = true → ∀ s ∈ t.steps es, ¬s.1.Fells s.2 h := by
    intro again
    apply shows.not_fells_of_held inRange live
    exact Nat.eq_zero_of_dvd_of_lt (dvd_timesFreed live again) few
  refine ⟨⟨unfelled, fun stays => ?_⟩, fun again => ?_⟩
  · obtain ⟨n', last, -⟩ := shows.same_after inRange stored stays
    exact Arena.contains_iff.mpr ⟨n', last⟩
  · obtain ⟨n', last, parent, value, depth⟩ :=
      shows.same_after inRange stored (unfelled again)
    refine ⟨?_, depth, ?_⟩
    · rw [Tree.parent, Tree.parent, node, node, last, stored]
      exact congrArg Except.ok parent
    · rw [Tree.get?, Tree.get?, last, stored]
      exact congrArg some value

/-- An erasure beside the node, an insertion that reuses the slot, and a new value. -/
def sampleEdits : List (Edit (Tree Nat) Nat) :=
  [.erase ⟨1, 1, 0⟩, .insert ⟨1, 0, 0⟩ 9, .replaceValue ⟨1, 2, 0⟩ 3]

theorem handle_lifetime_sample :
    (Tree.sample .naturalOrder).contains ⟨1, 2, 0⟩ = true ∧
      (Tree.sample .naturalOrder).timesFreed 2 sampleEdits < 2 ^ 32 ∧
      ((Tree.sample .naturalOrder).performAll sampleEdits).contains ⟨1, 2, 0⟩ = true ∧
      (∀ s ∈ (Tree.sample .naturalOrder).steps sampleEdits, ¬s.1.Fells s.2 ⟨1, 2, 0⟩) ∧
      ((Tree.sample .naturalOrder).performAll sampleEdits).parent ⟨1, 2, 0⟩ =
        (Tree.sample .naturalOrder).parent ⟨1, 2, 0⟩ := by
  have inRange : (Tree.sample .naturalOrder).policy.InRange := by
    rw [policy_sample]
    exact Policy.inRange_of_place_eq rfl
  have live : (Tree.sample .naturalOrder).contains ⟨1, 2, 0⟩ = true := by decide +kernel
  have few : (Tree.sample .naturalOrder).timesFreed 2 sampleEdits < 2 ^ 32 := by decide +kernel
  have last : ((Tree.sample .naturalOrder).performAll sampleEdits).contains ⟨1, 2, 0⟩ = true := by
    decide +kernel
  have lifetime := (reachable_sample .naturalOrder).handle_lifetime inRange live few
  exact ⟨live, few, last, lifetime.1.mp last, (lifetime.2 last).1⟩

end PolicyTree.Tree
