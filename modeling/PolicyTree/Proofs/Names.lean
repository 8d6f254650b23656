import PolicyTree.Arena.Lemmas
import PolicyTree.Proofs.Session

/-! The arena names that a run of requests has given out. -/

namespace PolicyTree

variable {α : Type}

/-! ## Trees keep their names -/

namespace Tree

theorem keptByBuilding_owner (o : UInt32) : KeptByBuilding fun t : Tree α => t.arena.owner = o where
  allocate same _ := (Arena.owner_allocate ..).trans same
  updateNode same _ _ := (Arena.owner_modify ..).trans same

theorem keptByPruning_owner (o : UInt32) : KeptByPruning fun t : Tree α => t.arena.owner = o where
  updateNode same _ _ := (Arena.owner_modify ..).trans same
  free same _ := (Arena.owner_erase ..).trans same
  reroot same _ := same

theorem owner_setRoot (t : Tree α) (x : α) : (t.setRoot x).arena.owner = t.arena.owner :=
  Arena.owner_allocate ..

theorem owner_becomeCopy (t source : Tree α) (h : Handle) (x : α) :
    (t.becomeCopy source h x).tree.arena.owner = t.arena.owner :=
  (keptByBuilding_owner t.arena.owner).copyBelow (owner_setRoot t x) source h t.freshRoot

theorem owner_perform (t : Tree α) (e : Edit (Tree α) α) :
    (t.perform e).tree.arena.owner = t.arena.owner := by
  cases resets : e.resets with
  | false =>
    apply (keptByPruning_owner t.arena.owner).perform resets
    exact (keptByBuilding_owner t.arena.owner).built rfl e
  | true =>
    cases e with
    | setRoot x => exact owner_setRoot t x
    | clear => rfl
    | _ => cases resets

theorem owner_clone (t : Tree α) (owners : Owners) :
    (t.clone owners).1.arena.owner = owners.next := by
  unfold clone
  dsimp only
  split
  · rfl
  · exact owner_becomeCopy ..

theorem rest_clone (t : Tree α) (owners : Owners) : (t.clone owners).2 = owners.rest := by
  unfold clone
  dsimp only
  split <;> rfl

/-- An extraction of a dead node fails and takes no name. Any other takes one, also if it fails. -/
theorem extract_cases (t : Tree α) (h : Handle) (policy : Policy α) (owners : Owners) :
    (t.contains h = false ∧ ∃ e, t.extract h policy owners = (.refused e, owners)) ∨
      t.contains h = true ∧ ∃ outcome, t.extract h policy owners = (outcome, owners.rest) ∧
        ∀ t', outcome = .done t' → t'.arena.owner = owners.next := by
  cases live : t.node? h with
  | none =>
    refine .inl ⟨by rw [contains, Bool.eq_false_iff]; exact Arena.not_contains_iff.mpr live, ?_⟩
    rw [extract, value, node, live]
    exact ⟨_, rfl⟩
  | some n =>
    refine .inr ⟨Arena.contains_iff.mpr ⟨n, live⟩, ?_⟩
    rw [extract, value, node, live]
    refine ⟨_, rfl, fun t' done => ?_⟩
    obtain ⟨n, -, rfl⟩ := Outcome.map_eq_done.mp done
    exact owner_becomeCopy ..

end Tree

/-! ## Requests -/

namespace Session

variable {s : Session α} {t : Tree α} {n : Nat}

/-- Whether the request makes an arena. An extraction has made one also where its copy is
refused. -/
def makesArena (s : Session α) : Request α → Bool
  | .withPolicy _ | .withCapacity .. | .withRoot .. => true
  | .clone source => s.trees[source]?.isSome
  | .extract source h _ => s.trees[source]?.any (·.contains h)
  | .edit .. => false

/-- The number of arenas that the requests make, from `s` on. -/
def arenasFrom (s : Session α) : List (Request α) → Nat
  | [] => 0
  | r :: rs => (if s.makesArena r then 1 else 0) + (s.step r).arenasFrom rs

/-- The number of arenas made in a run. -/
def arenasMade (requests : List (Request α)) : Nat := start.arenasFrom requests

/-- `n` names have been given out, and every tree has one of them. -/
structure Named (s : Session α) (n : Nat) : Prop where
  next_eq : s.owners.next = UInt32.ofNat (n + 1)
  given : ∀ t ∈ s.trees, ∃ k, 1 ≤ k ∧ k ≤ n ∧ t.arena.owner = UInt32.ofNat k

theorem named_start : (start : Session α).Named 0 where
  next_eq := rfl
  given := nofun

theorem Named.rest_eq (named : s.Named n) : s.owners.rest.next = UInt32.ofNat (n + 1 + 1) := by
  rw [Owners.rest, named.next_eq, UInt32.ofNat_add (n + 1)]
  rfl

theorem Named.add (named : s.Named n) {made : Tree α × Owners}
    (owner : made.1.arena.owner = s.owners.next) (rest : made.2 = s.owners.rest) :
    (s.add made).Named (n + 1) where
  next_eq := by rw [Session.add, rest, named.rest_eq]
  given t mem := by
    rcases List.mem_append.mp mem with old | new
    · obtain ⟨k, first, last, same⟩ := named.given t old
      exact ⟨k, first, Nat.le_succ_of_le last, same⟩
    · obtain rfl := List.mem_singleton.mp new
      exact ⟨n + 1, Nat.succ_pos n, Nat.le_refl _, owner.trans named.next_eq⟩

theorem Named.skip (named : s.Named n) :
    Named { s with owners := s.owners.rest } (n + 1) where
  next_eq := named.rest_eq
  given t mem := by
    obtain ⟨k, first, last, same⟩ := named.given t mem
    exact ⟨k, first, Nat.le_succ_of_le last, same⟩

theorem Named.step (named : s.Named n) (r : Request α) :
    (s.step r).Named (n + if s.makesArena r then 1 else 0) := by
  cases r with
  | withPolicy policy => exact named.add rfl rfl
  | withCapacity policy capacity => exact named.add rfl rfl
  | withRoot x policy => exact named.add (Tree.owner_setRoot ..) rfl
  | clone source =>
    rw [Session.step, makesArena]
    cases s.trees[source]? with
    | none => exact named
    | some t => exact named.add (t.owner_clone _) (t.rest_clone _)
  | extract source h policy =>
    rw [Session.step, makesArena]
    cases s.trees[source]? with
    | none => exact named
    | some t =>
      rw [Option.any_some]
      dsimp only
      rcases t.extract_cases h policy s.owners with ⟨dead, e, ended⟩ | ⟨live, outcome, ended, owner⟩
      · rw [ended, dead]
        exact named
      · rw [ended, live]
        cases outcome with
        | done t' => exact named.add (owner t' rfl) rfl
        | refused e => exact named.skip
        | halted => exact named.skip
  | edit target e =>
    rw [Session.step, makesArena]
    split
    case h_2 => exact named
    case h_1 t e found _ =>
      refine ⟨named.next_eq, fun t' mem => ?_⟩
      rcases List.mem_or_eq_of_mem_set mem with old | rfl
      · exact named.given t' old
      · rw [Tree.owner_perform]
        exact named.given t (List.mem_of_getElem? found)

theorem Named.foldl_step (named : s.Named n) (rs : List (Request α)) :
    (rs.foldl Session.step s).Named (n + s.arenasFrom rs) := by
  induction rs generalizing s n with
  | nil => exact named
  | cons r rs ih =>
    rw [arenasFrom, ← Nat.add_assoc]
    exact ih (named.step r)

theorem named_run (requests : List (Request α)) :
    (run requests).Named (arenasMade requests) := by
  have named := named_start.foldl_step requests
  rwa [Nat.zero_add] at named

/-- While names last, the next one is no tree's. -/
theorem Named.next_ne (named : s.Named n) (few : n < UInt32.size) (mem : t ∈ s.trees) :
    t.arena.owner ≠ s.owners.next := by
  obtain ⟨k, first, last, same⟩ := named.given t mem
  rw [same, named.next_eq]
  intro equal
  have counted := congrArg UInt32.toNat equal
  rw [UInt32.toNat_ofNat', UInt32.toNat_ofNat'] at counted
  rw [UInt32.size] at few
  omega

end Session

end PolicyTree
