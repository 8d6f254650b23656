import PolicyTree.Proofs.Forest.Edits
import PolicyTree.Proofs.Tree.Relink
import PolicyTree.Tree.Copy

/-! Insertions and copies grow the forest that a tree stores, and leave all else alone. -/

namespace PolicyTree.Tree

open Forest

variable {α : Type} {t : Tree α} {f : Forest α} {q : Option Handle} {rest : List (Handle × Node α)}
  {s : Sprig α} {i : Nat} {x : α}

/-! ## Insertion -/

theorem Stores.fresh_notMem (stores : t.Stores q f rest) : t.arena.fresh ∉ f.handles := by
  intro mem
  apply Arena.Holds.fresh_notMem stores
  rw [List.map_append, map_fst_records]
  exact List.mem_append_left _ mem

theorem Stores.attach (stores : t.Stores q f rest) (mem : s ∈ f.nodes) (i : Nat) (x : α) :
    (t.attach s.handle i x).Stores q (f.mapBelow s.handle (plantAt i ⟨t.arena.fresh, x, nil⟩))
      rest := by
  refine (stores.allocate ⟨x, some s.handle, []⟩).updateChildren mem (roots_plantAt ..) ?_
  apply ((records_perm_cons (sprigs_plantAt_perm ..) _).append_right rest).trans
  exact List.perm_middle.symm

/-- An insertion below a stored node is refused with nothing changed, or adds one node where the
policy places its value. -/
theorem Stores.insert_cases (stores : t.Stores q f rest) (mem : s ∈ f.nodes) (x : α) :
    (∃ i, t.policy.place s.below.rootValues x = .taken i ∧
        t.insert s.handle x = t.refuse (.duplicateKey s.handle)) ∨
      ∃ i, t.policy.place s.below.rootValues x = .before i ∧
        t.insert s.handle x = (t.attach s.handle i x).answer t.arena.fresh := by
  obtain ⟨p, stored⟩ := stores.exists_node? mem
  have values : t.valuesAt s.below.roots = s.below.rootValues := stores.valuesAt_roots mem
  simp only [insert, node, stored, require_ok, values]
  cases t.policy.place s.below.rootValues x with
  | taken i => exact .inl ⟨i, rfl, rfl⟩
  | before i => exact .inr ⟨i, rfl, rfl⟩

/-! ## Growth of the stored forest -/

/-- From `t` to `t'` the stored forest grew from `f` to `f'` by the policy of `t`; the nodes of
`rest`, the root and the policy stayed. -/
structure Grows (t : Tree α) (f : Forest α) (q : Option Handle) (rest : List (Handle × Node α))
    (t' : Tree α) (f' : Forest α) : Prop where
  grown : Grown t.policy f f'
  stores : t'.Stores q f' rest
  root_eq : t'.root = t.root
  policy_eq : t'.policy = t.policy

theorem Stores.grows_self (stores : t.Stores q f rest) : t.Grows f q rest t f :=
  ⟨.refl, stores, rfl, rfl⟩

theorem Grows.trans {t' t'' : Tree α} {f' f'' : Forest α} (first : t.Grows f q rest t' f')
    (second : t'.Grows f' q rest t'' f'') : t.Grows f q rest t'' f'' where
  grown := first.grown.trans (first.policy_eq ▸ second.grown)
  stores := second.stores
  root_eq := second.root_eq.trans first.root_eq
  policy_eq := second.policy_eq.trans first.policy_eq

theorem Stores.grows_attach (stores : t.Stores q f rest) (mem : s ∈ f.nodes)
    (place : t.policy.place s.below.rootValues x = .before i) :
    t.Grows f q rest (t.attach s.handle i x)
      (f.mapBelow s.handle (plantAt i ⟨t.arena.fresh, x, nil⟩)) where
  grown := .single (.below stores.nodup mem place stores.fresh_notMem)
  stores := stores.attach mem i x
  root_eq := rfl
  policy_eq := rfl

/-! ## Copies -/

/-- Copying one level under a stored node grows the forest and does not halt; the copies are among
the stored nodes. -/
theorem copyLevel_grows (source : Tree α) (parent : Handle) {dest : Handle} (hs : List Handle)
    {t : Tree α} {f : Forest α} (stores : t.Stores q f rest) (live : dest ∈ f.handles) :
    ∃ f', t.Grows f q rest (copyLevel source parent dest hs t).tree f' ∧
      (copyLevel source parent dest hs t).outcome ≠ .halted ∧
      ∀ copies, (copyLevel source parent dest hs t).outcome = .done copies →
        ∀ c ∈ copies, c.2 ∈ f'.handles := by
  -- Each copy grows the forest, so what is said of the copies has to survive those after them.
  induction hs generalizing t f with
  | nil =>
    refine ⟨f, stores.grows_self, nofun, fun copies done => ?_⟩
    obtain rfl : [] = copies := by simpa [copyLevel] using done
    exact nofun
  | cons h hs ih =>
    rw [copyLevel]
    cases source.value h with
    | error e => exact ⟨f, stores.grows_self, nofun, nofun⟩
    | ok x =>
      obtain ⟨s, mem, rfl⟩ := List.mem_map.mp live
      rcases stores.insert_cases mem x with ⟨i, -, refused⟩ | ⟨i, place, done⟩
      · rw [require_ok, refused, mapError_refuse, andThen_refuse]
        exact ⟨f, stores.grows_self, nofun, nofun⟩
      · rw [require_ok, done, mapError_answer, andThen_answer, andThen_restate]
        have step := stores.grows_attach mem place
        have planted : t.arena.fresh ∈ (f.mapBelow s.handle
            (plantAt i ⟨t.arena.fresh, x, nil⟩)).handles :=
          mem_handles_mapBelow live fun b => mem_handles_plantAt ..
        obtain ⟨f', more, goesOn, copied⟩ := ih step.stores (step.grown.handles_subset live)
        refine ⟨f', step.trans more, ?_, fun copies ended c mem => ?_⟩
        · intro halted
          exact goesOn (Outcome.map_eq_halted.mp halted)
        · obtain ⟨cs, restDone, rfl⟩ := Outcome.map_eq_done.mp ended
          rcases List.mem_cons.mp mem with rfl | mem
          · exact more.grown.handles_subset planted
          · exact copied cs restDone c mem

/-- Copying level by level under stored nodes grows the forest and does not halt. -/
theorem copyPending_grows (source : Tree α) (bound : Nat) {pending : List (Handle × Handle)}
    (copied : Nat) {t : Tree α} {f : Forest α} (stores : t.Stores q f rest)
    (live : ∀ c ∈ pending, c.2 ∈ f.handles) :
    ∃ f', t.Grows f q rest (copyPending source bound pending copied t).tree f' ∧
      (copyPending source bound pending copied t).outcome ≠ .halted := by
  induction bound generalizing pending copied t f with
  | zero => exact ⟨f, stores.grows_self, nofun⟩
  | succ bound ih =>
    match pending with
    | [] => exact ⟨f, stores.grows_self, nofun⟩
    | (h, dest) :: pending =>
      rw [copyPending]
      cases source.node h with
      | error e => exact ⟨f, stores.grows_self, nofun⟩
      | ok n =>
        rw [require_ok]
        obtain ⟨f₁, level, goesOn, listed⟩ :=
          copyLevel_grows source h n.children stores (live _ (List.mem_cons_self ..))
        cases ended : copyLevel source h dest n.children t with
        | mk outcome t₁ =>
          rw [ended] at level goesOn listed
          cases outcome with
          | refused e => exact ⟨f₁, level, nofun⟩
          | halted => exact absurd rfl goesOn
          | done copies =>
            have stillLive : ∀ c ∈ copies.reverse ++ pending, c.2 ∈ f₁.handles := by
              intro c mem
              rcases List.mem_append.mp mem with new | old
              · exact listed copies rfl c (List.mem_reverse.mp new)
              · exact level.grown.handles_subset (live c (List.mem_cons_of_mem _ old))
            obtain ⟨f', more, noHalt⟩ := ih (copied + copies.length) level.stores stillLive
            exact ⟨f', level.trans more, noHalt⟩

theorem Stores.copyBelow_grows (stores : t.Stores q f rest) (source : Tree α) (h dest : Handle)
    (live : dest ∈ f.handles) :
    ∃ f', t.Grows f q rest (t.copyBelow source h dest).tree f' ∧
      (t.copyBelow source h dest).outcome ≠ .halted := by
  apply copyPending_grows source source.len 0 stores
  intro c mem
  obtain rfl := List.mem_singleton.mp mem
  exact live

/-! ## Whole trees -/

theorem shows_withCapacity (policy : Policy α) (capacity : Nat) (owners : Owners) :
    (withCapacity policy capacity owners).1.Shows nil where
  roots_eq := rfl
  stores := Arena.Holds.withCapacity ..

theorem shows_clear (t : Tree α) : t.clear.Shows nil where
  roots_eq := rfl
  stores := Arena.Holds.clear ..

theorem shows_setRoot (t : Tree α) (x : α) :
    (t.setRoot x).Shows (ofSprigs [⟨t.freshRoot, x, nil⟩]) where
  roots_eq := rfl
  stores := (Arena.Holds.clear t.arena).allocate _

theorem Grows.shows {t' : Tree α} {f' : Forest α} (grows : t.Grows f none [] t' f')
    (shows : t.Shows f) : t'.Shows f' where
  roots_eq := by rw [grows.grown.roots_eq, shows.roots_eq, grows.root_eq]
  stores := grows.stores

/-- What a tree holds after it became a copy has grown from the new root, also where the copy was
broken off. -/
theorem becomeCopy_grows (t source : Tree α) (h : Handle) (x : α) :
    ∃ f', Grown t.policy (ofSprigs [⟨t.freshRoot, x, nil⟩]) f' ∧
      (t.becomeCopy source h x).tree.Shows f' := by
  have start := shows_setRoot t x
  obtain ⟨f', grows, -⟩ :=
    start.stores.copyBelow_grows source h t.freshRoot (mem_handles (mem_nodes_single _))
  exact ⟨f', grows.grown, grows.shows start⟩

/-- An insertion needs a live parent whose children leave room for the key. -/
theorem Shows.insert_cases (shows : t.Shows f) (h : Handle) (x : α) :
    (t.node? h = none ∧ t.insert h x = t.refuse (.invalidHandle h)) ∨
      ∃ s ∈ f.nodes, s.handle = h ∧
        ((∃ i, t.policy.place s.below.rootValues x = .taken i ∧
            t.insert h x = t.refuse (.duplicateKey h)) ∨
          ∃ i, t.policy.place s.below.rootValues x = .before i ∧ t.arena.fresh ∉ f.handles ∧
            (t.insert h x).outcome = .done t.arena.fresh ∧
            (t.insert h x).tree.Shows (f.mapBelow h (plantAt i ⟨t.arena.fresh, x, nil⟩))) := by
  cases live : t.node? h with
  | none =>
    refine .inl ⟨rfl, ?_⟩
    rw [insert, node, live, require_error]
  | some n =>
    obtain ⟨s, mem, rfl, -⟩ := shows.exists_node live
    refine .inr ⟨s, mem, rfl, ?_⟩
    rcases shows.stores.insert_cases mem x with refused | ⟨i, place, done⟩
    · exact .inl refused
    · have grows := shows.stores.grows_attach (x := x) mem place
      refine .inr ⟨i, place, shows.stores.fresh_notMem, ?_⟩
      rw [done]
      exact ⟨rfl, grows.shows shows⟩

end PolicyTree.Tree
