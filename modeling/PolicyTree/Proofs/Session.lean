import PolicyTree.Proofs.Tree.Closure

/-! Runs of public operations on a growing collection of trees. -/

namespace PolicyTree

variable {α σ τ : Type}

/-! ## Edits of one tree -/

/-- An edit with its arguments; `σ` stands for the trees that edits copy from. -/
inductive Edit (σ α : Type) where
  | setRoot (x : α)
  | clear
  | insert (parent : Handle) (x : α)
  | replaceValue (h : Handle) (x : α)
  | replaceSubtree (h : Handle) (source : σ)
  | replaceWithSubtree (h : Handle) (source : σ) (sourceNode : Handle)
  | erase (h : Handle)
  | eraseChildren (h : Handle)
  | sortBy (first : Handle) (last : Option Handle) (cmp : α → α → Ordering)
  | sortChildrenBy (h : Handle) (cmp : α → α → Ordering)
  | sortChildren [Ord α] (h : Handle)

/-- Looks up the tree that the edit copies from. -/
def Edit.resolve (find : σ → Option τ) : Edit σ α → Option (Edit τ α)
  | setRoot x => some (setRoot x)
  | clear => some clear
  | insert parent x => some (insert parent x)
  | replaceValue h x => some (replaceValue h x)
  | replaceSubtree h source => (find source).map (replaceSubtree h)
  | replaceWithSubtree h source sourceNode =>
    (find source).map (replaceWithSubtree h · sourceNode)
  | erase h => some (erase h)
  | eraseChildren h => some (eraseChildren h)
  | sortBy first last cmp => some (sortBy first last cmp)
  | sortChildrenBy h cmp => some (sortChildrenBy h cmp)
  | sortChildren h => some (sortChildren h)

/-- What a successful edit answers. -/
inductive Answer (α : Type) where
  | nothing
  | handle (h : Handle)
  | value (x : α)
  | count (n : Nat)

def Tree.perform (t : Tree α) : Edit (Tree α) α → Reply α (Answer α)
  | .setRoot x => (t.setRoot x).answer (.handle t.freshRoot)
  | .clear => t.clear.answer .nothing
  | .insert parent x => (t.insert parent x).map .handle
  | .replaceValue h x => (t.replaceValue h x).map .value
  | .replaceSubtree h source => (t.replaceSubtree h source).map .handle
  | .replaceWithSubtree h source sourceNode =>
    (t.replaceWithSubtree h source sourceNode).map .handle
  | .erase h => (t.erase h).map .value
  | .eraseChildren h => (t.eraseChildren h).map .count
  | .sortBy first last cmp => (t.sortBy first last cmp).map fun _ => .nothing
  | .sortChildrenBy h cmp => (t.sortChildrenBy h cmp).map fun _ => .nothing
  | @Edit.sortChildren _ _ order h => (@sortChildren α order t h).map fun _ => .nothing

/-- Whether the edit begins by discarding every node. -/
def Edit.resets : Edit σ α → Bool
  | setRoot _ | clear => true
  | _ => false

/-- Whether the edit puts a copy of a subtree in the place of another. -/
def Edit.substitutes : Edit σ α → Bool
  | replaceSubtree .. | replaceWithSubtree .. => true
  | _ => false

/-- The tree with all nodes that the edit stores, unless it resets the tree: what is left to do only
changes and frees nodes. -/
def Tree.built (t : Tree α) : Edit (Tree α) α → Tree α
  | .insert parent x => (t.insert parent x).tree
  | .replaceSubtree h source => source.root.elim t (t.withCopy h source)
  | .replaceWithSubtree h source sourceNode => t.withCopy h source sourceNode
  | _ => t

theorem Tree.KeptByBuilding.built {P : Tree α → Prop} (kept : KeptByBuilding P) {t : Tree α}
    (holds : P t) (e : Edit (Tree α) α) : P (t.built e) := by
  cases e with
  | insert parent x => exact kept.insert holds parent x
  | replaceSubtree h source =>
    rw [Tree.built]
    cases source.root with
    | none => exact holds
    | some k => exact kept.withCopy holds h source k
  | replaceWithSubtree h source k => exact kept.withCopy holds h source k
  | _ => exact holds

theorem Tree.KeptByPruning.perform {P : Tree α → Prop} (kept : KeptByPruning P) {t : Tree α}
    {e : Edit (Tree α) α} (goesOn : e.resets = false) (holds : P (t.built e)) :
    P (t.perform e).tree := by
  cases e with
  | setRoot x => cases goesOn
  | clear => cases goesOn
  | insert parent x => exact holds
  | replaceValue h x => exact kept.replaceValue holds h x
  | replaceSubtree h source =>
    rw [Tree.built] at holds
    rw [Tree.perform, tree_map, replaceSubtree]
    cases root : source.root with
    | none =>
      rw [root] at holds
      exact holds
    | some k =>
      rw [root] at holds
      exact kept.replaceWithSubtree holds
  | replaceWithSubtree h source k => exact kept.replaceWithSubtree holds
  | erase h => exact kept.erase holds h
  | eraseChildren h => exact kept.eraseChildren holds h
  | sortBy first last cmp => exact kept.sortBy holds first last cmp
  | sortChildrenBy h cmp => exact kept.sortChildrenBy holds h cmp
  | sortChildren h => exact kept.sortChildrenBy holds h compare

@[simp] theorem Tree.policy_perform (t : Tree α) (e : Edit (Tree α) α) :
    (t.perform e).tree.policy = t.policy := by
  cases resets : e.resets with
  | false =>
    apply (keptByPruning_policy t.policy).perform resets
    exact (keptByBuilding_policy t.policy).built rfl e
  | true =>
    cases e with
    | setRoot | clear => rfl
    | _ => cases resets

/-! ## Sessions -/

/-- The trees made so far, and the names left for arenas. -/
structure Session (α : Type) where
  owners : Owners
  trees : List (Tree α)

/-- One public operation. Trees are named by the order in which they were made. -/
inductive Request (α : Type) where
  | withPolicy (policy : Policy α)
  | withCapacity (policy : Policy α) (capacity : Nat)
  | withRoot (x : α) (policy : Policy α)
  | clone (source : Nat)
  | extract (source : Nat) (h : Handle) (policy : Policy α)
  | edit (target : Nat) (e : Edit Nat α)

namespace Session

def start : Session α := ⟨.start, []⟩

def add (s : Session α) (made : Tree α × Owners) : Session α := ⟨made.2, s.trees ++ [made.1]⟩

/-- What a request makes of the session. One that names no tree changes nothing, and a failed
extraction adds none. -/
def step (s : Session α) : Request α → Session α
  | .withPolicy policy => s.add (Tree.withPolicy policy s.owners)
  | .withCapacity policy capacity => s.add (Tree.withCapacity policy capacity s.owners)
  | .withRoot x policy => s.add (Tree.withRoot x policy s.owners)
  | .clone source =>
    match s.trees[source]? with
    | some t => s.add (t.clone s.owners)
    | none => s
  | .extract source h policy =>
    match s.trees[source]? with
    | some t =>
      match t.extract h policy s.owners with
      | (.done t, owners) => s.add (t, owners)
      | (_, owners) => { s with owners }
    | none => s
  | .edit target e =>
    match s.trees[target]?, e.resolve (s.trees[·]?) with
    | some t, some e => { s with trees := s.trees.set target (t.perform e).tree }
    | _, _ => s

def run (requests : List (Request α)) : Session α := requests.foldl step start

theorem run_concat (requests : List (Request α)) (r : Request α) :
    run (requests ++ [r]) = (run requests).step r := List.foldl_append

end Session

/-- The edits that a request performs, each with the number of its tree and the tree as it is
before. -/
inductive Session.Performs (s : Session α) : Nat → Request α → Tree α → Edit (Tree α) α → Prop where
  | withRoot (x : α) (policy : Policy α) :
      Performs s s.trees.length (.withRoot x policy) (Tree.withPolicy policy s.owners).1
        (.setRoot x)
  | edit {target : Nat} {e : Edit Nat α} {t : Tree α} {e' : Edit (Tree α) α}
      (stands : s.trees[target]? = some t) (resolved : e.resolve (s.trees[·]?) = some e') :
      Performs s target (.edit target e) t e'

/-- The tree stands in some session after finitely many operations. -/
def Tree.Reachable (t : Tree α) : Prop := ∃ requests, t ∈ (Session.run requests).trees

/-- A root with two children, the greater one inserted first. -/
def Tree.sample (policy : Policy Nat) : Tree Nat :=
  (((Tree.withRoot 5 policy .start).1.insert ⟨1, 0, 0⟩ 7).tree.insert ⟨1, 0, 0⟩ 2).tree

theorem Tree.reachable_sample (policy : Policy Nat) : (Tree.sample policy).Reachable :=
  ⟨[.withRoot 5 policy, .edit 0 (.insert ⟨1, 0, 0⟩ 7), .edit 0 (.insert ⟨1, 0, 0⟩ 2)],
    List.mem_singleton.mpr rfl⟩

@[simp] theorem Tree.policy_sample (policy : Policy Nat) :
    (Tree.sample policy).policy = policy := by
  simp [sample, withRoot, withPolicy, withCapacity, setRoot]

/-! ## One request -/

namespace Session

variable {s : Session α} {r : Request α} {i : Nat} {t : Tree α}

/-- What may have the number `i` after a request: the tree that had it before, a new tree, which may
have become a copy, and what an edit makes of a tree. -/
inductive Leaves (s : Session α) (r : Request α) (i : Nat) : Tree α → Prop where
  | kept {t : Tree α} (stands : s.trees[i]? = some t) : Leaves s r i t
  | created (policy : Policy α) (capacity : Nat) (owners : Owners) :
      Leaves s r i (Tree.withCapacity policy capacity owners).1
  | copied (policy : Policy α) (capacity : Nat) (owners : Owners) (source : Tree α) (h : Handle)
      (x : α) :
      Leaves s r i ((Tree.withCapacity policy capacity owners).1.becomeCopy source h x).tree
  | performed {t : Tree α} {e : Edit (Tree α) α} (performs : s.Performs i r t e) :
      Leaves s r i (t.perform e).tree

theorem getElem?_add {made : Tree α × Owners} (stands : (s.add made).trees[i]? = some t) :
    s.trees[i]? = some t ∨ i = s.trees.length ∧ t = made.1 := by
  rw [add, List.getElem?_append] at stands
  split at stands
  · exact .inl stands
  · obtain ⟨last, rfl⟩ := List.getElem?_eq_some_iff.mp stands
    rw [List.length_singleton] at last
    exact .inr ⟨by omega, List.getElem_singleton _⟩

/-- A request leaves the trees as they are, adds one, or edits one. -/
theorem step_cases (s : Session α) (r : Request α) :
    (s.step r).trees = s.trees ∨
      (∃ made, s.step r = s.add made ∧ s.Leaves r s.trees.length made.1) ∨
      ∃ i t e, s.trees[i]? = some t ∧ s.Performs i r t e ∧
        (s.step r).trees = s.trees.set i (t.perform e).tree := by
  cases r with
  | withPolicy policy => exact .inr (.inl ⟨_, rfl, .created ..⟩)
  | withCapacity policy capacity => exact .inr (.inl ⟨_, rfl, .created ..⟩)
  | withRoot x policy => exact .inr (.inl ⟨_, rfl, .performed (.withRoot x policy)⟩)
  | clone source =>
    rw [step]
    split
    case h_2 => exact .inl rfl
    case h_1 t _ =>
      refine .inr (.inl ⟨_, rfl, ?_⟩)
      unfold Tree.clone
      dsimp only
      split
      · exact .created ..
      · exact .copied ..
  | extract source h policy =>
    rw [step]
    split
    case h_2 => exact .inl rfl
    case h_1 t _ =>
      unfold Tree.extract
      cases t.value h with
      | error e => exact .inl rfl
      | ok x =>
        dsimp only
        cases ended : ((Tree.withPolicy policy s.owners).1.becomeCopy t h x).outcome with
        | refused e => exact .inl rfl
        | halted => exact .inl rfl
        | done n => exact .inr (.inl ⟨_, rfl, .copied ..⟩)
  | edit target e =>
    rw [step]
    split
    case h_2 => exact .inl rfl
    case h_1 t e' stands resolved =>
      exact .inr (.inr ⟨target, t, e', stands, .edit stands resolved, rfl⟩)

/-- No request leaves anything else under a number. -/
theorem leaves_of_step (stands : (s.step r).trees[i]? = some t) : s.Leaves r i t := by
  rcases s.step_cases r with same | ⟨made, added, leaves⟩ | ⟨j, u, e, before, performs, edited⟩
  · exact .kept (same ▸ stands)
  · rw [added] at stands
    rcases getElem?_add stands with before | ⟨rfl, rfl⟩
    · exact .kept before
    · exact leaves
  · rw [edited] at stands
    by_cases same : j = i
    · subst same
      rw [List.getElem?_set_self (List.getElem?_eq_some_iff.mp before).1] at stands
      cases stands
      exact .performed performs
    · rw [List.getElem?_set_ne same] at stands
      exact .kept stands

/-- The tree that an edit makes has the number of the tree that it was performed on. -/
theorem Performs.stands {e : Edit (Tree α) α} (performs : s.Performs i r t e) :
    (s.step r).trees[i]? = some (t.perform e).tree := by
  cases performs with
  | withRoot x policy => exact List.getElem?_concat_length
  | edit before resolved =>
    rw [step, before, resolved]
    exact List.getElem?_set_self (List.getElem?_eq_some_iff.mp before).1

/-- Trees keep their numbers and their policies. -/
theorem exists_after (stands : s.trees[i]? = some t) (r : Request α) :
    ∃ t', (s.step r).trees[i]? = some t' ∧ t'.policy = t.policy := by
  have inside := (List.getElem?_eq_some_iff.mp stands).1
  rcases s.step_cases r with same | ⟨made, added, -⟩ | ⟨j, u, e, before, -, edited⟩
  · exact ⟨t, same ▸ stands, rfl⟩
  · rw [added]
    exact ⟨t, (List.getElem?_append_left inside).trans stands, rfl⟩
  · rw [edited]
    by_cases same : j = i
    · subst same
      obtain rfl := Option.some.inj (before.symm.trans stands)
      exact ⟨_, List.getElem?_set_self inside, Tree.policy_perform ..⟩
    · exact ⟨t, (List.getElem?_set_ne same).trans stands, rfl⟩

end Session

theorem Tree.Reachable.insert {t : Tree α} (reached : t.Reachable) (p : Handle) (x : α) :
    (t.insert p x).tree.Reachable := by
  obtain ⟨requests, mem⟩ := reached
  obtain ⟨i, stands⟩ := List.mem_iff_getElem?.mp mem
  refine ⟨requests ++ [.edit i (.insert p x)], ?_⟩
  have performs : (Session.run requests).Performs i (.edit i (.insert p x)) t (.insert p x) :=
    .edit stands rfl
  rw [Session.run_concat]
  exact List.mem_of_getElem? performs.stands

/-- The sample with two children below 7, again the greater one inserted first. -/
def Tree.sampleDeep (policy : Policy Nat) : Tree Nat :=
  (((Tree.sample policy).insert ⟨1, 1, 0⟩ 13).tree.insert ⟨1, 1, 0⟩ 9).tree

theorem Tree.reachable_sampleDeep (policy : Policy Nat) : (Tree.sampleDeep policy).Reachable :=
  ((reachable_sample policy).insert ..).insert ..

@[simp] theorem Tree.policy_sampleDeep (policy : Policy Nat) :
    (Tree.sampleDeep policy).policy = policy := by
  simp [sampleDeep]

/-! ## Induction over runs -/

section Induction

variable {P : Tree α → Prop}

/-- What holds of new trees, and is kept by edits and by becoming a copy, holds of all trees of a
run. -/
theorem Session.forall_mem_run
    (created : ∀ policy capacity owners, P (Tree.withCapacity policy capacity owners).1)
    (performed : ∀ t e, P t → P (t.perform e).tree)
    (copied : ∀ t source h x, P t → P (t.becomeCopy source h x).tree)
    (requests : List (Request α)) : ∀ t ∈ (run requests).trees, P t := by
  unfold run
  apply List.foldlRecOn requests step (motive := fun s => ∀ t ∈ s.trees, P t)
  · exact List.forall_mem_nil _
  · intro s before r _ t mem
    obtain ⟨i, stands⟩ := List.mem_iff_getElem?.mp mem
    cases leaves_of_step stands with
    | kept stands => exact before t (List.mem_of_getElem? stands)
    | created => exact created ..
    | copied => exact copied _ _ _ _ (created ..)
    | performed performs =>
      cases performs with
      | withRoot x policy => exact performed _ _ (created ..)
      | edit stands => exact performed _ _ (before _ (List.mem_of_getElem? stands))

theorem Tree.Reachable.induct {t : Tree α} (reached : t.Reachable)
    (created : ∀ policy capacity owners, P (Tree.withCapacity policy capacity owners).1)
    (performed : ∀ t e, P t → P (t.perform e).tree)
    (copied : ∀ t source h x, P t → P (t.becomeCopy source h x).tree) : P t := by
  obtain ⟨requests, mem⟩ := reached
  exact Session.forall_mem_run created performed copied requests t mem

end Induction

end PolicyTree
