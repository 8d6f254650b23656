import PolicyTree.Proofs.Tree.Counterparts
import PolicyTree.Proofs.Tree.History

/-! Trees with the same outline cannot be told apart by requests that name nodes by their places. -/

namespace PolicyTree

open Forest

variable {α : Type} {σ : Handle → Handle}

/-! ## Requests by place -/

/-- A request that names the nodes of the tree by their places in the pre-order listing. -/
inductive Command (α : Type) where
  | setRoot (x : α)
  | clear
  | insert (parent : Nat) (x : α)
  | replaceValue (place : Nat) (x : α)
  | replaceSubtree (place : Nat) (source : Tree α)
  | replaceWithSubtree (place : Nat) (source : Tree α) (sourceNode : Handle)
  | erase (place : Nat)
  | eraseChildren (place : Nat)
  | sortBy (first : Nat) (last : Option Nat) (cmp : α → α → Ordering)
  | sortChildrenBy (place : Nat) (cmp : α → α → Ordering)
  | find (target : α)

namespace Command

/-- The edit that the request stands for where `hs` are listed; none if a place is past the end. -/
def edit? (hs : List Handle) : Command α → Option (Edit (Tree α) α)
  | setRoot x => some (.setRoot x)
  | clear => some .clear
  | insert i x => hs[i]?.map (.insert · x)
  | replaceValue i x => hs[i]?.map (.replaceValue · x)
  | replaceSubtree i source => hs[i]?.map (.replaceSubtree · source)
  | replaceWithSubtree i source k => hs[i]?.map (.replaceWithSubtree · source k)
  | erase i => hs[i]?.map .erase
  | eraseChildren i => hs[i]?.map .eraseChildren
  | sortBy i none cmp => hs[i]?.map (.sortBy · none cmp)
  | sortBy i (some j) cmp =>
    hs[i]?.bind fun first => hs[j]?.map fun last => .sortBy first (some last) cmp
  | sortChildrenBy i cmp => hs[i]?.map (.sortChildrenBy · cmp)
  | find _ => none

/-- The nodes that the request copies from another tree. -/
def copied : Command α → Set Handle
  | replaceSubtree _ source => {h | ∃ r ∈ source.root, h ∈ source.subtree r}
  | replaceWithSubtree _ source sourceNode => source.subtree sourceNode
  | _ => ∅

variable {c : Command α} {hs : List Handle} {e : Edit (Tree α) α}

/-- The same request stands for the same edit, at other handles. -/
theorem edit?_map (hs : List Handle) (c : Command α) (σ : Handle → Handle) :
    c.edit? (hs.map σ) = (c.edit? hs).map (Edit.rename σ) := by
  cases c with
  | sortBy i last cmp =>
    cases last with
    | none => simp [edit?, Edit.rename, Function.comp_def]
    | some j =>
      rw [edit?, edit?, List.getElem?_map, List.getElem?_map]
      cases hs[i]? <;> cases hs[j]? <;> rfl
  | _ => simp [edit?, Edit.rename, Function.comp_def]

theorem known_of_edit? {f : Forest α} (stands : c.edit? f.handles = some e) : e.Known f := by
  cases c with
  | setRoot | clear =>
    cases stands
    trivial
  | find => cases stands
  | sortBy i last cmp =>
    cases last with
    | none =>
      obtain ⟨h, here, rfl⟩ := Option.map_eq_some_iff.mp stands
      exact ⟨List.mem_of_getElem? here, nofun⟩
    | some j =>
      obtain ⟨h, here, stands⟩ := Option.bind_eq_some_iff.mp stands
      obtain ⟨k, there, rfl⟩ := Option.map_eq_some_iff.mp stands
      refine ⟨List.mem_of_getElem? here, fun m same => ?_⟩
      cases same
      exact List.mem_of_getElem? there
  | _ =>
    obtain ⟨h, here, rfl⟩ := Option.map_eq_some_iff.mp stands
    exact List.mem_of_getElem? here

theorem copied_of_edit? (stands : c.edit? hs = some e) : e.copied = c.copied := by
  cases c with
  | setRoot | clear =>
    cases stands
    rfl
  | find => cases stands
  | sortBy i last cmp =>
    cases last with
    | none =>
      obtain ⟨h, -, rfl⟩ := Option.map_eq_some_iff.mp stands
      rfl
    | some j =>
      obtain ⟨h, -, stands⟩ := Option.bind_eq_some_iff.mp stands
      obtain ⟨k, -, rfl⟩ := Option.map_eq_some_iff.mp stands
      rfl
  | _ =>
    obtain ⟨h, -, rfl⟩ := Option.map_eq_some_iff.mp stands
    rfl

end Command

namespace Tree

variable {t u : Tree α} {f : Forest α} {c : Command α} {e : Edit (Tree α) α}

/-- What the request finds if it is a lookup. -/
def lookUp (t : Tree α) : Command α → Option (Answer α)
  | .find target => (t.find target).map .handle
  | _ => none

/-- A request for an edit at a place where no node is listed is passed over. -/
def obey (t : Tree α) (c : Command α) : Reply α (Option (Answer α)) :=
  match c.edit? t.handles with
  | some e => (t.perform e).map some
  | none => t.answer (t.lookUp c)

def obeyAll (t : Tree α) (cs : List (Command α)) : Tree α :=
  cs.foldl (fun t c => (t.obey c).tree) t

/-- The depths and values in pre-order. -/
def outline (t : Tree α) : List (Nat × α) := t.preOrder.map fun v => (v.depth, v.value)

/-- The nodes `h` of `t` and `k` of `u` stand at the same place of the pre-order listings. -/
def Opposite (t u : Tree α) (h k : Handle) : Prop :=
  ∃ i : Nat, t.handles[i]? = some h ∧ u.handles[i]? = some k

@[simp] theorem policy_obey (t : Tree α) (c : Command α) : (t.obey c).tree.policy = t.policy := by
  rw [obey]
  split
  · exact policy_perform ..
  · rfl

/-! ## One request -/

theorem Shows.outline_eq (shows : t.Shows f) : t.outline = f.outline 0 := by
  rw [Tree.outline, shows.preOrder_eq, Forest.outline]

theorem Shows.opposite (shows : t.Shows f) (shown : u.Shows (f.rename σ)) {h k : Handle}
    (names : f.Names σ h k) : t.Opposite u h k := by
  obtain ⟨live, rfl⟩ := names
  obtain ⟨i, place⟩ := List.mem_iff_getElem?.mp live
  refine ⟨i, ?_, ?_⟩
  · rw [shows.handles_eq, place]
  · rw [shown.handles_eq, handles_rename, List.getElem?_map, place, Option.map_some]

/-- The same request is answered alike by two trees that show the same forest, and they still do. -/
theorem Shows.obey_alike (shows : t.Shows f) (shown : u.Shows (f.rename σ))
    (same : u.policy = t.policy) (inRange : t.policy.InRange) (c : Command α) :
    ∃ f' σ', (t.obey c).tree.Shows f' ∧ (u.obey c).tree.Shows (f'.rename σ') ∧
      Outcome.Alike (TreeError.Alike (f.Names σ) (· ∈ c.copied))
        (Option.Rel (Answer.Alike (f'.Names σ'))) (t.obey c).outcome (u.obey c).outcome := by
  have listed : u.handles = t.handles.map σ := by
    rw [shown.handles_eq, handles_rename, shows.handles_eq]
  rw [obey, obey, listed, Command.edit?_map]
  cases stands : c.edit? t.handles with
  | some e =>
    rw [Option.map_some, ← Command.copied_of_edit? stands]
    rw [shows.handles_eq] at stands
    obtain ⟨f', σ', left, right, alike⟩ :=
      shows.matched_perform shown same inRange (Command.known_of_edit? stands)
    exact ⟨f', σ', left, right, alike.map fun _ _ => .some⟩
  | none =>
    refine ⟨f, σ, shows, shown, .done ?_⟩
    cases c with
    | find target =>
      rw [lookUp, lookUp, shows.find_rename shown same]
      cases found : t.find target with
      | none => exact .none
      | some h => exact .some (.handle ⟨shows.mem_of_find found, rfl⟩)
    | _ => exact .none

/-! ## Runs of requests -/

/-- Through a run of requests two trees that show the same forest go on doing so. -/
theorem Shows.obeyAll_alike (shows : t.Shows f) (shown : u.Shows (f.rename σ))
    (same : u.policy = t.policy) (inRange : t.policy.InRange) (cs : List (Command α)) :
    ∃ f' σ', (t.obeyAll cs).Shows f' ∧ (u.obeyAll cs).Shows (f'.rename σ') ∧
      (u.obeyAll cs).policy = (t.obeyAll cs).policy ∧ (t.obeyAll cs).policy = t.policy := by
  induction cs generalizing t u f σ with
  | nil => exact ⟨f, σ, shows, shown, same, rfl⟩
  | cons c cs ih =>
    obtain ⟨f', σ', left, right, -⟩ := shows.obey_alike shown same inRange c
    obtain ⟨f'', σ'', last, last', policies, policy⟩ := ih left right
      (by rw [policy_obey, policy_obey, same]) (by rwa [policy_obey])
    exact ⟨f'', σ'', last, last', policies, policy.trans (policy_obey t c)⟩

/-- Two reachable trees under one built-in policy that list the same values at the same depths answer
every run of requests alike, whatever led to them and however their arenas look: each request succeeds
in both or fails in both for the same reason, answers and errors name nodes at the same places, or the
same node of the tree that is copied from, and the trees list the same values at the same depths in
the end. -/
theorem Reachable.indistinguishable (reached : t.Reachable) (reached' : u.Reachable)
    (builtIn : t.policy.BuiltIn) (same : u.policy = t.policy) (outline : u.outline = t.outline)
    (cs : List (Command α)) :
    (u.obeyAll cs).outline = (t.obeyAll cs).outline ∧
      ∀ c, Outcome.Alike
        (TreeError.Alike ((t.obeyAll cs).Opposite (u.obeyAll cs)) (· ∈ c.copied))
        (Option.Rel (Answer.Alike
          (((t.obeyAll cs).obey c).tree.Opposite ((u.obeyAll cs).obey c).tree)))
        ((t.obeyAll cs).obey c).outcome ((u.obeyAll cs).obey c).outcome := by
  obtain ⟨f, shows, -⟩ := reached.exists_forest builtIn.inRange
  obtain ⟨g, shown, -⟩ := reached'.exists_forest (same ▸ builtIn.inRange)
  rw [shows.outline_eq, shown.outline_eq] at outline
  obtain ⟨similar, -⟩ := similar_of_outline (f := f) (g := g) (l := []) (m := []) nofun nofun
    (by rw [outline])
  obtain ⟨σ, rfl⟩ := similar.exists_rename shows.nodup
  obtain ⟨f', σ', left, right, policies, policy⟩ :=
    shows.obeyAll_alike shown same builtIn.inRange cs
  refine ⟨by rw [right.outline_eq, left.outline_eq, outline_rename], fun c => ?_⟩
  obtain ⟨f'', σ'', left', right', alike⟩ :=
    left.obey_alike right policies (policy.symm ▸ builtIn.inRange) c
  refine alike.mono (fun _ _ same => same.mono fun _ _ => left.opposite right) ?_
  rintro _ _ (same | _)
  · exact .some (same.mono fun _ _ => left'.opposite right')
  · exact .none

/-- The nodes of `Tree.sample` in the second arena made, one of them in a slot that was used before. -/
def sampleAnew (policy : Policy Nat) : Tree Nat :=
  (Tree.withRoot 5 policy ⟨2⟩).1.performAll
    [.insert ⟨2, 0, 0⟩ 3, .erase ⟨2, 1, 0⟩, .insert ⟨2, 0, 0⟩ 7, .insert ⟨2, 0, 0⟩ 2]

theorem reachable_sampleAnew (policy : Policy Nat) : (sampleAnew policy).Reachable :=
  ⟨[.withRoot 0 policy, .withRoot 5 policy, .edit 1 (.insert ⟨2, 0, 0⟩ 3),
      .edit 1 (.erase ⟨2, 1, 0⟩), .edit 1 (.insert ⟨2, 0, 0⟩ 7), .edit 1 (.insert ⟨2, 0, 0⟩ 2)],
    List.mem_cons_of_mem _ (List.mem_singleton.mpr rfl)⟩

/-- An insertion below the second node, then an erasure of the fourth. -/
theorem indistinguishable_sample :
    (Tree.sample .naturalOrder).handles = [⟨1, 0, 0⟩, ⟨1, 2, 0⟩, ⟨1, 1, 0⟩] ∧
      (sampleAnew .naturalOrder).handles = [⟨2, 0, 0⟩, ⟨2, 2, 0⟩, ⟨2, 1, 1⟩] ∧
      (sampleAnew .naturalOrder).outline = (Tree.sample .naturalOrder).outline ∧
      ((sampleAnew .naturalOrder).obeyAll [.insert 1 8, .erase 3]).outline =
        ((Tree.sample .naturalOrder).obeyAll [.insert 1 8, .erase 3]).outline ∧
      ((Tree.sample .naturalOrder).obeyAll [.insert 1 8, .erase 3]).outline =
        [(0, 5), (1, 2), (2, 8)] := by
  have builtIn : (Tree.sample .naturalOrder).policy.BuiltIn := by
    rw [policy_sample]
    exact .keyed (.searching .naturalOrder)
  have policy : (sampleAnew .naturalOrder).policy = (Tree.sample .naturalOrder).policy := by
    rw [policy_sample, sampleAnew, policy_performAll]
    rfl
  have outline : (sampleAnew .naturalOrder).outline = (Tree.sample .naturalOrder).outline := by
    decide +kernel
  have spec := (reachable_sample .naturalOrder).indistinguishable
    (reachable_sampleAnew .naturalOrder) builtIn policy outline [.insert 1 8, .erase 3]
  exact ⟨by decide +kernel, by decide +kernel, outline, spec.1, by decide +kernel⟩

end Tree

end PolicyTree
