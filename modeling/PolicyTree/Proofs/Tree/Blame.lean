import PolicyTree.Proofs.Tree.Overrun

/-! Which handle a call blames when it is given one that is not live. -/

namespace PolicyTree

variable {α β : Type}

/-- The handles that the edit is given, each with the tree that it is meant for. -/
def Edit.uses (t : Tree α) : Edit (Tree α) α → List (Tree α × Handle)
  | setRoot _ | clear => []
  | replaceWithSubtree h source sourceNode => [(t, h), (source, sourceNode)]
  | sortBy first last _ => (t, first) :: last.toList.map fun h => (t, h)
  | insert h _ | replaceValue h _ | replaceSubtree h _ | erase h | eraseChildren h
  | sortChildrenBy h _ => [(t, h)]
  | @sortChildren _ _ _ h => [(t, h)]

/-- The error that the edit ends with before it looks at all its handles: an empty source is met
before any of them, and a root as the lower bound of a range before the upper one. -/
def Edit.early? (t : Tree α) : Edit (Tree α) α → Option TreeError
  | replaceSubtree _ source => if source.root.isNone then some .emptyTree else none
  | sortBy first (some _) _ =>
    match t.parent first with
    | .ok none => some .rootHasNoSiblings
    | _ => none
  | _ => none

namespace Call

/-- The handles that the call is given, each with the tree that it is meant for. -/
def uses (t : Tree α) : Call α β → List (Tree α × Handle)
  | edit e => e.uses t
  | extract h _ _ | value h | parent h | children h | childCount h | isLeaf h | depth h
  | ancestors h | childrenOf h | preOrderFrom h | leavesFrom h => [(t, h)]
  | clone _ | find _ | findItem _ | check => []

def early? (t : Tree α) : Call α β → Option TreeError
  | edit e => e.early? t
  | _ => none

end Call

namespace Tree

variable {γ : Type} {t source : Tree α} {h k : Handle}

/-! ## Questions -/

/-- The question fails if `h` is dead, and names it then. -/
def Demands (t : Tree α) (h : Handle) (question : Except TreeError γ) : Prop :=
  ¬t.contains h = true → question = .error (.invalidHandle h)

theorem demands_node (t : Tree α) (h : Handle) : t.Demands h (t.node h) := by
  intro dead
  rw [node, node?, Arena.not_contains_iff.mp dead]

theorem Demands.map {question : Except TreeError γ} (demands : t.Demands h question) (f : γ → β) :
    t.Demands h (question.map f) := by
  intro dead
  rw [demands dead]
  rfl

theorem demands_slotInParent (t : Tree α) (h : Handle) : t.Demands h (t.slotInParent h) :=
  fun dead => slotInParent_of_dead (Arena.not_contains_iff.mp dead)

theorem extract_of_dead (dead : ¬t.contains h = true) (policy : Policy α) (owners : Owners) :
    t.extract h policy owners = (.refused (.invalidHandle h), owners) := by
  rw [extract, value, demands_node t h dead]
  rfl

/-! ## Places among siblings -/

/-- Some live node has a place that cannot be told, for the reason `e`. -/
def Misplaces (t : Tree α) (e : TreeError) : Prop :=
  ∃ h, t.contains h = true ∧ t.slotInParent h = .error e

theorem Shows.not_misplaces {f : Forest α} (shows : t.Shows f) (e : TreeError) :
    ¬t.Misplaces e := by
  rintro ⟨h, live, failed⟩
  exact (shows.needs_slotInParent h e failed).2 live

/-- A dead handle is located nowhere, a live one where it stands unless the tree misplaces it. -/
theorem slotInParent_cases (t : Tree α) (h : Handle) :
    (¬t.contains h = true ∧ t.slotInParent h = .error (.invalidHandle h)) ∨
      t.contains h = true ∧ ((∃ e, t.Misplaces e ∧ t.slotInParent h = .error e) ∨
        ∃ slot, t.slotInParent h = .ok slot) := by
  by_cases live : t.contains h = true
  · refine .inr ⟨live, ?_⟩
    cases located : t.slotInParent h with
    | error e => exact .inl ⟨e, ⟨h, live, located⟩, rfl⟩
    | ok slot => exact .inr ⟨slot, rfl⟩
  · exact .inl ⟨live, t.demands_slotInParent h live⟩

/-- What is located without a list is a root. -/
theorem slotInParent_eq_none_iff : t.slotInParent h = .ok none ↔ t.parent h = .ok none := by
  unfold slotInParent parent
  cases t.node h with
  | error e => exact iff_of_false (by simp [bind, Except.bind]) (by simp [Except.map])
  | ok n =>
    simp only [bind, Except.bind, Except.map, Except.ok.injEq]
    cases n.parent with
    | none => exact iff_of_true rfl rfl
    | some p =>
      refine iff_of_false ?_ (by simp)
      dsimp only
      split
      · exact nofun
      · split <;> exact nofun

/-! ## Edits -/

/-- The reply is the refusal of one of the handles, which is not live where it is meant for. -/
def Blames (t : Tree α) (uses : List (Tree α × Handle)) (r : Reply α β) : Prop :=
  ∃ u ∈ uses, ¬u.1.contains u.2 = true ∧ r = t.refuse (.invalidHandle u.2)

variable {uses : List (Tree α × Handle)}

theorem Blames.map {r : Reply α β} (blames : t.Blames uses r) (f : β → γ) :
    t.Blames uses (r.map f) := by
  obtain ⟨u, used, dead, rfl⟩ := blames
  exact ⟨u, used, dead, rfl⟩

/-- Without an early error a call that is given a dead handle ends in one of two ways. -/
theorem refuse_late {r : Reply α β} {early : Option TreeError} (calm : early = none)
    (ends : t.Blames uses r ∨ ∃ err, t.Misplaces err ∧ r = t.refuse err) :
    (∀ err, early = some err → r = t.refuse err) ∧
      (early = none → t.Blames uses r ∨ ∃ err, t.Misplaces err ∧ r = t.refuse err) := by
  refine ⟨fun err there => ?_, fun _ => ends⟩
  rw [calm] at there
  cases there

theorem blames_require {question : Except TreeError γ} (demands : t.Demands h question)
    (dead : ¬t.contains h = true) (used : (t, h) ∈ uses) (next : γ → Reply α β) :
    t.Blames uses (t.require question next) := by
  refine ⟨(t, h), used, dead, ?_⟩
  rw [demands dead, require_error]

/-- Of the two handles of a substitution the one in this tree is looked at first. -/
theorem replaceWithSubtree_of_dead
    (dead : ¬(t.contains h = true ∧ source.contains k = true)) :
    t.Blames [(t, h), (source, k)] (t.replaceWithSubtree h source k) ∨
      ∃ e, t.Misplaces e ∧ t.replaceWithSubtree h source k = t.refuse e := by
  rw [replaceWithSubtree]
  rcases t.slotInParent_cases h with ⟨gone, nowhere⟩ | ⟨live, ⟨e, lost, failed⟩ | ⟨slot, located⟩⟩
  · exact .inl (blames_require (t.demands_slotInParent h) gone (by simp) _)
  · right
    rw [failed]
    exact ⟨e, lost, rfl⟩
  · left
    have gone : ¬source.contains k = true := fun there => dead ⟨live, there⟩
    rw [located, require_ok, value, source.demands_node k gone]
    exact ⟨(source, k), by simp, gone, rfl⟩

/-- The first handle of a range is located before the last one is looked at, which does not happen
at all if the first one is a root. -/
theorem sortBy_of_dead {last : Option Handle} {cmp : α → α → Ordering}
    (dead : ¬(t.contains h = true ∧ ∀ k ∈ last, t.contains k = true)) :
    (t.parent h = .ok none ∧ (∃ k, last = some k) ∧
        t.sortBy h last cmp = t.refuse .rootHasNoSiblings) ∨
      ¬t.parent h = .ok none ∧
        (t.Blames ((t, h) :: last.toList.map fun k => (t, k)) (t.sortBy h last cmp) ∨
          ∃ e, t.Misplaces e ∧ t.sortBy h last cmp = t.refuse e) := by
  rw [← slotInParent_eq_none_iff, sortBy]
  rcases t.slotInParent_cases h with ⟨gone, nowhere⟩ | ⟨live, ⟨e, lost, failed⟩ | ⟨slot, located⟩⟩
  · refine .inr ⟨?_, .inl (blames_require (t.demands_slotInParent h) gone (by simp) _)⟩
    simp [nowhere]
  · right
    rw [failed]
    exact ⟨by simp, .inr ⟨e, lost, rfl⟩⟩
  · obtain ⟨k, rfl, gone⟩ : ∃ k, last = some k ∧ ¬t.contains k = true := by
      by_contra none
      exact dead ⟨live, fun k given => by_contra fun gone => none ⟨k, given, gone⟩⟩
    rw [located, require_ok]
    cases slot with
    | none =>
      have other : k ≠ h := fun same => gone (same ▸ live)
      refine .inl ⟨rfl, ⟨k, rfl⟩, ?_⟩
      show t.require (checkRootRange h (some k)) _ = _
      rw [checkRootRange, if_neg other, require_error]
    | some place =>
      refine .inr ⟨by simp, .inl ⟨(t, k), by simp, gone, ?_⟩⟩
      show t.require (t.rangeEnd place.1 h (some k)) _ = _
      rw [rangeEnd, t.demands_slotInParent k gone]
      rfl

/-- An edit that is given a dead handle is refused: with its early error if it has one, otherwise by
name, or for a live node that the tree misplaces. -/
theorem perform_of_dead {e : Edit (Tree α) α} (dead : ¬e.Live t) :
    (∀ err, e.early? t = some err → t.perform e = t.refuse err) ∧
      (e.early? t = none → t.Blames (e.uses t) (t.perform e) ∨
        ∃ err, t.Misplaces err ∧ t.perform e = t.refuse err) := by
  cases e with
  | setRoot x => exact absurd trivial dead
  | clear => exact absurd trivial dead
  | insert p x =>
    refine refuse_late rfl (.inl (Blames.map ?_ _))
    exact blames_require (t.demands_node p) dead (by simp [Edit.uses]) _
  | replaceValue h x =>
    refine refuse_late rfl (.inl (Blames.map ?_ _))
    exact blames_require (t.demands_slotInParent h) dead (by simp [Edit.uses]) _
  | replaceSubtree h source =>
    rw [Tree.perform, replaceSubtree, Edit.early?]
    cases source.root with
    | none =>
      refine ⟨?_, by simp⟩
      rintro _ ⟨⟩
      rfl
    | some k =>
      refine refuse_late rfl (.inl (Blames.map ?_ _))
      exact blames_require (t.demands_slotInParent h) dead (by simp [Edit.uses]) _
  | replaceWithSubtree h source k =>
    refine refuse_late rfl ?_
    rcases replaceWithSubtree_of_dead dead with blames | ⟨err, lost, failed⟩
    · exact .inl (blames.map _)
    · refine .inr ⟨err, lost, ?_⟩
      rw [Tree.perform, failed]
      rfl
  | erase h =>
    refine refuse_late rfl (.inl (Blames.map ?_ _))
    exact blames_require (t.demands_slotInParent h) dead (by simp [Edit.uses]) _
  | eraseChildren h =>
    refine refuse_late rfl (.inl (Blames.map ?_ _))
    exact blames_require (t.demands_node h) dead (by simp [Edit.uses]) _
  | sortBy first last cmp =>
    rcases sortBy_of_dead dead with ⟨top, ⟨k, rfl⟩, refused⟩ | ⟨below, ends⟩
    · rw [Edit.early?, top, Tree.perform, refused]
      refine ⟨?_, by simp⟩
      rintro _ ⟨⟩
      rfl
    · have calm : (Edit.sortBy first last cmp).early? t = none := by
        cases last with
        | none => rfl
        | some k =>
          rw [Edit.early?]
          split
          · contradiction
          · rfl
      refine refuse_late calm ?_
      rcases ends with blames | ⟨err, lost, failed⟩
      · exact .inl (blames.map _)
      · refine .inr ⟨err, lost, ?_⟩
        rw [Tree.perform, failed]
        rfl
  | sortChildrenBy h cmp =>
    refine refuse_late rfl (.inl (Blames.map ?_ _))
    exact blames_require ((t.demands_node h).map _) dead (by simp [Edit.uses]) _
  | sortChildren h =>
    refine refuse_late rfl (.inl (Blames.map ?_ _))
    exact blames_require ((t.demands_node h).map _) dead (by simp [Edit.uses]) _

/-! ## Calls -/

theorem call_of_dead {c : Call α β} (dead : ¬c.Live t) :
    (∀ err, c.early? t = some err → t.call c = t.refuse err) ∧
      (c.early? t = none → t.Blames (c.uses t) (t.call c) ∨
        ∃ err, t.Misplaces err ∧ t.call c = t.refuse err) := by
  -- A question has one handle, and reads the node of it before anything else.
  have asked : ∀ {γ : Type} {h : Handle} {question : Except TreeError γ}, ¬t.contains h = true →
      t.Demands h question → t.Blames [(t, h)] (t.ask question) :=
    fun gone demands => blames_require demands gone (List.mem_singleton_self _) _
  have needs : ∀ h {γ : Type} (k : Node α → γ), t.Demands h ((t.node h).map k) :=
    fun h _ k => (t.demands_node h).map k
  cases c with
  | edit e => exact perform_of_dead dead
  | clone owners => exact absurd trivial dead
  | find target => exact absurd trivial dead
  | findItem target => exact absurd trivial dead
  | check => exact absurd trivial dead
  | extract h policy owners =>
    refine refuse_late rfl (.inl ⟨(t, h), List.mem_singleton_self _, dead, ?_⟩)
    rw [call, extract_of_dead dead]
    rfl
  | value h => exact refuse_late rfl (.inl (asked dead (needs h _)))
  | parent h => exact refuse_late rfl (.inl (asked dead (needs h _)))
  | children h => exact refuse_late rfl (.inl (asked dead (needs h _)))
  | childCount h => exact refuse_late rfl (.inl (asked dead ((needs h _).map _)))
  | isLeaf h => exact refuse_late rfl (.inl (asked dead ((needs h _).map _)))
  | depth h => exact refuse_late rfl (.inl (asked dead (((needs h _).map _).map _)))
  | ancestors h => exact refuse_late rfl (.inl (asked dead ((needs h _).map _)))
  | childrenOf h => exact refuse_late rfl (.inl (asked dead ((needs h _).map _)))
  | preOrderFrom h => exact refuse_late rfl (.inl (asked dead ((needs h _).map _)))
  | leavesFrom h => exact refuse_late rfl (.inl (asked dead (((needs h _).map _).map _)))

/-- A call that is given a dead handle changes nothing and names one that it was given, unless an
error comes before all handles are looked at. Only a tree on which an edit halted can have lost the
place of a live node, so no reachable one under a policy in range (`Reachable.unhalted`). -/
theorem dead_handle_refused (c : Call α β) (dead : ¬c.Live t) :
    (c.early? t = none → t.Blames (c.uses t) (t.call c) ∨
        ¬t.ReachableUnhalted ∧ ∃ err, t.Misplaces err ∧ t.call c = t.refuse err) ∧
      (∀ err, c.early? t = some err → t.call c = t.refuse err) ∧
      ∀ h policy owners, ¬t.contains h = true →
        t.extract h policy owners = (.refused (.invalidHandle h), owners) := by
  obtain ⟨early, late⟩ := call_of_dead dead
  refine ⟨fun none => ?_, early, fun h policy owners gone => extract_of_dead gone policy owners⟩
  rcases late none with blames | ⟨err, misplaces, failed⟩
  · exact .inl blames
  · refine .inr ⟨fun unhalted => ?_, err, misplaces, failed⟩
    obtain ⟨f, shows⟩ := unhalted.exists_forest
    exact shows.not_misplaces err misplaces

/-- A root with one child, after another child was erased. -/
def pruned : Tree Nat := ((Tree.sample .insertionOrder).erase ⟨1, 1, 0⟩).tree

theorem reachable_pruned : pruned.Reachable :=
  ⟨[.withRoot 5 .insertionOrder, .edit 0 (.insert ⟨1, 0, 0⟩ 7), .edit 0 (.insert ⟨1, 0, 0⟩ 2),
    .edit 0 (.erase ⟨1, 1, 0⟩)], List.mem_singleton.mpr rfl⟩

/-- As the upper bound of a range a dead handle is named below the root, and not noticed at it. -/
theorem dead_handle_refused_sample :
    pruned.contains ⟨1, 1, 0⟩ = false ∧
      pruned.Blames [(pruned, ⟨1, 2, 0⟩), (pruned, ⟨1, 1, 0⟩)]
        (pruned.call (.edit (.sortBy ⟨1, 2, 0⟩ (some ⟨1, 1, 0⟩) compare))) ∧
      pruned.call (.edit (.sortBy ⟨1, 0, 0⟩ (some ⟨1, 1, 0⟩) compare)) =
        pruned.refuse .rootHasNoSiblings := by
  have gone : pruned.contains ⟨1, 1, 0⟩ = false := by decide +kernel
  have dead : ∀ first, ¬Call.Live pruned (.edit (.sortBy first (some ⟨1, 1, 0⟩) compare)) := by
    rintro first ⟨-, live⟩
    have := live ⟨1, 1, 0⟩ rfl
    rw [gone] at this
    cases this
  have inRange : pruned.policy.InRange := fun keyed => absurd keyed (by decide +kernel)
  refine ⟨gone, ?_, ?_⟩
  · obtain blames | ⟨halted, -⟩ :=
      (dead_handle_refused _ (dead ⟨1, 2, 0⟩)).1 (by decide +kernel)
    · exact blames
    · exact absurd (reachable_pruned.unhalted inRange) halted
  · exact (dead_handle_refused _ (dead ⟨1, 0, 0⟩)).2.1 _ (by decide +kernel)

/-- Two calls do not notice that a handle is dead: a sort from the root up to it, and a replacement
of it by an empty tree. -/
theorem dead_handle_unnoticed :
    pruned.contains ⟨1, 1, 0⟩ = false ∧
      ¬pruned.Blames [(pruned, ⟨1, 0, 0⟩), (pruned, ⟨1, 1, 0⟩)]
        (pruned.call (.edit (.sortBy ⟨1, 0, 0⟩ (some ⟨1, 1, 0⟩) compare))) ∧
      ¬pruned.Blames [(pruned, ⟨1, 1, 0⟩)]
        (pruned.call (.edit (.replaceSubtree ⟨1, 1, 0⟩
          (Tree.withPolicy .insertionOrder ⟨2⟩).1))) := by
  have otherwise : ∀ (e : TreeError) {uses : List (Tree Nat × Handle)}
      {r : Reply Nat (Answer Nat)}, e.isInvalidHandle = false →
      r.outcome.map (fun _ => ()) = .refused e → ¬pruned.Blames uses r := by
    rintro e uses _ other ended ⟨u, -, -, rfl⟩
    cases ended
    cases other
  refine ⟨by decide +kernel, ?_, ?_⟩
  · exact otherwise .rootHasNoSiblings rfl (by decide +kernel)
  · exact otherwise .emptyTree rfl (by decide +kernel)

end Tree

end PolicyTree
