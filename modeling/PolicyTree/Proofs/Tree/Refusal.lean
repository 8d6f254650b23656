import PolicyTree.Proofs.Tree.Edits
import PolicyTree.Proofs.Tree.Wear

/-! A refused edit leaves the tree as it was, a subtree replacement up to free slots. -/

namespace PolicyTree

open Forest

variable {α β γ : Type}

/-! ## Two arenas compared -/

namespace Arena

variable {a b c : Arena α}

/-- The handles that are live in `b` but not in `a`. -/
def added (a b : Arena α) : List Handle := (b.bindings.map Prod.fst).filter (!a.contains ·)

theorem mem_added_iff {h : Handle} :
    h ∈ a.added b ↔ b.contains h = true ∧ ¬a.contains h = true := by
  rw [added, List.mem_filter, ← contains_iff_mem_bindings, Bool.not_eq_true', Bool.not_eq_true]

theorem nodup_added (a b : Arena α) : (a.added b).Nodup := b.nodup_bindings.filter _

theorem Widened.length_added (widened : a.Widened b) (kept : a.Kept) :
    b.len = a.len + (a.added b).length := by
  have old : ((b.bindings.map Prod.fst).filter a.contains).Perm (a.bindings.map Prod.fst) := by
    rw [List.perm_ext_iff_of_nodup (b.nodup_bindings.filter _) a.nodup_bindings]
    intro h
    rw [List.mem_filter, ← contains_iff_mem_bindings, ← contains_iff_mem_bindings]
    exact ⟨And.right, fun live => ⟨widened.contains kept live, live⟩⟩
  have counted := old.length_eq
  rw [List.length_map, ← kept.len_eq] at counted
  have whole := (b.bindings.map Prod.fst).length_eq_length_filter_add a.contains
  rw [List.length_map, ← (widened.kept kept).len_eq, counted] at whole
  exact whole

/-- Freeing all that was added leaves the slots that it took: those that were free, and as many more
as were needed. -/
theorem Worn.freeCount_eq (worn : b.Worn c) (widened : a.Widened b) (kept : a.Kept)
    (same : c.len = a.len) : c.freeCount = max a.freeCount (a.added b).length := by
  have keptBuilt := widened.kept kept
  have before := kept.size_eq
  have after := (worn.kept keptBuilt).size_eq
  have between := widened.size_eq kept
  have grown := widened.length_added kept
  rw [worn.size_eq] at after
  omega

end Arena

namespace Tree

variable {t t' : Tree α} {f : Forest α}

/-! ## Refusals before any change -/

/-- If the reply is a refusal, it leaves `t`. -/
structure Untouched (t : Tree α) (r : Reply α β) : Prop where
  tree_eq : ∀ e, r.outcome = .refused e → r.tree = t

theorem untouched_of_done {r : Reply α β} {b : β} (done : r.outcome = .done b) : t.Untouched r where
  tree_eq e refused := by
    rw [done] at refused
    cases refused

theorem untouched_answer {b : β} : t.Untouched (t'.answer b) := untouched_of_done rfl

theorem untouched_refuse {e : TreeError} : t.Untouched (t.refuse e : Reply α β) := ⟨fun _ _ => rfl⟩

theorem untouched_require {check : Except TreeError γ} {next : γ → Reply α β}
    (goesOn : ∀ c, t.Untouched (next c)) : t.Untouched (t.require check next) := by
  cases check with
  | error e => exact untouched_refuse
  | ok c => exact goesOn c

theorem Untouched.map {r : Reply α β} (untouched : t.Untouched r) (f : β → γ) :
    t.Untouched (r.map f) := by
  obtain ⟨outcome, t'⟩ := r
  cases outcome with
  | refused e => exact ⟨fun _ _ => untouched.tree_eq e rfl⟩
  | done b => exact ⟨nofun⟩
  | halted => exact ⟨nofun⟩

theorem untouched_insert (t : Tree α) (parent : Handle) (x : α) :
    t.Untouched (t.insert parent x) := by
  apply untouched_require
  intro n
  cases t.policy.place (t.valuesAt n.children) x with
  | taken i => exact untouched_refuse
  | before i => exact untouched_answer

theorem untouched_erase (t : Tree α) (h : Handle) : t.Untouched (t.erase h) :=
  untouched_require fun _ => untouched_require fun _ => untouched_answer

theorem untouched_eraseChildren (t : Tree α) (h : Handle) : t.Untouched (t.eraseChildren h) :=
  untouched_require fun _ => untouched_answer

theorem untouched_sortRange (t : Tree α) (parent : Handle) (first last : Nat)
    (cmp : α → α → Ordering) : t.Untouched (t.sortRange parent first last cmp) := by
  rw [sortRange]
  split
  · exact untouched_refuse
  · exact untouched_answer

theorem untouched_sortBy (t : Tree α) (first : Handle) (last : Option Handle)
    (cmp : α → α → Ordering) : t.Untouched (t.sortBy first last cmp) := by
  apply untouched_require
  intro slot
  cases slot with
  | none => exact untouched_require fun _ => untouched_answer
  | some slot =>
    apply untouched_require
    intro j
    split
    · exact untouched_refuse
    · split
      · exact untouched_answer
      · exact untouched_sortRange ..

theorem untouched_sortChildrenBy (t : Tree α) (h : Handle) (cmp : α → α → Ordering) :
    t.Untouched (t.sortChildrenBy h cmp) := by
  apply untouched_require
  intro hs
  cases hs with
  | nil => exact untouched_answer
  | cons first hs => exact untouched_sortBy ..

/-- A new value that another child has as its key is refused before the node is moved. -/
theorem Shows.untouched_replaceValue (shows : t.Shows f) (inRange : t.policy.InRange) (h : Handle)
    (x : α) : t.Untouched (t.replaceValue h x) := by
  rcases shows.replaceValue_cases h x (.inl inRange) with ⟨-, dead⟩ | ⟨s, -, -, done, -⟩ |
    ⟨s, -, i, c, -, -, ⟨k, -, -, taken⟩ | ⟨j, -, done, -⟩⟩
  · rw [dead]
    exact untouched_refuse
  · exact untouched_of_done done
  · rw [taken]
    exact untouched_refuse
  · exact untouched_of_done done

/-! ## Refusals after a copy -/

/-- `t'` has the nodes of `t`. Those that `built` has besides are gone, and their slots are free. -/
structure Restored (t built t' : Tree α) : Prop where
  root_eq : t'.root = t.root
  policy_eq : t'.policy = t.policy
  node?_eq : ∀ h, t'.node? h = t.node? h
  freed : ∃ copies : List Handle, copies.Nodup ∧
    (∀ h, h ∈ copies ↔ built.contains h = true ∧ ¬t.contains h = true) ∧
    (∀ h ∈ copies, ¬t'.contains h = true) ∧
    t'.arena.freeCount = max t.arena.freeCount copies.length

theorem Shows.node?_eq (shows : t.Shows f) (shown : t'.Shows f) (h : Handle) :
    t'.node? h = t.node? h := by
  ext n
  rw [shown.node?_eq_some_iff, shows.node?_eq_some_iff]

/-- Whatever shows the same forest after nodes were stored, and then only changed and freed, has the
nodes back. -/
theorem Shows.restored_of_worn (shows : t.Shows f) {built : Tree α}
    (widened : t.arena.Widened built.arena) (worn : built.arena.Worn t'.arena)
    (policy : t'.policy = t.policy) (shown : t'.Shows f) : t.Restored built t' where
  root_eq := shows.root_eq_of_roots shown rfl
  policy_eq := policy
  node?_eq := shows.node?_eq shown
  freed := by
    have same : t'.len = t.len := by rw [shown.len_eq, shows.len_eq]
    refine ⟨t.arena.added built.arena, Arena.nodup_added .., fun h => Arena.mem_added_iff,
      fun h added => ?_, worn.freeCount_eq widened shows.holds.kept same⟩
    rw [shown.contains_iff, ← shows.contains_iff]
    exact (Arena.mem_added_iff.mp added).2

theorem Shows.restored (shows : t.Shows f) {e : Edit (Tree α) α} (goesOn : e.resets = false)
    (shown : (t.perform e).tree.Shows f) : t.Restored (t.built e) (t.perform e).tree :=
  shows.restored_of_worn (widened_built t e) (worn_perform t goesOn) (policy_perform t e) shown

/-! ## Refused edits -/

theorem Shows.untouched_perform (shows : t.Shows f) (inRange : t.policy.InRange)
    {e : Edit (Tree α) α} (own : e.substitutes = false) : t.Untouched (t.perform e) := by
  cases e with
  | setRoot x => exact untouched_answer
  | clear => exact untouched_answer
  | insert parent x => exact (t.untouched_insert parent x).map _
  | replaceValue h x => exact (shows.untouched_replaceValue inRange h x).map _
  | replaceSubtree h source => cases own
  | replaceWithSubtree h source k => cases own
  | erase h => exact (t.untouched_erase h).map _
  | eraseChildren h => exact (t.untouched_eraseChildren h).map _
  | sortBy first last cmp => exact (t.untouched_sortBy first last cmp).map _
  | sortChildrenBy h cmp => exact (t.untouched_sortChildrenBy h cmp).map _
  | sortChildren h => exact (t.untouched_sortChildrenBy h compare).map _

theorem Shows.refused_replaceWithSubtree (shows : t.Shows f) (inRange : t.policy.InRange)
    {h k : Handle} {source : Tree α} {err : TreeError}
    (refused : (t.replaceWithSubtree h source k).outcome = .refused err) :
    (t.replaceWithSubtree h source k).tree.Shows f := by
  rcases shows.replaceWithSubtree_cases h source k (.inl inRange) with ⟨e, -, shown⟩ | ⟨n, done, -⟩
  · exact shown
  · rw [done] at refused
    cases refused

/-- A refused edit leaves the forest that the tree shows. -/
theorem Shows.refused (shows : t.Shows f) (inRange : t.policy.InRange) {e : Edit (Tree α) α}
    {err : TreeError} (refused : (t.perform e).outcome = .refused err) :
    (t.perform e).tree.Shows f := by
  cases own : e.substitutes with
  | false =>
    rw [(shows.untouched_perform inRange own).tree_eq err refused]
    exact shows
  | true =>
    cases e with
    | replaceSubtree h source =>
      rw [Tree.perform, replaceSubtree] at refused ⊢
      cases root : source.root with
      | none => exact shows
      | some k =>
        rw [root] at refused
        exact shows.refused_replaceWithSubtree inRange (Outcome.map_eq_refused.mp refused)
    | replaceWithSubtree h source k =>
      exact shows.refused_replaceWithSubtree inRange (Outcome.map_eq_refused.mp refused)
    | _ => cases own

theorem resets_eq_false_of_refused {e : Edit (Tree α) α} {err : TreeError}
    (refused : (t.perform e).outcome = .refused err) : e.resets = false := by
  cases e with
  | setRoot x => cases refused
  | clear => cases refused
  | _ => rfl

/-- An edit that is refused under a policy in range leaves the tree, its arena included, as it was.
Only a replacement by a copy may have taken slots for as much of the copy as was built, and has
freed them again. -/
theorem Reachable.refused_restores (reached : t.Reachable) (inRange : t.policy.InRange)
    {e : Edit (Tree α) α} {err : TreeError} (refused : (t.perform e).outcome = .refused err) :
    (e.substitutes = false → (t.perform e).tree = t) ∧
      t.Restored (t.built e) (t.perform e).tree := by
  obtain ⟨f, shows, -⟩ := reached.exists_forest inRange
  have shown := shows.refused inRange refused
  refine ⟨fun own => ?_, shows.restored (resets_eq_false_of_refused refused) shown⟩
  exact (shows.untouched_perform inRange own).tree_eq err refused

/-- A root with two equal children, which no keyed policy admits. -/
def twins : Tree Nat :=
  (((Tree.withRoot 9 .insertionOrder ⟨2⟩).1.insert ⟨2, 0, 0⟩ 3).tree.insert ⟨2, 0, 0⟩ 3).tree

/-- Of two different numbers each comes before the other. -/
def inconsistent : Policy Nat := .keyOrder fun a b => if a = b then .eq else .lt

/-- The copy of the root and of one child are built before the other child is refused. -/
theorem refused_restores_sample :
    (∃ err, ((Tree.sample inconsistent).perform
      (.replaceSubtree ⟨1, 1, 0⟩ twins)).outcome = .refused err) ∧
    ((Tree.sample inconsistent).perform (.replaceSubtree ⟨1, 1, 0⟩ twins)).tree.arena.freeCount = 2 ∧
    (Tree.sample inconsistent).Restored
      ((Tree.sample inconsistent).built (.replaceSubtree ⟨1, 1, 0⟩ twins))
      ((Tree.sample inconsistent).perform (.replaceSubtree ⟨1, 1, 0⟩ twins)).tree := by
  have inRange : (Tree.sample inconsistent).policy.InRange := by
    rw [policy_sample]
    exact Policy.inRange_of_place_eq rfl
  have refused : ((Tree.sample inconsistent).perform
      (.replaceSubtree ⟨1, 1, 0⟩ twins)).outcome = .refused (.duplicateKey ⟨2, 0, 0⟩) :=
    (Outcome.map_eq_refused (f := fun _ => ())).mp (by decide +kernel)
  have restores := (reachable_sample inconsistent).refused_restores inRange refused
  exact ⟨⟨_, refused⟩, by decide +kernel, restores.2⟩

end Tree

end PolicyTree
