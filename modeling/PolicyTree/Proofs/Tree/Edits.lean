import PolicyTree.Proofs.Forest.Order
import PolicyTree.Proofs.Session
import PolicyTree.Proofs.Tree.Exchange
import PolicyTree.Proofs.Tree.Sorting

/-! Every reachable tree shows a forest, in order under a sorting policy. -/

namespace PolicyTree.Tree

open Forest

variable {α : Type} {t : Tree α} {f : Forest α}

/-! ## One edit -/

/-- An edit that does not halt makes of the forest that a tree shows what edits under the policy can
make of it. Under a policy in range none halts. -/
theorem Shows.perform_of_goesOn (shows : t.Shows f) {e : Edit (Tree α) α}
    (goesOn : t.policy.InRange ∨ (t.perform e).outcome ≠ .halted) :
    ∃ f', Edited t.policy f f' ∧ (t.perform e).tree.Shows f' := by
  have same : ∀ {t' : Tree α}, t' = t → ∃ f', Edited t.policy f f' ∧ t'.Shows f' := by
    rintro _ rfl
    exact ⟨f, .same, shows⟩
  have substituted : ∀ h source k,
      (t.policy.InRange ∨ (t.replaceWithSubtree h source k).outcome ≠ .halted) →
      ∃ f', Edited t.policy f f' ∧ (t.replaceWithSubtree h source k).tree.Shows f' := by
    intro h source k goesOn
    rcases shows.replaceWithSubtree_cases h source k goesOn with
      ⟨e, -, shown⟩ | ⟨n, -, grown, -, ⟨s, -, -, shown⟩ | ⟨s, mem, i, j, c, -, -, settled, shown⟩⟩
    · exact ⟨f, .same, shown⟩
    · exact ⟨_, .copied grown, shown⟩
    · exact ⟨_, .substituted mem grown settled, shown⟩
  have sorted : ∀ {t' : Tree α} {cmp}, (t' = t ∨ ∃ s ∈ f.nodes, ∃ i j, i ≤ j ∧ t.policy.keyed = false ∧
      t'.Shows (f.mapBelow s.handle (sortAt i j cmp))) →
      ∃ f', Edited t.policy f f' ∧ t'.Shows f' := by
    rintro t' cmp (rfl | ⟨s, mem, i, j, -, unkeyed, shown⟩)
    · exact ⟨f, .same, shows⟩
    · exact ⟨_, .sorted i j cmp unkeyed mem, shown⟩
  cases e with
  | setRoot x => exact ⟨_, .copied .refl, shows_setRoot t x⟩
  | clear => exact ⟨nil, .cleared, shows_clear t⟩
  | insert parent x =>
    rcases shows.insert_cases parent x with
      ⟨-, dead⟩ | ⟨s, mem, rfl, ⟨i, -, refused⟩ | ⟨i, place, fresh, -, shown⟩⟩
    · exact same (congrArg Reply.tree dead)
    · exact same (congrArg Reply.tree refused)
    · exact ⟨_, .planted (.below shows.nodup mem place fresh), shown⟩
  | replaceValue h x =>
    rw [Tree.perform, outcome_map, ne_eq, Outcome.map_eq_halted] at goesOn
    rcases shows.replaceValue_cases h x goesOn with ⟨-, dead⟩ | ⟨s, only, -, -, shown⟩ |
      ⟨s, mem, i, c, child, -, ⟨k, -, -, refused⟩ | ⟨j, settled, -, shown⟩⟩
    · exact same (congrArg Reply.tree dead)
    · exact ⟨_, .rootRevalued x only, shown⟩
    · exact same (congrArg Reply.tree refused)
    · exact ⟨_, .revalued mem child settled, shown⟩
  | replaceSubtree h source =>
    rw [Tree.perform, outcome_map, ne_eq, Outcome.map_eq_halted, replaceSubtree] at goesOn
    rw [Tree.perform, tree_map, replaceSubtree]
    cases root : source.root with
    | none => exact same rfl
    | some k =>
      rw [root] at goesOn
      exact substituted h source k goesOn
  | replaceWithSubtree h source k =>
    rw [Tree.perform, outcome_map, ne_eq, Outcome.map_eq_halted] at goesOn
    exact substituted h source k goesOn
  | erase h =>
    rcases shows.erase_cases h with ⟨-, dead⟩ | ⟨s, -, -, -, shown⟩ |
      ⟨s, mem, i, c, -, -, -, shown⟩
    · exact same (congrArg Reply.tree dead)
    · exact ⟨_, .cleared, shown⟩
    · exact ⟨_, .plucked i mem, shown⟩
  | eraseChildren h =>
    rcases shows.eraseChildren_cases h with ⟨-, dead⟩ | ⟨s, mem, rfl, -, shown⟩
    · exact same (congrArg Reply.tree dead)
    · exact ⟨_, .bared mem, shown⟩
  | sortBy first last cmp => exact sorted (shows.sortBy_cases first last cmp)
  | sortChildrenBy h cmp => exact sorted (shows.sortChildrenBy_cases h cmp)
  | sortChildren h => exact sorted (shows.sortChildrenBy_cases h compare)

theorem Shows.perform (shows : t.Shows f) (inRange : t.policy.InRange) (e : Edit (Tree α) α) :
    ∃ f', Edited t.policy f f' ∧ (t.perform e).tree.Shows f' :=
  shows.perform_of_goesOn (.inl inRange)

/-! ## Runs -/

/-- A tree under a policy in range shows a forest, whatever run led to it, and a sorting policy has
kept that forest in order. -/
theorem Reachable.exists_forest (reached : t.Reachable) (inRange : t.policy.InRange) :
    ∃ f, t.Shows f ∧ ∀ cmp, t.policy.SortsBy cmp → f.Ordered cmp := by
  revert inRange
  refine reached.induct (P := fun t => t.policy.InRange →
    ∃ f, t.Shows f ∧ ∀ cmp, t.policy.SortsBy cmp → f.Ordered cmp) ?_ ?_ ?_
  · intro policy capacity owners _
    exact ⟨nil, shows_withCapacity policy capacity owners, fun _ _ => ordered_nil⟩
  · intro t e before inRange
    rw [policy_perform] at inRange
    obtain ⟨f, shows, ordered⟩ := before inRange
    obtain ⟨f', edited, shown⟩ := shows.perform inRange e
    refine ⟨f', shown, fun cmp sorts => ?_⟩
    rw [policy_perform] at sorts
    exact edited.ordered sorts shows.nodup (ordered cmp sorts)
  · intro t source h x _ _
    obtain ⟨f', grown, shown⟩ := becomeCopy_grows t source h x
    refine ⟨f', shown, fun cmp sorts => ?_⟩
    rw [policy_becomeCopy] at sorts
    exact grown.ordered_of_leaf sorts

theorem Reachable.exists_ordered_forest (reached : t.Reachable) {cmp : α → α → Ordering}
    (sorts : t.policy.SortsBy cmp) : ∃ f, t.Shows f ∧ f.Ordered cmp :=
  (reached.exists_forest sorts.inRange).imp fun _ => And.imp_right fun ordered => ordered cmp sorts

end PolicyTree.Tree
