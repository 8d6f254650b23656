import PolicyTree.Proofs.Tree.Audit

/-! The check passes what reachable trees store, unless a policy changes its mind about an order. -/

namespace PolicyTree.Tree

open Forest

variable {α : Type} {t : Tree α} {f : Forest α} {h p : Handle} {n : Node α} {e : TreeError}

/-- Where child lists are live, the order check can only find fault with the order. -/
theorem Rooted.exists_siblingOrder (rooted : t.Rooted) (live : t.node? h = some n)
    (fault : t.siblingFault h n.children = some e) :
    t.policy.keyed = true ∧ ∃ i, e = .siblingOrder i h := by
  rw [siblingFault] at fault
  split at fault
  case isFalse => cases fault
  case isTrue keyed =>
    have children : ∀ c ∈ n.children, t.contains c = true := by
      intro c listed
      obtain ⟨m, stored, -⟩ := rooted.points_back h c ⟨n, live, listed⟩
      exact Arena.contains_iff.mpr ⟨m, stored⟩
    rcases orderFault_cases children h with ⟨clear, -⟩ | ⟨i, found, -⟩
    · rw [clear] at fault
      cases fault
    · rw [found] at fault
      exact ⟨keyed, i, (Option.some.inj fault).symm⟩

theorem check_of_fault {r : Handle} (root : t.root = some r) (live : t.node? r = some n)
    (top : n.parent = none) (fault : (t.audit r).bind Finding.fault = some e) :
    t.check = .error e := by
  simp [check, root, node, live, top, fault, bind, Except.bind, throw, throwThe,
    MonadExceptOf.throw]

/-- The check of a tree that shows a forest passes, or finds keyed siblings that the policy would
not place in the order in which they stand. -/
theorem Shows.check_cases (shows : t.Shows f) :
    t.check = .ok () ∨ ∃ h n e, t.node? h = some n ∧ t.siblingFault h n.children = some e ∧
      t.check = .error e := by
  rcases shows.sprigs_eq with ⟨noRoot, rfl⟩ | ⟨s, root, rfl⟩
  · have zero : t.len = 0 := shows.len_eq
    left
    rw [check, noRoot]
    exact if_pos zero
  · have live := shows.stores.node?_of_mem_sprigs (s := s) (by simp)
    have ends := (tour_start live rfl).ends shows.holds.kept shows.rooted root rfl
    rcases ends with passed | ⟨h, n, e, found, stored, fault, stopped⟩
    · left
      rw [check_of_root root live rfl, audit, ← List.length_nil, passed]
      rfl
    · refine .inr ⟨h, n, e, stored, fault, check_of_fault root live rfl ?_⟩
      rw [audit, ← List.length_nil, stopped]
      rfl

theorem Shows.check_eq_ok (shows : t.Shows f)
    (clear : ∀ h n, t.node? h = some n → t.siblingFault h n.children = none) :
    t.check = .ok () := by
  rcases shows.check_cases with passed | ⟨h, n, e, live, fault, -⟩
  · exact passed
  · rw [clear h n live] at fault
    cases fault

/-- Built-in keyed policies find the siblings that they placed in order. -/
theorem Shows.siblingFault_eq_none (shows : t.Shows f) (builtIn : t.policy.BuiltIn)
    (ordered : ∀ cmp, t.policy.SortsBy cmp → f.Ordered cmp) (live : t.node? h = some n) :
    t.siblingFault h n.children = none := by
  cases keyed : t.policy.keyed with
  | false => exact siblingFault_of_unkeyed keyed h n.children
  | true =>
    obtain ⟨cmp, sorting⟩ := builtIn.exists_keyed keyed
    obtain ⟨s, mem, rfl, -, children⟩ := shows.exists_node live
    rw [siblingFault_eq_none_iff sorting.sortsBy, ← children,
      inOrder_iff (shows.stores.map_get?_roots mem)]
    exact ordered cmp sorting.sortsBy s mem

end PolicyTree.Tree
