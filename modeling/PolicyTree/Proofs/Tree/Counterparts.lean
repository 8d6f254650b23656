import PolicyTree.Proofs.Tree.Concord
import PolicyTree.Proofs.Tree.Search

/-! Two trees that show the same nodes under different handles answer edits and lookups alike. -/

namespace PolicyTree

open Forest

variable {α : Type} {σ : Handle → Handle}

/-! ## Lookups under other handles -/

namespace Forest

variable {b : Forest α} {policy : Policy α} {target : α} {h : Handle}
  {below : List (Option (Option Handle))}

theorem judge_rename (b : Forest α) (below : List (Option (Option Handle))) :
    (b.rename σ).judge policy target (below.map (Option.map (Option.map σ))) =
      (b.judge policy target below).map (Option.map σ) := by
  rw [judge, judge, rootValues_rename]
  cases policy.descend b.rootValues target with
  | found i =>
    dsimp only
    rw [roots_rename, List.getElem?_map]
    rfl
  | into i =>
    dsimp only
    rw [List.getElem?_map]
    cases below[i]? <;> rfl
  | miss => rfl
  | each =>
    dsimp only
    induction below with
    | nil => rfl
    | cons v below ih =>
      cases v with
      | none => exact ih
      | some answer => rfl
  | scan =>
    dsimp only
    rw [nodes_rename, List.find?_map]
    have found : b.nodes.find? ((fun s : Sprig α => policy.agrees s.value target) ∘ Sprig.rename σ) =
        b.nodes.find? (policy.agrees ·.value target) := rfl
    rw [found]
    cases b.nodes.find? (policy.agrees ·.value target) <;> rfl

theorem verdictsBelow_rename (b : Forest α) :
    (b.rename σ).verdictsBelow policy target =
      (b.verdictsBelow policy target).map (Option.map (Option.map σ)) := by
  induction b with
  | nil => rfl
  | cons h x below later ihBelow ihLater =>
    rw [rename, verdictsBelow, ihBelow, judge_rename, ihLater, verdictsBelow, List.map_cons]

theorem verdict_rename (b : Forest α) : (b.rename σ).verdict policy target =
    (b.verdict policy target).map (Option.map σ) := by
  rw [verdict, verdictsBelow_rename, judge_rename, verdict]

/-- What a search answers with stands among the siblings or below them. -/
theorem mem_of_judge (inside : some (some h) ∈ below → h ∈ b.handles)
    (found : b.judge policy target below = some (some h)) : h ∈ b.handles := by
  rw [judge] at found
  cases descend : policy.descend b.rootValues target with
  | found i =>
    rw [descend] at found
    exact mem_handles_of_mem_roots (List.mem_of_getElem? (Option.some.inj found))
  | into i =>
    rw [descend] at found
    exact inside (List.mem_of_getElem? (Option.join_eq_some_iff.mp found))
  | miss =>
    rw [descend] at found
    cases found
  | each =>
    rw [descend] at found
    obtain ⟨v, listed, rfl⟩ := List.exists_of_findSome?_eq_some found
    exact inside listed
  | scan =>
    rw [descend] at found
    obtain ⟨s, first, same⟩ := Option.map_eq_some_iff.mp found
    obtain rfl := Option.some.inj same
    exact mem_handles (List.mem_of_find?_eq_some first)

theorem mem_of_verdictsBelow (found : some (some h) ∈ b.verdictsBelow policy target) :
    h ∈ b.handles := by
  induction b with
  | nil => simp [verdictsBelow] at found
  | cons k x below later ihBelow ihLater =>
    rw [verdictsBelow] at found
    rw [handles_cons, List.mem_cons, List.mem_append]
    rcases List.mem_cons.mp found with here | there
    · exact .inr (.inl (mem_of_judge ihBelow here.symm))
    · exact .inr (.inr (ihLater there))

theorem mem_of_verdict (found : b.verdict policy target = some (some h)) : h ∈ b.handles :=
  mem_of_judge mem_of_verdictsBelow found

end Forest

/-- The nodes of the edited tree that the edit is given all stand in `f`. -/
def Edit.Known {τ : Type} (f : Forest α) : Edit τ α → Prop
  | setRoot _ | clear => True
  | sortBy first last _ => first ∈ f.handles ∧ ∀ h ∈ last, h ∈ f.handles
  | insert h _ | replaceValue h _ | replaceSubtree h _ | replaceWithSubtree h _ _ | erase h
  | eraseChildren h | sortChildrenBy h _ | sortChildren h => h ∈ f.handles

namespace Tree

variable {t u : Tree α} {f : Forest α} {s c : Sprig α} {h : Handle}

theorem Shows.find_rename (shows : t.Shows f) (shown : u.Shows (f.rename σ))
    (same : u.policy = t.policy) (target : α) : u.find target = (t.find target).map σ := by
  rw [shown.find_eq, shows.find_eq, sprigs_rename, List.head?_map, same]
  cases f.sprigs.head? with
  | none => rfl
  | some s =>
    rw [Option.map_some, Option.bind_some, Option.bind_some]
    rw [Sprig.value_rename, Sprig.below_rename, verdict_rename]
    split
    · rfl
    · cases s.below.verdict t.policy target <;> rfl

theorem Shows.mem_of_find (shows : t.Shows f) {target : α} (found : t.find target = some h) :
    h ∈ f.handles := by
  rw [shows.find_eq] at found
  cases first : f.sprigs.head? with
  | none =>
    rw [first] at found
    cases found
  | some s =>
    have mem : s ∈ f.nodes := mem_nodes_of_mem_sprigs (List.mem_of_head? first)
    rw [first, Option.bind_some] at found
    split at found
    · cases found
      exact mem_handles mem
    · exact (handles_below_sublist mem).subset (mem_of_verdict (Option.join_eq_some_iff.mp found))

/-! ## Sort requests -/

variable {rest rest' : List (Handle × Node α)} {foreign : Handle → Prop}

namespace Twins

/-- A node has no parent in either tree, or the same one in both, and the same place among its
children. -/
theorem slot_cases (twins : Twins t none rest u none rest' f σ) (live : h ∈ f.handles) :
    (t.slotInParent h = .ok none ∧ u.slotInParent (σ h) = .ok none) ∨
      ∃ s ∈ f.nodes, ∃ i c, s.below.sprigs[i]? = some c ∧ c.handle = h ∧
        t.slotInParent h = .ok (some (s.handle, i)) ∧
        u.slotInParent (σ h) = .ok (some (σ s.handle, i)) := by
  obtain ⟨c, mem, rfl⟩ := List.mem_map.mp live
  rcases top_or_child mem with top | ⟨s, inside, child⟩
  · refine .inl ⟨twins.left.slotInParent_of_top top, ?_⟩
    exact twins.right.slotInParent_of_top (s := c.rename σ) (by
      rw [sprigs_rename]
      exact List.mem_map_of_mem top)
  · obtain ⟨i, place⟩ := List.mem_iff_getElem?.mp child
    exact .inr ⟨s, inside, i, c, place, rfl, twins.left.slotInParent_of_child inside place,
      twins.right.slotInParent_of_child (mem_rename inside σ) (child_rename place σ)⟩

theorem rangeEnd_cases (twins : Twins t none rest u none rest' f σ) (mem : s ∈ f.nodes)
    (first : Handle) (last : Option Handle) (known : ∀ k ∈ last, k ∈ f.handles) :
    (∃ j, t.rangeEnd s.handle first last = .ok j ∧
        u.rangeEnd (σ s.handle) (σ first) (last.map σ) = .ok j) ∨
      ∃ k ∈ f.handles, t.rangeEnd s.handle first last = .error (.notSiblings first k) ∧
        u.rangeEnd (σ s.handle) (σ first) (last.map σ) = .error (.notSiblings (σ first) (σ k)) := by
  cases last with
  | none =>
    have listed := twins.left.childrenAt_eq mem
    have listed' : u.childrenAt (σ s.handle) = (s.below.rename σ).roots :=
      twins.right.childrenAt_eq (mem_rename mem σ)
    refine .inl ⟨s.below.roots.length, ?_, ?_⟩
    · rw [rangeEnd, listed]
    · rw [Option.map_none, rangeEnd, listed', roots_rename, List.length_map]
  | some k =>
    have live := known k rfl
    rw [Option.map_some, rangeEnd, rangeEnd]
    rcases twins.slot_cases live with ⟨slot, slot'⟩ | ⟨p, inside, i, c, -, -, slot, slot'⟩
    · rw [slot, slot']
      exact .inr ⟨k, live, rfl, rfl⟩
    · rw [slot, slot']
      by_cases here : p.handle = s.handle
      · exact .inl ⟨i, if_pos here, if_pos (congrArg σ here)⟩
      · have there : σ p.handle ≠ σ s.handle := fun same =>
          here (twins.inj (mem_handles inside) (mem_handles mem) same)
        exact .inr ⟨k, live, if_neg here, if_neg there⟩

theorem concur_sortBy (twins : Twins t none rest u none rest' f σ) {first : Handle}
    (live : first ∈ f.handles) (last : Option Handle) (known : ∀ k ∈ last, k ∈ f.handles)
    (cmp : α → α → Ordering) :
    twins.Concur foreign ((t.sortBy first last cmp).map fun _ => .nothing)
      ((u.sortBy (σ first) (last.map σ) cmp).map fun _ => .nothing) := by
  rcases twins.slot_cases live with ⟨slot, slot'⟩ | ⟨s, mem, i, c, child, rfl, slot, slot'⟩
  · rw [sortBy, slot, require_ok, sortBy, slot', require_ok]
    dsimp only
    cases last with
    | none => exact twins.concur_unchanged fun _ => .nothing
    | some k =>
      rw [Option.map_some, checkRootRange, checkRootRange]
      by_cases here : k = first
      · rw [if_pos here, if_pos (congrArg σ here)]
        exact twins.concur_unchanged fun _ => .nothing
      · rw [if_neg here, if_neg fun same => here (twins.inj (known k rfl) live same)]
        exact twins.concur_refused .rootHasNoSiblings
  · rcases twins.rangeEnd_cases mem c.handle last known with
      ⟨j, ends, ends'⟩ | ⟨k, there, failed, failed'⟩
    · by_cases reversed : j < i
      · rw [sortBy, slot, require_ok, sortBy, slot', require_ok]
        dsimp only
        rw [ends, ends', require_ok, require_ok, if_pos reversed, if_pos reversed]
        exact twins.concur_refused (.reversedRange i j)
      · obtain ⟨t', done, left, root⟩ :=
          twins.left.sortBy_eq mem child ends (Nat.le_of_not_lt reversed) cmp
        obtain ⟨u', done', right, root'⟩ := twins.right.sortBy_eq (mem_rename mem σ)
          (child_rename child σ) ends' (Nat.le_of_not_lt reversed) cmp
        rw [twins.policy_eq] at right
        rw [Sprig.handle_rename] at done'
        rw [done, done']
        refine twins.concur_of_natural mem left right root root' (fun b => ?_) fun _ => .nothing
        split
        · rfl
        · exact rename_sortAt ..
    · rw [sortBy, slot, require_ok, sortBy, slot', require_ok]
      dsimp only
      rw [failed, failed', require_error, require_error]
      exact twins.concur_refused (.notSiblings ⟨live, rfl⟩ ⟨there, rfl⟩)

end Twins

/-! ## Whole trees -/

/-- What replies to the same edit of two whole trees have in common: both show one forest, and the
outcomes match. -/
def Matched (f : Forest α) (σ : Handle → Handle) (foreign : Handle → Prop)
    (r r' : Reply α (Answer α)) : Prop :=
  ∃ f' σ', r.tree.Shows f' ∧ r'.tree.Shows (f'.rename σ') ∧
    Outcome.Alike (TreeError.Alike (f.Names σ) foreign) (Answer.Alike (f'.Names σ'))
      r.outcome r'.outcome

theorem Shows.twins (shows : t.Shows f) (shown : u.Shows (f.rename σ))
    (same : u.policy = t.policy) : Twins t none [] u none [] f σ :=
  ⟨shows.stores, shown.stores, same⟩

theorem Twins.Concur.matched {twins : Twins t none [] u none [] f σ} {r r' : Reply α (Answer α)}
    (concur : twins.Concur foreign r r') (shows : t.Shows f) (shown : u.Shows (f.rename σ)) :
    Matched f σ foreign r r' := by
  obtain ⟨f', σ', left, right, roots, agree, root, root', alike⟩ := concur
  refine ⟨f', σ', ⟨?_, left⟩, ⟨?_, right⟩, alike⟩
  · rw [roots, root, shows.roots_eq]
  · have renamed : f.roots.map σ' = f.roots.map σ :=
      List.map_congr_left fun h top => agree h (mem_handles_of_mem_roots top)
    rw [roots_rename, roots, renamed, ← roots_rename, root', shown.roots_eq]

/-- A copy takes the place of the whole tree in both, or ends at the same node of the source. -/
theorem Shows.matched_replaceRoot (shows : t.Shows (ofSprigs [s]))
    (shown : u.Shows (ofSprigs [s.rename σ])) (same : u.policy = t.policy) (source : Tree α)
    (k : Handle) :
    Matched (ofSprigs [s]) σ (· ∈ source.subtree k)
      ((t.replaceWithSubtree s.handle source k).map .handle)
      ((u.replaceWithSubtree (σ s.handle) source k).map .handle) := by
  have renamed := rename_single σ s
  have twins := shows.twins (renamed ▸ shown) same
  have slot := shows.stores.slotInParent_of_top (s := s) (by simp)
  have slot' : u.slotInParent (σ s.handle) = .ok none :=
    shown.stores.slotInParent_of_top (s := s.rename σ) (by simp)
  rw [replaceWithSubtree, slot, require_ok, replaceWithSubtree, slot', require_ok]
  cases live : source.node? k with
  | none =>
    rw [value, node, live]
    exact (twins.concur_refused (.deadSource .refl)).matched shows (renamed ▸ shown)
  | some n =>
    rw [value, node, live, Except.map, require_ok, require_ok]
    obtain ⟨under, ρ, head, left, right, root, root', alike⟩ :=
      twins.copy_beside_alike ((ofSprigs [s]).Names σ) n.value none none source k rfl rfl
    dsimp only [Option.map]
    generalize copyBelow _ source k t.arena.fresh = copied at left root alike ⊢
    generalize copyBelow _ source k u.arena.fresh = copied' at right root' alike ⊢
    obtain ⟨outcome, t₁⟩ := copied
    obtain ⟨outcome', u₁⟩ := copied'
    cases alike with
    | refused same =>
      have freed := right.release_beside
      rw [Sprig.rename, head] at freed
      exact (twins.concur_of_refused left.release_beside freed root root' same).matched shows
        (renamed ▸ shown)
    | done same =>
      rw [renamed] at right
      obtain ⟨t', done, stored, top⟩ := left.substitute_root n.value
      obtain ⟨u', done', stored', top'⟩ := right.substitute_root n.value
      rw [Sprig.handle_rename, Sprig.handle_rename] at done'
      rw [← head]
      dsimp only at done ⊢
      rw [done, done']
      refine ⟨ofSprigs [⟨t.arena.fresh, n.value, under⟩], ρ, ⟨?_, stored⟩, ⟨?_, ?_⟩,
        .done (.handle ⟨mem_handles (mem_nodes_single _), rfl⟩)⟩
      · rw [roots_ofSprigs, tree_map, answer_tree, top]
        rfl
      · rw [rename_single, tree_map, answer_tree, top', roots_ofSprigs]
        rfl
      · rw [rename_single]
        exact stored'

theorem Shows.top_or_below (shows : t.Shows f) (live : h ∈ f.handles) :
    (∃ s, f = ofSprigs [s] ∧ s.handle = h) ∨ ∃ s ∈ f.nodes, h ∈ s.below.roots := by
  rcases shows.root_or_child live with root | ⟨s, mem, i, c, child, rfl⟩
  · exact .inl (shows.eq_single root)
  · exact .inr ⟨s, mem, List.mem_map_of_mem (List.mem_of_getElem? child)⟩

/-- Every edit of known nodes is answered alike. -/
theorem Shows.matched_perform (shows : t.Shows f) (shown : u.Shows (f.rename σ))
    (same : u.policy = t.policy) (inRange : t.policy.InRange) {e : Edit (Tree α) α}
    (known : e.Known f) :
    Matched f σ (· ∈ e.copied) (t.perform e) (u.perform (e.rename σ)) := by
  have twins := shows.twins shown same
  have inside := fun (within : e.Within f) => (twins.concur inRange within).matched shows shown
  cases e with
  | setRoot x =>
    refine ⟨_, fun _ => u.freshRoot, shows_setRoot t x, ?_,
      .done (.handle ⟨mem_handles (mem_nodes_single _), rfl⟩)⟩
    rw [rename_single]
    exact shows_setRoot u x
  | clear => exact ⟨nil, σ, shows_clear t, shows_clear u, .done .nothing⟩
  | insert | eraseChildren | sortChildrenBy | sortChildren => exact inside known
  | sortBy first last cmp =>
    exact (twins.concur_sortBy known.1 last known.2 cmp).matched shows shown
  | replaceValue h x =>
    rcases shows.top_or_below known with ⟨s, rfl, rfl⟩ | below
    · rw [rename_single] at shown
      obtain ⟨done, whole⟩ := shows.replaceValue_root x
      obtain ⟨done', whole'⟩ := shown.replaceValue_root x
      rw [Sprig.handle_rename, Sprig.value_rename] at done'
      refine ⟨ofSprigs [⟨s.handle, x, s.below⟩], σ, whole, rename_single σ _ ▸ whole', ?_⟩
      rw [Tree.perform, outcome_map, done, Edit.rename, Tree.perform, outcome_map, done']
      exact .done (.value _)
    · exact inside below
  | erase h =>
    rcases shows.top_or_below known with ⟨s, rfl, rfl⟩ | below
    · rw [rename_single] at shown
      obtain ⟨done, empty⟩ := shows.erase_root
      obtain ⟨done', empty'⟩ := shown.erase_root
      rw [Sprig.handle_rename, Sprig.value_rename] at done'
      refine ⟨nil, σ, empty, empty', ?_⟩
      rw [Tree.perform, outcome_map, done, Edit.rename, Tree.perform, outcome_map, done']
      exact .done (.value _)
    · exact inside below
  | replaceWithSubtree h source k =>
    rcases shows.top_or_below known with ⟨s, rfl, rfl⟩ | below
    · exact shows.matched_replaceRoot (rename_single σ s ▸ shown) same source k
    · exact inside below
  | replaceSubtree h source =>
    rcases shows.top_or_below known with ⟨s, rfl, rfl⟩ | below
    · rw [Edit.rename, Tree.perform, Tree.perform, replaceSubtree, replaceSubtree]
      cases root : source.root with
      | none => exact (twins.concur_refused .emptySource).matched shows shown
      | some r =>
        rw [Edit.copied_replaceSubtree _ root]
        exact shows.matched_replaceRoot (rename_single σ s ▸ shown) same source r
    · exact inside below

end Tree

end PolicyTree
