import PolicyTree.Proofs.Tree.Faultless
import PolicyTree.Proofs.Tree.Insertion

/-! Places past the end: an insertion takes them for the end, a replacement halts at them. -/

namespace PolicyTree

open Forest

variable {α : Type}

/-! ## Runs without a halt -/

/-- Sessions that requests led to of which none halted on the `i`-th tree. -/
inductive Session.Unhalted (i : Nat) : Session α → Prop where
  | start : Unhalted i .start
  | step {s : Session α} {r : Request α} (unhalted : Unhalted i s)
      (goesOn : ∀ t e, s.Performs i r t e → (t.perform e).outcome ≠ .halted) :
      Unhalted i (s.step r)

/-- The tree stands in some session after finitely many operations of which none halted on it. -/
def Tree.ReachableUnhalted (t : Tree α) : Prop :=
  ∃ (i : Nat) (s : Session α), s.Unhalted i ∧ s.trees[i]? = some t

/-- Whatever the policies answer, a tree stays sound until an edit of it halts. -/
theorem Session.Unhalted.exists_forest {s : Session α} {i : Nat} (unhalted : s.Unhalted i) :
    ∀ t, s.trees[i]? = some t → ∃ f, t.Shows f := by
  induction unhalted with
  | start =>
    intro t stands
    cases stands
  | step unhalted goesOn ih =>
    intro t stands
    cases Session.leaves_of_step stands with
    | kept stands => exact ih t stands
    | created policy capacity owners => exact ⟨nil, Tree.shows_withCapacity policy capacity owners⟩
    | copied => exact (Tree.becomeCopy_grows ..).imp fun _ => And.right
    | @performed before e performs =>
      obtain ⟨f, shows⟩ : ∃ f, before.Shows f := by
        cases performs with
        | withRoot x policy => exact ⟨nil, Tree.shows_withCapacity policy _ _⟩
        | edit stands => exact ih _ stands
      obtain ⟨f', -, shown⟩ := shows.perform_of_goesOn (.inr (goesOn before e performs))
      exact ⟨f', shown⟩

/-- No edit halts on a tree whose policy is in range, whatever happens to the others. -/
theorem Session.unhalted_run {i : Nat} (requests : List (Request α))
    (inRange : ∀ t, (run requests).trees[i]? = some t → t.policy.InRange) :
    (run requests).Unhalted i := by
  induction requests using List.reverseRecOn with
  | nil => exact .start
  | append_singleton requests r ih =>
    rw [run_concat] at inRange ⊢
    refine .step (ih fun t stands => ?_) fun t e performs => ?_
    · obtain ⟨t', after, same⟩ := exists_after stands r
      exact same ▸ inRange t' after
    · have keeps := inRange _ performs.stands
      rw [Tree.policy_perform] at keeps
      obtain ⟨f, shows⟩ : ∃ f, t.Shows f := by
        cases performs with
        | withRoot x policy => exact ⟨nil, Tree.shows_withCapacity policy _ _⟩
        | edit stands =>
          have reached : t.Reachable := ⟨requests, List.mem_of_getElem? stands⟩
          exact (reached.exists_forest keeps).imp fun _ => And.left
      exact (shows.orderly_perform keeps e).ne_halted

namespace Tree

variable {β : Type} {t t' u : Tree α} {f : Forest α} {rest : List (Handle × Node α)}
  {s c n : Sprig α} {i j : Nat} {x : α} {p h : Handle}

theorem ReachableUnhalted.exists_forest (reached : t.ReachableUnhalted) : ∃ f, t.Shows f := by
  obtain ⟨i, session, unhalted, stands⟩ := reached
  exact unhalted.exists_forest t stands

theorem Reachable.unhalted (reached : t.Reachable) (inRange : t.policy.InRange) :
    t.ReachableUnhalted := by
  obtain ⟨requests, mem⟩ := reached
  obtain ⟨i, stands⟩ := List.mem_iff_getElem?.mp mem
  refine ⟨i, _, Session.unhalted_run requests fun t' same => ?_, stands⟩
  obtain rfl := Option.some.inj (stands.symm.trans same)
  exact inRange

theorem insert_ne_halted (t : Tree α) (p : Handle) (x : α) : (t.insert p x).outcome ≠ .halted := by
  rw [insert]
  cases t.node p with
  | error e => simp
  | ok n =>
    rw [require_ok]
    cases t.policy.place (t.valuesAt n.children) x <;> simp

/-- Insertions make the sample, so nothing halts on the way to it. -/
theorem reachableUnhalted_sample (policy : Policy Nat) :
    (Tree.sample policy).ReachableUnhalted := by
  have inserted : ∀ {s : Session Nat} {i : Nat} {p : Handle} {x : Nat}, s.Unhalted i →
      (s.step (.edit 0 (.insert p x))).Unhalted i := by
    intro s i p x unhalted
    refine .step unhalted fun t e performs => ?_
    cases performs with
    | edit stands resolved =>
      cases resolved
      intro halted
      exact insert_ne_halted t p x (Outcome.map_eq_halted.mp halted)
  have rooted : ∀ i, (Session.start.step (.withRoot 5 policy)).Unhalted i := by
    refine fun i => .step .start fun t e performs => ?_
    cases performs
    intro halted
    cases halted
  have first := inserted (p := ⟨1, 0, 0⟩) (x := 7) (rooted 0)
  exact ⟨0, _, inserted (p := ⟨1, 0, 0⟩) (x := 2) first, rfl⟩

/-! ## Half a move -/

/-- `t'` is `t`, possibly with more nodes, where `h` has been taken out of the child list of `p`
although it is live and `p` is its parent. -/
structure Drops (t t' : Tree α) (p h : Handle) : Prop where
  listed : h ∈ t.childrenAt p
  childrenAt_eq : t'.childrenAt p = t.others p h
  parent_eq : t'.parent h = .ok (some p)
  kept : t.Keeps t' ∅ (some p)

theorem keeps_updateChildren (stays : ∀ h n, t.node? h = some n → u.node? h = some n) (p : Handle)
    (k : List Handle → List Handle) : t.Keeps (u.updateChildren p k) ∅ (some p) := by
  intro h n live _
  have stored : u.arena.get? h = some n := stays h n live
  by_cases here : h = p
  · subst here
    refine ⟨k n.children, ?_, fun apart => absurd rfl apart⟩
    show (u.arena.modify h _).get? h = _
    rw [Arena.get?_modify_self, stored]
    rfl
  · refine ⟨n.children, ?_, fun _ => rfl⟩
    show (u.arena.modify p _).get? h = _
    rw [Arena.get?_modify_of_ne here, stored]

theorem Shows.drops (shows : t.Shows f) (stores : u.Stores none f rest) (mem : s ∈ f.nodes)
    (child : s.below.sprigs[i]? = some c) :
    t.Drops (u.updateChildren s.handle (·.eraseIdx i)) s.handle c.handle := by
  have here := mem_nodes_mapBelow_self stores.nodup mem (pluckAt i)
  have below := List.mem_of_getElem? child
  have kept : t.Keeps (u.updateChildren s.handle (·.eraseIdx i)) ∅ (some s.handle) :=
    keeps_updateChildren (fun _ _ live =>
      stores.node?_of_mem_records (shows.node?_eq_some_iff.mp live)) _ _
  obtain ⟨hs, stored, -⟩ :=
    kept c.handle _ (shows.stores.node?_of_child mem below) (Set.notMem_empty _)
  refine ⟨?_, ?_, parent_of_node? stored, kept⟩
  · rw [shows.stores.childrenAt_eq mem]
    exact List.mem_map_of_mem below
  · rw [(stores.pluck mem child).childrenAt_eq here, shows.stores.others_eq mem child]

/-! ## Replacements -/

/-- What a replacement that puts `new` in the place of `h` comes to where the policy answers `i`:
`new` is at this index among the other children of `p`, or, if they are fewer, the edit halts with
`h` dropped. -/
structure PutsOrDrops (t : Tree α) (reply : Reply α β) (answer : β) (p h new : Handle) (i : Nat) :
    Prop where
  puts : i ≤ (t.others p h).length → ∃ t' : Tree α, reply = t'.answer answer ∧
    t'.childrenAt p = (t.others p h).insertIdx i new
  drops : (t.others p h).length < i → ∃ t' : Tree α, reply = ⟨.halted, t'⟩ ∧ t.Drops t' p h

section Child

variable (shows : t.Shows f) (mem : s ∈ f.nodes) (child : s.below.sprigs[i]? = some c)

include shows mem child

theorem Shows.length_others :
    (t.others s.handle c.handle).length = (s.below.pluckAt i).sprigs.length := by
  rw [shows.stores.others_eq mem child, length_roots]

theorem Shows.childrenAt_swap (fits : j ≤ (s.below.pluckAt i).sprigs.length)
    (shown : t'.Shows (f.mapBelow s.handle (swapAt i j n))) :
    t'.childrenAt s.handle = (t.others s.handle c.handle).insertIdx j n.handle := by
  rw [shown.childrenAt_mapBelow shows.nodup mem, shows.stores.others_eq mem child, swapAt,
    roots_plantAt, length_roots, Nat.min_eq_left fits]

variable (keyed : t.policy.keyed = true)
  (place : t.policy.place (s.below.pluckAt i).rootValues x = .before j)

include keyed place

omit shows mem child in
/-- The answer of the policy is the only place that a swap can find. -/
theorem eq_of_resettled {k : Nat} (settled : Resettled t.policy s.below i x k) : k = j := by
  have answer := settled.place_eq keyed
  rw [place] at answer
  cases answer
  rfl

theorem Shows.replaceValue_puts_or_drops :
    t.PutsOrDrops (t.replaceValue c.handle x) c.value s.handle c.handle c.handle j := by
  have length := shows.length_others mem child
  constructor
  · intro within
    rw [length] at within
    have fits : Fits t.policy s.below i x := fun k settled => by
      rwa [eq_of_resettled keyed place settled]
    rcases shows.stores.replaceValue_of_fits mem child fits with
      ⟨k, -, taken, -⟩ | ⟨k, settled, t', done, stored, root⟩
    · rw [place] at taken
      cases taken
    · obtain rfl := eq_of_resettled keyed place settled
      have shown := shows_mapBelow (shows.roots_of_eq root) stored
      exact ⟨t', done, shows.childrenAt_swap (n := ⟨c.handle, x, c.below⟩) mem child within shown⟩
  · intro past
    rw [length] at past
    rw [shows.stores.replaceValue_overrun mem child keyed place past]
    exact ⟨_, rfl, shows.drops shows.stores mem child⟩

/-- Once its copy is built, a replacement by it puts the copy where the policy wants its value. -/
theorem Shows.replaceWithSubtree_puts_or_drops {source : Tree α} {k : Handle} {m : Nat}
    (valued : source.value k = .ok x)
    (copied : (t.copyBeside (some (s.handle, i)) x source k).outcome = .done m) :
    t.PutsOrDrops (t.replaceWithSubtree c.handle source k) t.arena.fresh s.handle c.handle
      t.arena.fresh j := by
  have length := shows.length_others mem child
  have located := shows.stores.slotInParent_of_child mem child
  obtain ⟨-, root, policy, below, -, stores⟩ :=
    shows.stores.copyBeside_spec (some (s.handle, i)) x source k
  rw [replaceWithSubtree_of_done located valued copied]
  rw [← policy] at keyed place
  constructor
  · intro within
    rw [length] at within
    have fits : Fits (t.copyBeside (some (s.handle, i)) x source k).tree.policy s.below i x :=
      fun k settled => by rwa [eq_of_resettled keyed place settled]
    rcases Stores.substitute_cases (n := ⟨t.arena.fresh, x, below⟩) stores mem child fits with
      ⟨k, -, taken, -⟩ | ⟨k, settled, t', done, stored, kept⟩
    · rw [place] at taken
      cases taken
    · obtain rfl := eq_of_resettled keyed place settled
      have shown := shows_mapBelow (shows.roots_of_eq (kept.trans root)) stored
      exact ⟨t', done,
        shows.childrenAt_swap (n := ⟨t.arena.fresh, x, below⟩) mem child within shown⟩
  · intro past
    rw [length] at past
    rw [stores.substitute_overrun mem child keyed place past]
    exact ⟨_, rfl, shows.drops stores mem child⟩

end Child

/-! ## All three operations -/

/-- Wherever a policy places a new child, an insertion puts it there or at the end. A keyed policy
that places a value past the other children stops the replacement of a child, of its value as of its
subtree, when the child is out of the list and nothing has come in. -/
theorem ReachableUnhalted.places_child (reached : t.ReachableUnhalted) (p : Handle) (x : α)
    (i : Nat) :
    (t.contains p = true → t.policy.place (t.valuesAt (t.childrenAt p)) x = .before i →
      ∃ t' h, t.insert p x = t'.answer h ∧ t.Gains t' p h x ∧
        t'.childrenAt p = (t.childrenAt p).insertIdx (min i (t.childrenAt p).length) h) ∧
    ∀ h, t.policy.keyed = true → t.parent h = .ok (some p) → t.placeAmongOthers p h x = .before i →
      (∃ y, t.get? h = some y ∧ t.PutsOrDrops (t.replaceValue h x) y p h h i) ∧
      ∀ source k slot m, t.slotInParent h = .ok slot → source.value k = .ok x →
        (t.copyBeside slot x source k).outcome = .done m →
        ∃ new, ¬t.contains new = true ∧
          t.PutsOrDrops (t.replaceWithSubtree h source k) new p h new i := by
  obtain ⟨f, shows⟩ := reached.exists_forest
  refine ⟨fun live place => ?_, fun h keyed above place => ?_⟩
  · obtain ⟨n, stored⟩ := Arena.contains_iff.mp live
    obtain ⟨s, mem, rfl, -⟩ := shows.exists_node stored
    rw [shows.stores.childrenAt_eq mem, shows.stores.valuesAt_roots mem] at place
    rcases shows.stores.insert_cases mem x with ⟨k, taken, -⟩ | ⟨k, other, done⟩
    · rw [place] at taken
      cases taken
    · rw [place] at other
      cases other
      exact ⟨_, _, done, shows.gains_attach mem i x, shows.childrenAt_attach mem i x⟩
  · obtain ⟨s, mem, j, c, child, rfl, rfl⟩ := shows.exists_child_of_parent above
    have inside := mem_nodes_of_child mem (List.mem_of_getElem? child)
    rw [shows.stores.placeAmongOthers_eq mem child] at place
    refine ⟨⟨c.value, shows.stores.get?_eq inside,
      shows.replaceValue_puts_or_drops mem child keyed place⟩, ?_⟩
    intro source k slot m located valued copied
    rw [shows.stores.slotInParent_of_child mem child] at located
    cases located
    refine ⟨t.arena.fresh, ?_,
      shows.replaceWithSubtree_puts_or_drops mem child keyed place valued copied⟩
    rw [shows.contains_iff]
    exact shows.stores.fresh_notMem

/-- Every place is past the end here. -/
theorem places_child_sample :
    (∃ (t' : Tree Nat) (h : Handle), (Tree.sample (fixedPlace 9)).insert ⟨1, 0, 0⟩ 4 = t'.answer h ∧
      t'.childrenAt ⟨1, 0, 0⟩ = [⟨1, 1, 0⟩, ⟨1, 2, 0⟩, h]) ∧
    (Tree.sample (fixedPlace 9)).policy.keyed = true ∧
    (Tree.sample (fixedPlace 9)).parent ⟨1, 1, 0⟩ = .ok (some ⟨1, 0, 0⟩) ∧
    (∃ t' : Tree Nat, (Tree.sample (fixedPlace 9)).replaceValue ⟨1, 1, 0⟩ 2 = ⟨.halted, t'⟩ ∧
      (Tree.sample (fixedPlace 9)).Drops t' ⟨1, 0, 0⟩ ⟨1, 1, 0⟩) ∧
    ∃ t' : Tree Nat, (Tree.sample (fixedPlace 9)).replaceWithSubtree ⟨1, 1, 0⟩ (Tree.sample (fixedPlace 9))
        ⟨1, 2, 0⟩ = ⟨.halted, t'⟩ ∧
      (Tree.sample (fixedPlace 9)).Drops t' ⟨1, 0, 0⟩ ⟨1, 1, 0⟩ := by
  have reached := reachableUnhalted_sample (fixedPlace 9)
  have live : (Tree.sample (fixedPlace 9)).contains ⟨1, 0, 0⟩ = true := by decide +kernel
  have children : (Tree.sample (fixedPlace 9)).childrenAt ⟨1, 0, 0⟩ = [⟨1, 1, 0⟩, ⟨1, 2, 0⟩] := by
    decide +kernel
  have few : ((Tree.sample (fixedPlace 9)).others ⟨1, 0, 0⟩ ⟨1, 1, 0⟩).length < 9 := by
    decide +kernel
  have keyed : (Tree.sample (fixedPlace 9)).policy.keyed = true := by
    rw [policy_sample]
    rfl
  have above : (Tree.sample (fixedPlace 9)).parent ⟨1, 1, 0⟩ = .ok (some ⟨1, 0, 0⟩) := by
    decide +kernel
  have place : ∀ siblings x, (Tree.sample (fixedPlace 9)).policy.place siblings x = .before 9 := by
    intro siblings x
    rw [policy_sample]
    rfl
  have located : (Tree.sample (fixedPlace 9)).slotInParent ⟨1, 1, 0⟩ =
      .ok (some (⟨1, 0, 0⟩, 0)) := by decide +kernel
  have valued : (Tree.sample (fixedPlace 9)).value ⟨1, 2, 0⟩ = .ok 2 := by decide +kernel
  have copied : ((Tree.sample (fixedPlace 9)).copyBeside (some (⟨1, 0, 0⟩, 0)) 2
      (Tree.sample (fixedPlace 9)) ⟨1, 2, 0⟩).outcome = .done 0 := by decide +kernel
  obtain ⟨t₁, h, inserted, -, listed⟩ := (reached.places_child ⟨1, 0, 0⟩ 4 9).1 live (place _ 4)
  rw [children] at listed
  obtain ⟨⟨y, -, revalued⟩, substituted⟩ :=
    (reached.places_child ⟨1, 0, 0⟩ 2 9).2 ⟨1, 1, 0⟩ keyed above (place _ 2)
  obtain ⟨new, -, replaced⟩ := substituted _ _ _ _ located valued copied
  exact ⟨⟨t₁, h, inserted, listed⟩, keyed, above, revalued.drops few, replaced.drops few⟩

/-- An insertion puts the new child last, and either replacement of a child halts with one child
left in the list of two. -/
theorem replacements_halt :
    (((Tree.sample (fixedPlace 9)).insert ⟨1, 0, 0⟩ 4).outcome = .done ⟨1, 3, 0⟩ ∧
      ((Tree.sample (fixedPlace 9)).insert ⟨1, 0, 0⟩ 4).tree.childrenAt ⟨1, 0, 0⟩ =
        [⟨1, 1, 0⟩, ⟨1, 2, 0⟩, ⟨1, 3, 0⟩]) ∧
    (((Tree.sample (fixedPlace 9)).replaceValue ⟨1, 1, 0⟩ 4).outcome = .halted ∧
      ((Tree.sample (fixedPlace 9)).replaceValue ⟨1, 1, 0⟩ 4).tree.childrenAt ⟨1, 0, 0⟩ =
        [⟨1, 2, 0⟩]) ∧
    ((Tree.sample (fixedPlace 9)).replaceWithSubtree ⟨1, 1, 0⟩ (Tree.sample (fixedPlace 9))
        ⟨1, 2, 0⟩).outcome = .halted ∧
      ((Tree.sample (fixedPlace 9)).replaceWithSubtree ⟨1, 1, 0⟩ (Tree.sample (fixedPlace 9))
        ⟨1, 2, 0⟩).tree.childrenAt ⟨1, 0, 0⟩ = [⟨1, 2, 0⟩] := by
  decide +kernel

end Tree

end PolicyTree
