import PolicyTree.Proofs.Tree.Cloning
import PolicyTree.Proofs.Tree.Ledger
import PolicyTree.Proofs.Tree.Substitution

/-! Under a policy that appends, siblings stand in the order of their ranks. -/

namespace PolicyTree

open Forest

variable {α σ : Type}

namespace Forest

variable {l : Ledger} {f f' b : Forest α} {g : Forest α → Forest α} {s c n : Sprig α} {i : Nat}

/-! ## Forests in order -/

/-- Every node has been entered, and the ranks rise along the children of every node. -/
def Dated (l : Ledger) (f : Forest α) : Prop :=
  ∀ s ∈ f.nodes, l.rank s.handle < l.clock ∧ l.Rises s.below.roots

theorem dated_nil (l : Ledger) : (nil : Forest α).Dated l := nofun

theorem dated_single_iff :
    (ofSprigs [s]).Dated l ↔
      (l.rank s.handle < l.clock ∧ l.Rises s.below.roots) ∧ s.below.Dated l := by
  rw [Dated, nodes_single]
  exact List.forall_mem_cons

theorem Dated.single (dated : f.Dated l) (mem : s ∈ f.nodes) : (ofSprigs [s]).Dated l := by
  intro c inside
  rw [nodes_single] at inside
  exact dated c ((nodes_sublist mem).subset inside)

/-- The value of a node has no rank. -/
theorem dated_revalue (dated : (ofSprigs [s]).Dated l) (x : α) :
    (ofSprigs [⟨s.handle, x, s.below⟩]).Dated l := by
  obtain ⟨here, inside⟩ := dated_single_iff.mp dated
  exact dated_single_iff.mpr ⟨here, inside⟩

theorem dated_iff_sprigs : f.Dated l ↔ ∀ s ∈ f.sprigs, (ofSprigs [s]).Dated l := by
  rw [Dated, nodes_eq_flatMap, List.forall_mem_flatMap]
  simp only [Dated, nodes_single]

/-- A change of one list keeps the order if it leaves the list and all below it in order. -/
theorem Dated.mapBelow (dated : f.Dated l) (nodup : f.handles.Nodup) (mem : s ∈ f.nodes)
    (list : l.Rises (g s.below).roots) (inside : (g s.below).Dated l) :
    (f.mapBelow s.handle g).Dated l := by
  intro c changed
  rcases mem_nodes_mapBelow changed with ⟨k, old, -, rfl⟩ | ⟨k, old, same, new⟩
  · rw [roots_mapBelow]
    exact dated k old
  · obtain rfl := node_unique nodup old mem same
    rcases new with rfl | new
    · exact ⟨(dated k old).1, list⟩
    · exact inside c new

theorem Dated.pluckAt (dated : b.Dated l) (i : Nat) : (b.pluckAt i).Dated l := by
  rw [dated_iff_sprigs] at dated ⊢
  intro s mem
  rw [Forest.pluckAt, sprigs_ofSprigs] at mem
  exact dated s (List.eraseIdx_subset mem)

/-- A sprig in order may take the place of a child of equal rank. -/
theorem Dated.swap (dated : f.Dated l) (nodup : f.handles.Nodup) (mem : s ∈ f.nodes)
    (child : s.below.sprigs[i]? = some c) (new : (ofSprigs [n]).Dated l)
    (same : l.rank n.handle = l.rank c.handle) :
    (f.mapBelow s.handle (swapAt i i n)).Dated l := by
  have below := (dated_single_iff.mp (dated.single mem)).2
  apply dated.mapBelow nodup mem
  · rw [roots_swapAt_self (List.getElem?_eq_some_iff.mp child).1]
    refine Ledger.Rises.set (h := c.handle) (dated s mem).2 ?_ same
    rw [getElem?_roots, child]
    rfl
  · rw [dated_iff_sprigs]
    intro d listed
    rcases List.mem_cons.mp ((sprigs_plantAt_perm i n _).mem_iff.mp listed) with rfl | kept
    · exact new
    · exact dated_iff_sprigs.mp (below.pluckAt i) d kept

end Forest

namespace Tree

variable {l : Ledger} {t : Tree α} {f : Forest α} {q : Option Handle}
  {rest : List (Handle × Node α)} {h k : Handle} {source : Tree α}

theorem Stores.dated (stores : t.Stores q f rest) (dates : l.Dates t) : f.Dated l := by
  intro s mem
  obtain ⟨p, stored⟩ := stores.exists_node? mem
  exact ⟨dates.entered _ (stores.contains mem), dates.rises _ _ stored⟩

theorem Shows.dates_of_dated (shows : t.Shows f) (dated : f.Dated l) : l.Dates t where
  tidy := shows.holds.tidy
  entered h live := by
    obtain ⟨s, mem, rfl⟩ := List.mem_map.mp (shows.contains_iff.mp live)
    exact (dated s mem).1
  linked h n stored c child := by
    obtain ⟨s, mem, -, -, children⟩ := shows.exists_node stored
    rw [← children] at child
    obtain ⟨d, under, rfl⟩ := List.mem_map.mp child
    exact shows.stores.contains (mem_nodes_of_child mem under)
  rises h n stored := by
    obtain ⟨s, mem, -, -, children⟩ := shows.exists_node stored
    rw [← children]
    exact (dated s mem).2

end Tree

/-! ## Edits -/

/-- The node in whose place the edit puts a copy. -/
def Edit.replaced : Edit σ α → Option Handle
  | replaceSubtree h _ | replaceWithSubtree h _ _ => some h
  | _ => none

/-- The tree that the edit copies from, and the node whose subtree it copies. -/
def Edit.original : Edit (Tree α) α → Option (Tree α × Handle)
  | replaceSubtree _ source => source.root.map fun k => (source, k)
  | replaceWithSubtree _ source k => some (source, k)
  | _ => none

def Edit.sorts : Edit σ α → Bool
  | sortBy .. | sortChildrenBy .. | sortChildren .. => true
  | _ => false

namespace Tree

variable {l : Ledger} {t : Tree α} {f : Forest α} {h k new : Handle} {source : Tree α}
  {e : Edit (Tree α) α}

/-- The nodes that a copy beside the tree stores below its root if it succeeds, in order. -/
def createdBeside (t : Tree α) (slot : Option (Handle × Nat)) (x : α) (source : Tree α)
    (k : Handle) : List Handle :=
  createdBelow { t with arena := t.arena.allocate ⟨x, slot.map Prod.fst, []⟩ } source k
    t.arena.fresh

def createdWithCopy (t : Tree α) (h : Handle) (source : Tree α) (k : Handle) : List Handle :=
  match t.slotInParent h, source.value k with
  | .ok slot, .ok x => t.createdBeside slot x source k
  | _, _ => []

/-- The nodes that the edit stores besides the one that it answers with, in order. -/
def createdBy (t : Tree α) : Edit (Tree α) α → List Handle
  | .replaceSubtree h source => source.root.elim [] (t.createdWithCopy h source)
  | .replaceWithSubtree h source k => t.createdWithCopy h source k
  | _ => []

end Tree

/-- The ledger after an edit. An edit that answers with a handle has stored a node. The root of a
copy takes over the rank of the node that it replaces, any other node is entered. -/
def Ledger.after (l : Ledger) (t : Tree α) (e : Edit (Tree α) α) : Ledger :=
  match (t.perform e).outcome, e.replaced with
  | .done (.handle new), some h => (l.inherit h new).enterAll (t.createdBy e)
  | .done (.handle new), none => l.enter new
  | _, _ => l

namespace Tree

variable {l : Ledger} {t : Tree α} {f : Forest α} {h k new : Handle} {source : Tree α}
  {e : Edit (Tree α) α}

/-- An edit that answers with something else has stored nothing. -/
theorem after_of_map {β : Type} {r : Reply α β} {c : β → Answer α}
    (performed : t.perform e = r.map c) (other : ∀ b h, c b ≠ .handle h) (l : Ledger) :
    l.after t e = l := by
  rw [Ledger.after, performed, outcome_map]
  cases r.outcome with
  | done b =>
    rw [Outcome.map]
    split
    case h_1 answered _ => exact absurd (Outcome.done.inj answered) (other b _)
    case h_2 answered _ => exact absurd (Outcome.done.inj answered) (other b _)
    case h_3 => rfl
  | refused e => rfl
  | halted => rfl

/-! ## Copies in the place of a subtree -/

section WholeTree

variable (root : source.root = some k)
include root

/-- A whole tree is copied from its root. -/
theorem perform_replaceSubtree :
    t.perform (.replaceSubtree h source) = t.perform (.replaceWithSubtree h source k) := by
  rw [perform, perform, replaceSubtree, root]

theorem after_replaceSubtree (l : Ledger) :
    l.after t (.replaceSubtree h source) = l.after t (.replaceWithSubtree h source k) := by
  rw [Ledger.after, Ledger.after, perform_replaceSubtree root, createdBy, createdBy, root]
  rfl

end WholeTree

/-- A replacement that succeeds copies some subtree. -/
theorem perform_of_replaced {a : Answer α} (replaces : e.replaced = some h)
    (done : (t.perform e).outcome = .done a) :
    ∃ source k, e.original = some (source, k) ∧
      t.perform e = t.perform (.replaceWithSubtree h source k) ∧
      ∀ l : Ledger, l.after t e = l.after t (.replaceWithSubtree h source k) := by
  cases e with
  | replaceSubtree g source =>
    cases replaces
    cases root : source.root with
    | none =>
      rw [perform, replaceSubtree, root] at done
      cases done
    | some k =>
      refine ⟨source, k, ?_, perform_replaceSubtree root, after_replaceSubtree root⟩
      rw [Edit.original, root]
      rfl
  | replaceWithSubtree g source k =>
    cases replaces
    exact ⟨source, k, rfl, rfl, fun _ => rfl⟩
  | _ => cases replaces

/-- The root of a copy is stored first, with the rank of `h`, and then all that is below it. -/
theorem dates_copyBeside (dates : l.Dates t) (appends : t.policy.place = Policy.append)
    (live : t.contains h = true) {slot : Option (Handle × Nat)} {x : α} {m : Nat}
    (done : (t.copyBeside slot x source k).outcome = .done m) :
    let after := (l.inherit h t.arena.fresh).enterAll (t.createdBeside slot x source k)
    after.Dates (t.copyBeside slot x source k).tree ∧
      after.rank t.arena.fresh = after.rank h := by
  have started := dates.allocate (m := l.inherit h t.arena.fresh)
    (fun _ other => Ledger.rank_inherit_of_ne other l h) (Nat.le_refl _)
    (by rw [Ledger.rank_inherit_self]; exact dates.entered h live) x (slot.map Prod.fst)
  have enters := started.enters_copyBelow appends source k t.arena.fresh done
  have first := enters.fresh t.arena.fresh
  have old := enters.fresh h
  refine ⟨enters.dates, ?_⟩
  rw [createdBeside, Ledger.rank_enterAll_of_notMem, Ledger.rank_enterAll_of_notMem,
    Ledger.rank_inherit_self, Ledger.rank_inherit_of_ne (dates.ne_fresh live)]
  · exact fun mem => old mem (dates.tidy.contains_allocate live _)
  · exact fun mem => first mem (Arena.contains_iff.mpr ⟨_, dates.tidy.get?_allocate_self _⟩)

/-- A copy takes the place of a subtree together with the rank of its root. -/
theorem Shows.dates_replaceWithSubtree (shows : t.Shows f)
    (appends : t.policy.place = Policy.append) (unkeyed : t.policy.keyed = false)
    (dates : l.Dates t) (h : Handle) (source : Tree α) (k : Handle) :
    ((∃ e, (t.replaceWithSubtree h source k).outcome = .refused e) ∧
        l.Dates (t.replaceWithSubtree h source k).tree) ∨
      ∃ new, (t.replaceWithSubtree h source k).outcome = .done new ∧
        ((l.inherit h new).enterAll (t.createdWithCopy h source k)).Dates
          (t.replaceWithSubtree h source k).tree := by
  have inRange := Policy.inRange_of_unkeyed unkeyed
  have dated := shows.stores.dated dates
  rcases shows.replaceWithSubtree_stages h source k with
    ⟨e, refused, shown⟩ | ⟨slot, x, m, below, located, valued, finished, root, policy, -, stores⟩
  · exact .inl ⟨⟨e, refused⟩, shown.dates_of_dated dated⟩
  · have created : t.createdWithCopy h source k = t.createdBeside slot x source k := by
      rw [createdWithCopy, located, valued]
    obtain ⟨copied, same⟩ :=
      dates_copyBeside dates appends (contains_of_slotInParent located) finished
    rw [← created] at copied same
    -- The same ledger dates the forest and the copy beside it, whose root has the rank of `h`.
    have upper := stores.dated copied
    have lower := stores.beside.dated copied
    rw [replaceWithSubtree_of_done located valued finished]
    rcases shows.substitute_beside (.inl inRange) located root policy stores with
      ⟨s, -, i, c, k, -, -, keyed, -⟩ | ⟨t', done, ⟨s, -, -, shown⟩ |
        ⟨s, mem, i, j, c, child, rfl, settled, shown⟩⟩
    · rw [unkeyed] at keyed
      cases keyed
    · dsimp only at done
      rw [done]
      exact .inr ⟨_, rfl, shown.dates_of_dated lower⟩
    · dsimp only at done
      obtain rfl := settled.eq_of_unkeyed unkeyed
      rw [done]
      exact .inr ⟨_, rfl, shown.dates_of_dated (upper.swap shows.nodup mem child lower same)⟩

/-! ## All edits -/

theorem dates_setRoot (l : Ledger) (t : Tree α) (x : α) :
    (l.enter t.freshRoot).Dates (t.setRoot x) := by
  apply (shows_setRoot t x).dates_of_dated
  rw [dated_single_iff]
  refine ⟨⟨?_, List.Pairwise.nil⟩, dated_nil _⟩
  rw [Ledger.rank_enter_self]
  exact Nat.lt_succ_self _

theorem Shows.dates_replaceValue (shows : t.Shows f) (unkeyed : t.policy.keyed = false)
    (dates : l.Dates t) (h : Handle) (x : α) : l.Dates (t.replaceValue h x).tree := by
  have inRange := Policy.inRange_of_unkeyed unkeyed
  have dated := shows.stores.dated dates
  rcases shows.replaceValue_cases h x (.inl inRange) with ⟨-, dead⟩ | ⟨s, rfl, -, -, shown⟩ |
    ⟨s, mem, i, c, child, -, ⟨k, keyed, -, -⟩ | ⟨j, settled, -, shown⟩⟩
  · rwa [dead]
  · exact shown.dates_of_dated (dated_revalue dated x)
  · rw [unkeyed] at keyed
    cases keyed
  · obtain rfl := settled.eq_of_unkeyed unkeyed
    have old := dated.single (mem_nodes_of_child mem (List.mem_of_getElem? child))
    exact shown.dates_of_dated (dated.swap shows.nodup mem child (dated_revalue old x) rfl)

theorem Shows.dates_erase (shows : t.Shows f) (dates : l.Dates t) (h : Handle) :
    l.Dates (t.erase h).tree := by
  have dated := shows.stores.dated dates
  rcases shows.erase_cases h with ⟨-, dead⟩ | ⟨s, -, -, -, shown⟩ | ⟨s, mem, i, c, -, -, -, shown⟩
  · rwa [dead]
  · exact shown.dates_of_dated (dated_nil l)
  · refine shown.dates_of_dated (dated.mapBelow shows.nodup mem ?_ ?_)
    · rw [roots_pluckAt]
      exact (dated s mem).2.sublist (List.eraseIdx_sublist ..)
    · exact (dated_single_iff.mp (dated.single mem)).2.pluckAt i

theorem Shows.dates_eraseChildren (shows : t.Shows f) (dates : l.Dates t) (h : Handle) :
    l.Dates (t.eraseChildren h).tree := by
  have dated := shows.stores.dated dates
  rcases shows.eraseChildren_cases h with ⟨-, dead⟩ | ⟨s, mem, rfl, -, shown⟩
  · rwa [dead]
  · exact shown.dates_of_dated
      (dated.mapBelow shows.nodup mem List.Pairwise.nil (dated_nil l))

/-- Every edit but a sort request keeps the siblings in the order of their ranks. -/
theorem Shows.dates_perform (shows : t.Shows f) (appends : t.policy.place = Policy.append)
    (unkeyed : t.policy.keyed = false) (dates : l.Dates t) (unsorted : e.sorts = false) :
    (l.after t e).Dates (t.perform e).tree := by
  have substituted : ∀ {h source k}, (l.after t (.replaceWithSubtree h source k)).Dates
      (t.replaceWithSubtree h source k).tree := by
    intro h source k
    rcases shows.dates_replaceWithSubtree appends unkeyed dates h source k with
      ⟨⟨e, refused⟩, same⟩ | ⟨new, done, copied⟩
    · rw [Ledger.after, Tree.perform, outcome_map, refused]
      exact same
    · rw [Ledger.after, Tree.perform, outcome_map, done]
      exact copied
  cases e with
  | setRoot x => exact dates_setRoot l t x
  | clear => exact (shows_clear t).dates_of_dated (dated_nil l)
  | insert parent x =>
    rcases shows.insert_cases parent x with
      ⟨-, dead⟩ | ⟨s, -, -, ⟨i, -, refused⟩ | ⟨i, -, -, done, -⟩⟩
    · rw [Ledger.after, Tree.perform, dead]
      exact dates
    · rw [Ledger.after, Tree.perform, refused]
      exact dates
    · rw [Ledger.after, Tree.perform, outcome_map, done]
      exact (dates.enters_insert appends done).dates
  | replaceValue h x =>
    rw [after_of_map (c := .value) rfl fun _ _ answered => by cases answered]
    exact shows.dates_replaceValue unkeyed dates h x
  | replaceSubtree h source =>
    cases root : source.root with
    | none =>
      rw [Ledger.after, Tree.perform, replaceSubtree, root]
      exact dates
    | some k =>
      rw [perform_replaceSubtree root, after_replaceSubtree root]
      exact substituted
  | replaceWithSubtree h source k => exact substituted
  | erase h =>
    rw [after_of_map (c := .value) rfl fun _ _ answered => by cases answered]
    exact shows.dates_erase dates h
  | eraseChildren h =>
    rw [after_of_map (c := .count) rfl fun _ _ answered => by cases answered]
    exact shows.dates_eraseChildren dates h
  | sortBy | sortChildrenBy | sortChildren => cases unsorted

/-- A copy sits where the node sat that it replaces. -/
theorem Shows.slotInParent_of_replaced (shows : t.Shows f) (unkeyed : t.policy.keyed = false)
    (done : (t.replaceWithSubtree h source k).outcome = .done new) :
    (t.replaceWithSubtree h source k).tree.slotInParent new = t.slotInParent h := by
  have inRange := Policy.inRange_of_unkeyed unkeyed
  rcases shows.replaceWithSubtree_cases h source k (.inl inRange) with
    ⟨e, refused, -⟩ | ⟨n, finished, -, -, ⟨s, rfl, rfl, shown⟩ |
      ⟨s, mem, i, j, c, child, rfl, settled, shown⟩⟩
  · rw [refused] at done
    cases done
  · rw [finished] at done
    cases done
    rw [shown.slotInParent_of_root shown.root_eq_some,
      shows.slotInParent_of_root shows.root_eq_some]
  · rw [finished] at done
    cases done
    obtain rfl := settled.eq_of_unkeyed unkeyed
    have inside := (List.getElem?_eq_some_iff.mp child).1
    have here := mem_nodes_mapBelow_self shows.nodup mem (swapAt j j n)
    have put : (s.below.swapAt j j n).sprigs[j]? = some n := by
      rw [swapAt_self inside, sprigs_ofSprigs, List.getElem?_set_self inside]
    rw [shown.stores.slotInParent_of_child here put, shows.stores.slotInParent_of_child mem child]

/-- The copies of siblings have been entered in the order of the siblings. -/
theorem Shows.copies_rise (shows : t.Shows f) (appends : t.policy.place = Policy.append)
    (unkeyed : t.policy.keyed = false) (dates : l.Dates t) {g : Forest α} (origin : source.Shows g)
    (done : (t.replaceWithSubtree h source k).outcome = .done new) :
    ∃ p partner, t.parent h = .ok p ∧ partner k = new ∧
      (t.replaceWithSubtree h source k).tree.CopiesUnder source k p some partner ∧
      ∀ m ∈ source.subtree k,
        (l.after t (.replaceWithSubtree h source k)).Rises ((source.childrenAt m).map partner) := by
  have dated := shows.dates_perform appends unkeyed dates (e := .replaceWithSubtree h source k) rfl
  rcases shows.replaceWithSubtree_stages h source k with
    ⟨e, refused, -⟩ | ⟨slot, x, -, -, located, valued, -⟩
  · rw [refused] at done
    cases done
  · obtain ⟨s, mem, rfl⟩ := origin.exists_of_value valued
    obtain ⟨p, t', root, above, replaced, substitutes, -⟩ :=
      shows.substitutes_settled (Policy.inRange_of_unkeyed unkeyed) origin mem
        (contains_of_slotInParent located) unkeyed
        fun _ _ => Policy.arrange_of_append appends _
    obtain ⟨partner, named, copied⟩ := substitutes.copied
    rw [Tree.perform, tree_map, replaced] at dated
    rw [replaced] at done ⊢
    cases done
    refine ⟨p, partner, above, named, copied, fun m inside => ?_⟩
    rw [childrenAt]
    cases stored : source.node? m with
    | none => exact List.Pairwise.nil
    | some n =>
      obtain ⟨hs, same, copy⟩ := copied.node?_eq m inside n stored
      cases same
      exact dated.rises _ _ copy

end Tree

/-! ## New trees -/

namespace Ledger

/-- The ledger of a tree that becomes a copy. -/
def ofCopy (t source : Tree α) (h : Handle) (x : α) : Ledger :=
  (blank.enter t.freshRoot).enterAll ((t.setRoot x).createdBelow source h t.freshRoot)

def ofClone (source : Tree α) (owners : Owners) : Ledger :=
  match source.root.bind fun r => (source.get? r).map fun x => (r, x) with
  | none => blank
  | some (r, x) => ofCopy (Tree.withCapacity source.policy source.len owners).1 source r x

end Ledger

namespace Tree

variable {t : Tree α} {f : Forest α} {h : Handle} {source : Tree α} {x : α}

theorem dates_withCapacity (policy : Policy α) (capacity : Nat) (owners : Owners) :
    Ledger.blank.Dates (withCapacity policy capacity owners).1 :=
  (shows_withCapacity policy capacity owners).dates_of_dated (dated_nil _)

theorem dates_becomeCopy (appends : t.policy.place = Policy.append) {m : Nat}
    (done : (t.becomeCopy source h x).outcome = .done m) :
    (Ledger.ofCopy t source h x).Dates (t.becomeCopy source h x).tree :=
  ((dates_setRoot .blank t x).enters_copyBelow appends source h t.freshRoot done).dates

/-- Where a policy appends, the children of no node clash, so a clone is whole. -/
theorem Shows.dates_clone (shows : t.Shows f) (appends : t.policy.place = Policy.append)
    (owners : Owners) : (Ledger.ofClone t owners).Dates (t.clone owners).1 := by
  rcases shows.clone_cases owners with ⟨noRoot, -, made⟩ | ⟨k, root, rfl, valued, made⟩
  · rw [made, Ledger.ofClone, noRoot]
    exact dates_withCapacity ..
  · have settled : ∀ s ∈ k.nodes, s.clashes t.policy = false := by
      intro s _
      rw [Sprig.clashes, Policy.arrange_of_append appends]
      rfl
    have clear := find?_clashes_eq_none_iff.mpr settled
    rw [made, Ledger.ofClone, root, Option.bind_some, valued]
    rcases becomeCopy_cases shows.stores (mem_nodes_single k)
        (withCapacity t.policy t.len owners).1 with ⟨c, first, -⟩ | ⟨-, m, partner, done, -⟩
    · rw [show (withCapacity t.policy t.len owners).1.policy = t.policy from rfl, clear] at first
      cases first
    · exact dates_becomeCopy appends done

end Tree

end PolicyTree
