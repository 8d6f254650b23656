import PolicyTree.Proofs.Tree.Exchange
import PolicyTree.Proofs.Tree.Guarded
import PolicyTree.Proofs.Tree.Sorting

/-! No guard fails on a tree that shows a forest, so the operations do the same without them. -/

namespace PolicyTree.Tree

open Forest

variable {α : Type} {t : Tree α} {f : Forest α} {q : Option Handle} {rest : List (Handle × Node α)}
  {s c n : Sprig α} {i j : Nat} {x : α}

/-! ## Live siblings -/

theorem Stores.allLive (stores : t.Stores q f rest) {ss : List (Sprig α)}
    (all : ∀ s ∈ ss, s ∈ f.nodes) : t.AllLive (ss.map Sprig.handle) := by
  intro h listed
  obtain ⟨s, mem, rfl⟩ := List.mem_map.mp listed
  exact stores.contains (all s mem)

theorem Stores.allLive_roots (stores : t.Stores q f rest) (mem : s ∈ f.nodes) :
    t.AllLive s.below.roots :=
  stores.allLive fun _ child => mem_nodes_of_child mem child

theorem Shows.allLive_children (shows : t.Shows f) {h : Handle} {n : Node α}
    (live : t.node? h = some n) : t.AllLive n.children := by
  obtain ⟨s, mem, -, -, children⟩ := shows.exists_node live
  exact children ▸ shows.stores.allLive_roots mem

theorem Shows.allLive_childrenAt (shows : t.Shows f) (h : Handle) : t.AllLive (t.childrenAt h) := by
  rw [childrenAt]
  cases live : t.node? h with
  | none => exact List.forall_mem_nil _
  | some n => exact shows.allLive_children live

/-! ## Changes of a child list -/

theorem Stores.relist_eq (stores : t.Stores q f rest) (mem : s ∈ f.nodes)
    {fits : List Handle → Prop} [DecidablePred fits] (ok : fits s.below.roots)
    (change : List Handle → List Handle) :
    Guarded.relist t s.handle fits change = (t.updateChildren s.handle change).answer () := by
  obtain ⟨p, stored⟩ := stores.exists_node? mem
  rw [Guarded.relist, node, stored, require_ok, ensure_of t ok]

theorem Stores.guarded_insert (stores : t.Stores q f rest) (mem : s ∈ f.nodes) (x : α) :
    Guarded.insert t s.handle x = t.insert s.handle x := by
  obtain ⟨p, stored⟩ := stores.exists_node? mem
  rw [Guarded.insert, insert, node, stored, require_ok, require_ok,
    ensure_of t (stores.allLive_roots mem)]
  cases t.policy.place (t.valuesAt s.below.roots) x with
  | taken i => rfl
  | before i =>
    have grown := stores.allocate ⟨x, some s.handle, []⟩
    dsimp only
    rw [grown.relist_eq mem (Nat.min_le_right ..), andThen_answer]
    rfl

theorem Stores.guarded_moveChild (stores : t.Stores q f rest) (mem : s ∈ f.nodes)
    (child : s.below.sprigs[i]? = some c) (j : Nat) (h : Handle) :
    Guarded.moveChild t s.handle i j h = t.moveChild s.handle i j h := by
  have inside := lt_length_roots child
  have plucked := stores.pluck mem child
  have here := mem_nodes_mapBelow_self stores.nodup mem (pluckAt i)
  obtain ⟨p, stored⟩ := plucked.exists_node? here
  have listed := plucked.childrenAt_eq here
  rw [Guarded.moveChild, stores.relist_eq mem inside, andThen_answer, Guarded.relist, node, stored,
    require_ok, Tree.moveChild, listed]
  rfl

/-! ## Copies -/

theorem guarded_copyLevel (source : Tree α) (parent : Handle) {dest : Handle} (hs : List Handle)
    {t : Tree α} {f : Forest α} (stores : t.Stores q f rest) (live : dest ∈ f.handles) :
    Guarded.copyLevel source parent dest hs t = copyLevel source parent dest hs t := by
  -- The copies so far have made the forest grow, and it still has the node that they stand under.
  induction hs generalizing t f with
  | nil => rfl
  | cons h hs ih =>
    rw [Guarded.copyLevel, copyLevel]
    cases source.value h with
    | error e => rw [require_error, require_error]
    | ok x =>
      obtain ⟨s, mem, rfl⟩ := List.mem_map.mp live
      rw [require_ok, require_ok, stores.guarded_insert mem]
      rcases stores.insert_cases mem x with ⟨i, -, refused⟩ | ⟨i, place, done⟩
      · rw [refused, mapError_refuse, andThen_refuse, andThen_refuse]
      · have step := stores.grows_attach mem place
        rw [done, mapError_answer, andThen_answer, andThen_answer,
          ih step.stores (step.grown.handles_subset live)]

theorem guarded_copyPending (source : Tree α) (bound : Nat) {pending : List (Handle × Handle)}
    (copied : Nat) {t : Tree α} {f : Forest α} (stores : t.Stores q f rest)
    (live : ∀ c ∈ pending, c.2 ∈ f.handles) :
    Guarded.copyPending source bound pending copied t =
      copyPending source bound pending copied t := by
  induction bound generalizing pending copied t f with
  | zero => rfl
  | succ bound ih =>
    match pending with
    | [] => rfl
    | (h, dest) :: pending =>
      rw [Guarded.copyPending, copyPending]
      cases source.node h with
      | error e => rw [require_error, require_error]
      | ok n =>
        have here := live _ (List.mem_cons_self ..)
        obtain ⟨f₁, level, -, listed⟩ := copyLevel_grows source h n.children stores here
        rw [require_ok, require_ok, guarded_copyLevel source h n.children stores here]
        cases ended : copyLevel source h dest n.children t with
        | mk outcome t₁ =>
          rw [ended] at level listed
          cases outcome with
          | refused e => rfl
          | halted => rfl
          | done copies =>
            apply ih _ level.stores
            intro c mem
            rcases List.mem_append.mp mem with new | old
            · exact listed copies rfl c (List.mem_reverse.mp new)
            · exact level.grown.handles_subset (live c (List.mem_cons_of_mem _ old))

theorem Stores.guarded_copyBelow (stores : t.Stores q f rest) (source : Tree α) (h dest : Handle)
    (live : dest ∈ f.handles) : Guarded.copyBelow t source h dest = t.copyBelow source h dest := by
  apply guarded_copyPending source source.len 0 stores
  intro c mem
  obtain rfl := List.mem_singleton.mp mem
  exact live

theorem guarded_becomeCopy (t source : Tree α) (h : Handle) (x : α) :
    Guarded.becomeCopy t source h x = t.becomeCopy source h x :=
  (shows_setRoot t x).stores.guarded_copyBelow source h t.freshRoot
    (mem_handles (mem_nodes_single _))

theorem guarded_extract (source : Tree α) (h : Handle) (policy : Policy α) (owners : Owners) :
    Guarded.extract source h policy owners = source.extract h policy owners := by
  rw [Guarded.extract, extract]
  cases source.value h with
  | error e => rfl
  | ok x =>
    dsimp only
    rw [guarded_becomeCopy]

theorem becomeCopy_ne_halted (t source : Tree α) (h : Handle) (x : α) :
    (t.becomeCopy source h x).outcome ≠ .halted := by
  obtain ⟨f', -, goesOn⟩ := (shows_setRoot t x).stores.copyBelow_grows source h t.freshRoot
    (mem_handles (mem_nodes_single _))
  exact goesOn

theorem guarded_clone (source : Tree α) (owners : Owners) :
    Guarded.clone source owners =
      (.done (source.clone owners).1, (source.clone owners).2) := by
  rw [Guarded.clone, clone]
  dsimp only
  cases source.root.bind fun r => (source.get? r).map fun x => (r, x) with
  | none => rfl
  | some top =>
    have goesOn := becomeCopy_ne_halted
      (withCapacity source.policy source.len owners).1 source top.1 top.2
    dsimp only
    rw [guarded_becomeCopy]
    split
    · contradiction
    · rfl

/-! ## Replacements -/

theorem Stores.allLive_others (stores : t.Stores q f rest) (mem : s ∈ f.nodes) (h : Handle) :
    t.AllLive ((t.childrenAt s.handle).filter (· != h)) := by
  rw [stores.childrenAt_eq mem]
  exact fun k kept => stores.allLive_roots mem k (List.mem_of_mem_filter kept)

theorem Stores.guarded_reposition (stores : t.Stores q f rest) (mem : s ∈ f.nodes)
    (child : s.below.sprigs[i]? = some c) (x : α) :
    Guarded.reposition t c.handle x (some (s.handle, i)) =
      t.reposition c.handle x (some (s.handle, i)) := by
  rw [Guarded.reposition, reposition, Guarded.placing,
    ensure_of t (stores.allLive_others mem c.handle)]
  cases t.policy.keyed with
  | false => rfl
  | true =>
    cases t.placeAmongOthers s.handle c.handle x with
    | taken k => rfl
    | before j =>
      dsimp only
      rw [stores.guarded_moveChild mem child]

theorem Shows.guarded_replaceValue (shows : t.Shows f) (h : Handle) (x : α) :
    Guarded.replaceValue t h x = t.replaceValue h x := by
  rw [Guarded.replaceValue, replaceValue]
  rcases shows.locate h with ⟨-, slot⟩ | ⟨s, -, -, -, slot⟩ | ⟨s, mem, i, c, child, rfl, slot⟩
  · rw [slot, require_error, require_error]
  · rw [slot, require_ok, require_ok, Guarded.reposition, reposition]
  · rw [slot, require_ok, require_ok, shows.stores.guarded_reposition mem child]

theorem Stores.guarded_substitute (stores : t.Stores q f (n.records (some s.handle) ++ rest))
    (mem : s ∈ f.nodes) (child : s.below.sprigs[i]? = some c) :
    Guarded.substitute t c.handle n.handle (some (s.handle, i)) =
      t.substitute c.handle n.handle n.value (some (s.handle, i)) := by
  have inside := lt_length_roots child
  have put : ∀ j, Guarded.settle t c.handle n.handle s.handle i (.before j) =
      (if j = i then (t.updateChildren s.handle (·.set i n.handle)).answer ()
        else t.moveChild s.handle i j n.handle).andThen fun _ t =>
          (t.release c.handle).answer n.handle := by
    intro j
    rw [Guarded.settle, stores.relist_eq mem inside, stores.guarded_moveChild mem child]
  rw [Guarded.substitute, substitute, stores.beside.value_eq (mem_nodes_single n)]
  dsimp only
  rw [Guarded.placing, ensure_of t (stores.allLive_others mem c.handle)]
  cases t.policy.keyed with
  | false => exact put i
  | true =>
    cases t.placeAmongOthers s.handle c.handle n.value with
    | taken k => rfl
    | before j => exact put j

theorem Shows.guarded_replaceWithSubtree (shows : t.Shows f) (h : Handle) (source : Tree α)
    (k : Handle) :
    Guarded.replaceWithSubtree t h source k = t.replaceWithSubtree h source k := by
  rw [Guarded.replaceWithSubtree, replaceWithSubtree]
  cases located : t.slotInParent h with
  | error e => rw [require_error, require_error]
  | ok slot =>
    rw [require_ok, require_ok]
    cases source.value k with
    | error e => rw [require_error, require_error]
    | ok x =>
      obtain ⟨below, -, -, -, stores⟩ := shows.stores.copy_beside x (slot.map Prod.fst) source k rfl
      have grown := shows.stores.allocate ⟨x, slot.map Prod.fst, []⟩
      have beside := Stores.beside (s := ⟨t.arena.fresh, x, nil⟩) grown
      rw [require_ok, require_ok]
      dsimp only
      rw [beside.guarded_copyBelow source k t.arena.fresh (mem_handles (mem_nodes_single _))]
      generalize copyBelow _ source k _ = copied at stores ⊢
      obtain ⟨outcome, t₁⟩ := copied
      dsimp only at stores ⊢
      cases outcome with
      | refused e => rfl
      | halted => rfl
      | done copied =>
        dsimp only
        rcases shows.slot_cases located with ⟨s, -, -, rfl⟩ | ⟨s, mem, i, c, child, rfl, rfl⟩
        · rfl
        · exact stores.guarded_substitute mem child

theorem Shows.guarded_replaceSubtree (shows : t.Shows f) (h : Handle) (source : Tree α) :
    Guarded.replaceSubtree t h source = t.replaceSubtree h source := by
  rw [Guarded.replaceSubtree, replaceSubtree]
  cases source.root with
  | none => rfl
  | some k => exact shows.guarded_replaceWithSubtree h source k

/-! ## Erasures and sort requests -/

theorem Shows.guarded_erase (shows : t.Shows f) (h : Handle) :
    Guarded.erase t h = t.erase h := by
  rw [Guarded.erase, erase]
  rcases shows.locate h with ⟨-, slot⟩ | ⟨s, rfl, rfl, -, slot⟩ | ⟨s, mem, i, c, child, rfl, slot⟩
  · rw [slot, require_error, require_error]
  · have valued := shows.stores.value_eq (mem_nodes_single s)
    have still : Tree.value { t with root := none } s.handle = .ok s.value := valued
    rw [slot, require_ok, require_ok, Guarded.detach, andThen_answer, still, valued]
    rfl
  · have inside := lt_length_roots child
    have valued := shows.stores.value_eq (mem_nodes_of_child mem (List.mem_of_getElem? child))
    have plucked := shows.stores.pluck mem child
    rw [slot, require_ok, require_ok, Guarded.detach, shows.stores.relist_eq mem inside,
      andThen_answer, plucked.beside.value_eq (mem_nodes_single c), valued]
    rfl

theorem Stores.guarded_sortRange (stores : t.Stores q f rest) (mem : s ∈ f.nodes) (le : i ≤ j)
    (inside : j ≤ (t.childrenAt s.handle).length) (cmp : α → α → Ordering) :
    Guarded.sortRange t s.handle i j cmp = t.sortRange s.handle i j cmp := by
  have range : ((t.childrenAt s.handle).take j).drop i =
      ((s.below.sprigs.take j).drop i).map Sprig.handle := by
    rw [stores.childrenAt_eq mem, range_roots]
  rw [Guarded.sortRange, sortRange, ensure_of t ⟨le, inside⟩, range,
    stores.sortedHandles_eq cmp (mem_nodes_of_mem_range mem i j)]
  dsimp only
  rw [stores.childrenAt_eq mem] at inside
  apply stores.relist_eq mem
  refine ⟨inside, ?_⟩
  rw [length_roots] at inside
  rw [List.length_map, List.length_mergeSort, List.length_drop, List.length_take,
    Nat.min_eq_left inside]

theorem Shows.guarded_sortBy (shows : t.Shows f) (first : Handle) (last : Option Handle)
    (cmp : α → α → Ordering) : Guarded.sortBy t first last cmp = t.sortBy first last cmp := by
  rw [Guarded.sortBy, sortBy]
  rcases shows.locate first with ⟨-, slot⟩ | ⟨s, -, -, -, slot⟩ | ⟨s, mem, i, c, -, rfl, slot⟩
  · rw [slot, require_error, require_error]
  · rw [slot, require_ok, require_ok]
  · rw [slot, require_ok, require_ok]
    dsimp only
    rcases shows.rangeEnd_cases s.handle c.handle last with
      ⟨j, inside, ends⟩ | ⟨k, -, ⟨-, missed⟩ | apart⟩
    · rw [ends, require_ok, require_ok]
      by_cases reversed : j < i
      · rw [if_pos reversed, if_pos reversed]
      · rw [if_neg reversed, if_neg reversed,
          shows.stores.guarded_sortRange mem (Nat.le_of_not_lt reversed) inside]
    · rw [missed, require_error, require_error]
    · rw [apart, require_error, require_error]

theorem Shows.guarded_sortChildrenBy (shows : t.Shows f) (h : Handle) (cmp : α → α → Ordering) :
    Guarded.sortChildrenBy t h cmp = t.sortChildrenBy h cmp := by
  rw [Guarded.sortChildrenBy, sortChildrenBy]
  cases t.children h with
  | error e => rw [require_error, require_error]
  | ok hs =>
    rw [require_ok, require_ok]
    cases hs with
    | nil => rfl
    | cons first hs => exact shows.guarded_sortBy first none cmp

theorem Shows.guarded_perform (shows : t.Shows f) (e : Edit (Tree α) α) :
    Guarded.perform t e = t.perform e := by
  cases e with
  | setRoot x => rfl
  | clear => rfl
  | insert parent x =>
    cases live : t.node? parent with
    | none => rw [Guarded.perform, Tree.perform, Guarded.insert, insert, node, live, require_error,
        require_error]
    | some n =>
      obtain ⟨s, mem, rfl, -⟩ := shows.exists_node live
      rw [Guarded.perform, Tree.perform, shows.stores.guarded_insert mem]
  | replaceValue h x => rw [Guarded.perform, Tree.perform, shows.guarded_replaceValue]
  | replaceSubtree h source => rw [Guarded.perform, Tree.perform, shows.guarded_replaceSubtree]
  | replaceWithSubtree h source k =>
    rw [Guarded.perform, Tree.perform, shows.guarded_replaceWithSubtree]
  | erase h => rw [Guarded.perform, Tree.perform, shows.guarded_erase]
  | eraseChildren h => rfl
  | sortBy first last cmp => rw [Guarded.perform, Tree.perform, shows.guarded_sortBy]
  | sortChildrenBy h cmp => rw [Guarded.perform, Tree.perform, shows.guarded_sortChildrenBy]
  | sortChildren h =>
    rw [Guarded.perform, Tree.perform, Guarded.sortChildren, sortChildren,
      shows.guarded_sortChildrenBy]

/-! ## Lookups and checks -/

theorem Shows.guarded_search (shows : t.Shows f) (target : α) (bound : Nat)
    (pending : List Handle) :
    Guarded.search t target bound pending = t.answer (t.search target bound pending) := by
  induction bound generalizing pending with
  | zero => rfl
  | succ bound ih =>
    cases pending with
    | nil => rfl
    | cons h pending =>
      rw [Guarded.search, search, ensure_of t (shows.allLive_childrenAt h)]
      cases t.searchRound target h pending with
      | ended answer => rfl
      | going pending => exact ih pending

theorem Shows.guarded_find (shows : t.Shows f) (target : α) :
    Guarded.find t target = t.answer (t.find target) := by
  rw [Guarded.find, find]
  cases t.root with
  | none => rfl
  | some r =>
    dsimp only [Option.bind_some]
    cases live : t.node? r with
    | none => simp [live]
    | some n =>
      simp only [Option.map_some, live, bind, Option.bind_some]
      rw [shows.guarded_search]
      split <;> rfl

/-- The guarded order check finds the first fault. -/
theorem guarded_checkOrder (p : Handle) (earlier : List Handle) {later : List Handle}
    (live : t.AllLive (earlier ++ later)) :
    Guarded.checkOrder t p (earlier ++ later) earlier.length later =
      ((t.orderFault p earlier later).elim (t.answer ()) t.refuse) := by
  induction later generalizing earlier with
  | nil => rfl
  | cons c later ih =>
    have shown : (earlier ++ c :: later).take earlier.length = earlier := by simp
    have before : t.AllLive earlier := fun h mem => live h (List.mem_append_left _ mem)
    have next := ih (earlier ++ [c]) (by simpa using live)
    rw [List.append_assoc, List.singleton_append, List.length_append, List.length_singleton] at next
    rw [Guarded.checkOrder, orderFault, node, shown]
    cases t.node? c with
    | none => rfl
    | some n =>
      rw [require_ok, ensure_of t ⟨by simp, before⟩]
      dsimp only
      split
      · exact next
      · rfl

theorem guarded_checkSiblings (p : Handle) {hs : List Handle} (live : t.AllLive hs) :
    Guarded.checkSiblings t p hs = (t.siblingFault p hs).elim (t.answer ()) t.refuse := by
  rw [Guarded.checkSiblings, siblingFault]
  split
  · exact guarded_checkOrder p [] live
  · rfl

theorem Shows.guarded_auditRounds (shows : t.Shows f) (bound : Nat) (a : Agenda) :
    Guarded.auditRounds t bound a =
      ((t.auditRounds bound a).bind Finding.fault).elim (t.answer ()) t.refuse := by
  -- Nothing is known of the agenda: a node taken from it is dead, or all its children are live.
  induction bound generalizing a with
  | zero => rfl
  | succ bound ih =>
    obtain ⟨reached, pending⟩ := a
    cases pending with
    | nil =>
      unfold Guarded.auditRounds auditRounds
      dsimp only [Option.bind_some]
      split <;> rfl
    | cons h pending =>
      rw [Guarded.auditRounds, auditRounds, node]
      cases live : t.node? h with
      | none => rfl
      | some n =>
        rw [require_ok]
        dsimp only
        rw [guarded_checkSiblings h (shows.allLive_children live)]
        cases (t.enlist h n.children ⟨reached + 1, pending⟩).fault with
        | some e => rfl
        | none =>
          cases t.siblingFault h n.children with
          | some e => rfl
          | none => exact ih _

theorem Shows.guarded_check (shows : t.Shows f) :
    Guarded.check t = t.require t.check t.answer := by
  rw [Guarded.check, check]
  cases t.root with
  | none =>
    dsimp only
    split <;> rfl
  | some r =>
    dsimp only
    cases t.node r with
    | error e => rfl
    | ok n =>
      rw [require_ok, shows.guarded_auditRounds, ← audit]
      simp only [bind, Except.bind]
      cases n.parent.isSome with
      | true => rfl
      | false => cases (t.audit r).bind Finding.fault <;> rfl

end PolicyTree.Tree
