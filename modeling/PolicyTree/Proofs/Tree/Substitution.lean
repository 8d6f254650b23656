import Mathlib.Data.Set.Card
import PolicyTree.Proofs.Tree.Extraction
import PolicyTree.Proofs.Tree.Resettling

/-! What the replacement of a subtree by a copy makes of a tree. -/

namespace PolicyTree.Tree

open Forest

variable {α : Type} {t t' source : Tree α} {f g : Forest α} {p : Option Handle}
  {sourceRest : List (Handle × Node α)} {s c k : Sprig α} {i j : Nat}
  {cmp : α → α → Ordering} {h : Handle} {partner : Handle → Handle}
  {order : List Handle → Option (List Handle)}

/-! ## Outcomes -/

/-- A subtree is replaced by a replica, or refused at the first clash in the source, or, where the
copy is free of clashes, because a sibling has the key of the copied root. -/
theorem Shows.replaceWithSubtree_exact (shows : t.Shows f) (inRange : t.policy.InRange)
    (stored : source.Stores p g sourceRest) (mem : k ∈ g.nodes) (live : t.contains h = true) :
    (∃ c, k.backward.find? (Sprig.clashes t.policy) = some c ∧
        (t.replaceWithSubtree h source k.handle).outcome = .refused (.duplicateKey c.handle)) ∨
      k.backward.find? (Sprig.clashes t.policy) = none ∧
        ((∃ s ∈ f.nodes, ∃ i c m, s.below.sprigs[i]? = some c ∧ c.handle = h ∧
            t.policy.keyed = true ∧
            t.policy.place (s.below.pluckAt i).rootValues k.value = .taken m ∧
            (t.replaceWithSubtree h source k.handle).outcome =
              .refused (.duplicateKey s.handle)) ∨
          ∃ partner, ∃ t' : Tree α,
            t.replaceWithSubtree h source k.handle = t'.answer (partner k.handle) ∧
            (∀ m ∈ (k.replica t.policy partner).handles, m ∉ f.handles) ∧
            ((∃ s, f = ofSprigs [s] ∧ s.handle = h ∧
                t'.Shows (ofSprigs [k.replica t.policy partner])) ∨
              ∃ s ∈ f.nodes, ∃ i j c, s.below.sprigs[i]? = some c ∧ c.handle = h ∧
                Resettled t.policy s.below i k.value j ∧
                t'.Shows
                  (f.mapBelow s.handle (swapAt i j (k.replica t.policy partner))))) := by
  obtain ⟨slot, located⟩ : ∃ slot, t.slotInParent h = .ok slot := by
    rcases shows.locate h with ⟨dead, -⟩ | ⟨-, -, -, -, slot⟩ | ⟨s, -, i, -, -, -, slot⟩
    · exact absurd live (Arena.not_contains_iff.mpr dead)
    · exact ⟨_, slot⟩
    · exact ⟨_, slot⟩
  have held : (t.arena.allocate ⟨k.value, slot.map Prod.fst, []⟩).Holds
      ((t.arena.fresh, ⟨k.value, slot.map Prod.fst, []⟩) :: f.records none) :=
    shows.holds.allocate _
  have valued := stored.value_eq mem
  obtain ⟨-, root, policy, -⟩ := shows.stores.copyBeside_spec slot k.value source k.handle
  rcases copyBelow_cases (q := slot.map Prod.fst)
      (t := { t with arena := t.arena.allocate ⟨k.value, slot.map Prod.fst, []⟩ }) stored mem held
    with ⟨c, first, refused⟩ | ⟨clear, m, partner, done, named, holds⟩
  · rw [replaceWithSubtree_of_refused located valued refused]
    exact .inl ⟨c, first, rfl⟩
  · have beside : (t.copyBeside slot k.value source k.handle).tree.Stores none f
        ((k.replica t.policy partner).records (slot.map Prod.fst) ++ []) := by
      rw [List.append_nil]
      exact Arena.Holds.perm holds List.perm_append_comm
    have placed := shows.substitute_beside (.inl inRange) located root policy beside
    rw [Sprig.handle_replica, named, Sprig.value_replica] at placed
    rw [replaceWithSubtree_of_done located valued done]
    refine .inr ⟨clear, ?_⟩
    rcases placed with ⟨s, inside, i, c, m, child, here, keyed, place, t', refused, -⟩ |
      ⟨t', done, placed⟩
    · rw [refused]
      exact .inl ⟨s, inside, i, c, m, child, here, keyed, place, rfl⟩
    · rw [done]
      exact .inr ⟨partner, t', by rw [named], beside.apart, placed⟩

/-! ## The copy in its place -/

/-- `partner` takes the subtree of `k` in `source` one to one to that of the copy of `k`, which
hangs under `above`. Values stay, every other copy hangs under the copy of the parent, and siblings
are in the sequence that `order` makes of the handles copied. -/
structure CopiesUnder (t source : Tree α) (k : Handle) (above : Option Handle)
    (order : List Handle → Option (List Handle)) (partner : Handle → Handle) : Prop where
  bijOn : Set.BijOn partner (source.subtree k) (t.subtree (partner k))
  node?_eq : ∀ h ∈ source.subtree k, ∀ n, source.node? h = some n → ∃ hs,
    order n.children = some hs ∧ t.node? (partner h) =
      some ⟨n.value, if h = k then above else n.parent.map partner, hs.map partner⟩

/-- From `t` to `t'` the subtree at `h` has gone, and a copy of the subtree at `k` in `source` has
come with the root `new`. All other nodes stay as they are, but for the child list of `p`. -/
structure Substitutes (t t' source : Tree α) (h k new : Handle) (p : Option Handle)
    (order : List Handle → Option (List Handle)) : Prop where
  copied : ∃ partner, partner k = new ∧ t'.CopiesUnder source k p order partner
  fresh : ∀ m ∈ t'.subtree new, ¬t.contains m = true
  dead : ∀ m ∈ t.subtree h, ¬t'.contains m = true
  kept : t.Keeps t' (t.subtree h) p
  root_eq : t'.root = if p = none then some new else t.root
  len_eq : t'.len + (t.subtree h).ncard = t.len + (source.subtree k).ncard

theorem ncard_handles {hs : List Handle} (nodup : hs.Nodup) :
    {h | h ∈ hs}.ncard = hs.length := by
  rw [← List.coe_toFinset, Set.ncard_coe_finset, List.toFinset_card_of_nodup nodup]

theorem Shows.ncard_subtree (shows : t.Shows f) (mem : c ∈ f.nodes) :
    (t.subtree c.handle).ncard = c.handles.length := by
  rw [shows.subtree_eq mem]
  exact ncard_handles (shows.nodup.sublist (handles_sublist mem))

section Placed

variable {policy : Policy α} (origin : source.Shows g) (mem : k ∈ g.nodes)
  (follows : ∀ s ∈ k.nodes, Follows order policy s)
include origin mem follows

/-- A replica stored as a child of a node is a copy there. -/
theorem Shows.copiesUnder {above : Option Handle} (shown : t'.Shows f)
    (placed : k.replica policy partner ∈ f.nodes)
    (top : t'.node? (partner k.handle) =
      some ⟨k.value, above, (k.replica policy partner).below.roots⟩) :
    t'.CopiesUnder source k.handle above order partner where
  bijOn := by
    have distinct := shown.nodup.sublist (handles_sublist placed)
    have whole := shown.subtree_eq placed
    rw [Sprig.handle_replica] at whole
    rw [origin.subtree_eq mem, whole]
    exact Sprig.bijOn_replica distinct fun s inside => (follows s inside).not_clashes
  node?_eq := by
    intro h inside n live
    rw [origin.mem_subtree_iff mem] at inside
    exact origin.stores.node?_replica mem shown.stores follows placed top inside live

/-- The root of the tree is replaced with all that the tree holds. -/
theorem Shows.substitutes_root (shows : t.Shows (ofSprigs [s]))
    (shown : t'.Shows (ofSprigs [k.replica policy partner]))
    (fresh : ∀ m ∈ (k.replica policy partner).handles, m ∉ (ofSprigs [s]).handles) :
    t.Substitutes t' source s.handle k.handle (partner k.handle) none order := by
  have only := mem_nodes_single s
  have placed := mem_nodes_single (k.replica policy partner)
  have top := shown.stores.node?_of_mem_sprigs (s := k.replica policy partner) (by simp)
  have whole := shown.subtree_eq placed
  rw [Sprig.handle_replica] at whole
  have size := Sprig.length_handles_replica partner fun s inside => (follows s inside).not_clashes
  refine ⟨⟨partner, rfl, origin.copiesUnder mem follows shown placed top⟩, fun m new => ?_,
    fun m old live => ?_, keeps_of_all fun m live => ?_, ?_, ?_⟩
  · rw [whole] at new
    rw [shows.contains_iff]
    exact fresh m new
  · rw [shown.contains_iff, handles_single] at live
    rw [shows.mem_subtree_iff only, ← handles_single] at old
    exact fresh m live old
  · rw [shows.mem_subtree_iff only]
    rwa [shows.contains_iff, handles_single] at live
  · rw [if_pos rfl, shown.root_eq_some, Sprig.handle_replica]
  · rw [shows.ncard_subtree only, origin.ncard_subtree mem, shown.len_eq, shows.len_eq,
      handles_single, handles_single, size, Nat.add_comm]

/-- A child is replaced with its subtree. -/
theorem Shows.substitutes_child (shows : t.Shows f) (inside : s ∈ f.nodes)
    (child : s.below.sprigs[i]? = some c)
    (shown : t'.Shows (f.mapBelow s.handle (swapAt i j (k.replica policy partner))))
    (fresh : ∀ m ∈ (k.replica policy partner).handles, m ∉ f.handles) :
    t.Substitutes t' source c.handle k.handle (partner k.handle) (some s.handle) order := by
  have old := mem_nodes_of_child inside (List.mem_of_getElem? child)
  have here := mem_nodes_mapBelow_self shows.nodup inside
    (swapAt i j (k.replica policy partner))
  have put : k.replica policy partner ∈
      (s.below.swapAt i j (k.replica policy partner)).sprigs :=
    (sprigs_plantAt_perm j _ (s.below.pluckAt i)).mem_iff.mpr (List.mem_cons_self ..)
  have placed := mem_nodes_of_child here put
  have exchanged := exchanged_swapAt shows.nodup inside child j (k.replica policy partner)
  have whole := shown.subtree_eq placed
  rw [Sprig.handle_replica] at whole
  have gone := shows.subtree_eq old
  have size := Sprig.length_handles_replica partner fun s inside => (follows s inside).not_clashes
  refine ⟨⟨partner, rfl, origin.copiesUnder mem follows shown placed
    (shown.stores.node?_of_child here put)⟩, fun m new => ?_, fun m left live => ?_, ?_, ?_, ?_⟩
  · rw [whole] at new
    rw [shows.contains_iff]
    exact fresh m new
  · rw [gone, Set.mem_ofPred_eq] at left
    rw [shows.contains_iff_of_exchanged shown exchanged, map_fst_records_sprig,
      map_fst_records_sprig] at live
    rcases live with new | ⟨-, spared⟩
    · exact fresh m new ((handles_sublist old).subset left)
    · exact spared left
  · have keeps := shows.keeps_of_exchanged shown exchanged
    rwa [map_fst_records_sprig, ← gone] at keeps
  · rw [if_neg (Option.some_ne_none _)]
    exact shows.root_eq_of_roots shown (roots_mapBelow ..)
  · have counted := shows.len_of_exchanged shown exchanged
    rw [length_records_sprig, length_records_sprig, size] at counted
    rwa [shows.ncard_subtree old, origin.ncard_subtree mem]

end Placed

/-! ## Under either kind of policy -/

/-- In `t'` the node `new` has the index among the children of `p` that `h` had in `t`. -/
def Overwrites (t t' : Tree α) (p h new : Handle) : Prop :=
  ∃ i, t.position? h = some i ∧ (t.childrenAt p)[i]? = some h ∧
    t'.childrenAt p = (t.childrenAt p).set i new

theorem Shows.overwrites {n : Sprig α} (shows : t.Shows f) (mem : s ∈ f.nodes)
    (child : s.below.sprigs[i]? = some c)
    (shown : t'.Shows (f.mapBelow s.handle (swapAt i i n))) :
    t.Overwrites t' s.handle c.handle n.handle := by
  have inside := (List.getElem?_eq_some_iff.mp child).1
  refine ⟨i, shows.stores.position?_of_child mem child, ?_, ?_⟩
  · rw [shows.stores.childrenAt_eq mem, getElem?_roots, child]
    rfl
  · rw [shown.childrenAt_mapBelow shows.nodup mem, shows.stores.childrenAt_eq mem,
      roots_swapAt_self inside]

/-- Under a sorting policy no sibling has the key of what was put in the place of a child. It is in
the only place in order, which is the old one if the key is the old one. -/
theorem Shows.settles_child {n : Sprig α} (shows : t.Shows f) (mem : s ∈ f.nodes)
    (child : s.below.sprigs[i]? = some c) (sorts : t.policy.SortsBy cmp)
    (asc : Ascending cmp s.below.rootValues) (settled : Resettled t.policy s.below i n.value j)
    (shown : t'.Shows (f.mapBelow s.handle (swapAt i j n))) :
    ¬t.Occupied cmp s.handle c.handle n.value ∧ t.Settles t' cmp s.handle c.handle n.handle ∧
      ∀ y, t.get? c.handle = some y → cmp y n.value = .eq →
        t.Overwrites t' s.handle c.handle n.handle := by
  have place := settled.place_eq sorts.keyed
  refine ⟨shows.stores.not_occupied mem child sorts asc place,
    shows.stores.settles mem child sorts asc place shown, fun y valued same => ?_⟩
  have old := mem_nodes_of_child mem (List.mem_of_getElem? child)
  rw [shows.stores.get?_eq old] at valued
  cases valued
  rw [place_eq_before_of_eq sorts asc child same] at place
  cases place
  exact shows.overwrites mem child shown

/-- A policy that takes the subtree as it is puts a faithful copy in the old place. -/
theorem Shows.substitutes_settled (shows : t.Shows f) (inRange : t.policy.InRange)
    (origin : source.Shows g) (mem : k ∈ g.nodes) (live : t.contains h = true)
    (unkeyed : t.policy.keyed = false)
    (settled : ∀ s ∈ k.nodes, t.policy.arrange Sprig.value s.below.sprigs = some s.below.sprigs) :
    ∃ (p : Option Handle) (t' : Tree α) (new : Handle), t.parent h = .ok p ∧
      t.replaceWithSubtree h source k.handle = t'.answer new ∧
      t.Substitutes t' source h k.handle new p some ∧
      ∀ q, p = some q → t.Overwrites t' q h new := by
  have follows := fun s inside => follows_some (settled s inside)
  rcases shows.replaceWithSubtree_exact inRange origin.stores mem live with
    ⟨c, first, -⟩ | ⟨-, ⟨s, -, i, c, m, -, -, keyed, -⟩ |
      ⟨partner, t', done, fresh, ⟨s, rfl, rfl, shown⟩ |
        ⟨s, inside, i, j, c, child, rfl, settled, shown⟩⟩⟩
  · exact absurd first (Follows.not_first_clash follows)
  · rw [unkeyed] at keyed
    cases keyed
  · exact ⟨none, t', _, shows.parent_of_root, done,
      origin.substitutes_root mem follows shows shown fresh, nofun⟩
  · obtain rfl := settled.eq_of_unkeyed unkeyed
    refine ⟨some s.handle, t', _, shows.stores.parent_of_child inside child, done,
      origin.substitutes_child mem follows shows inside child shown fresh, ?_⟩
    rintro q ⟨⟩
    exact shows.overwrites inside child shown

/-- A sorting policy puts a sorted copy in the only place in order, or names the first collision in
the source, or else the parent where a sibling has the key. -/
theorem Shows.substitutes_sorted (shows : t.Shows f) (sorts : t.policy.SortsBy cmp)
    (ordered : f.Ordered cmp) (origin : source.Shows g) (mem : k ∈ g.nodes)
    (live : t.contains h = true) :
    (∃ m ∈ source.subtree k.handle, source.collides cmp m = true ∧
        (source.backwardFrom k.handle).find? (source.collides cmp) = some m ∧
        (t.replaceWithSubtree h source k.handle).outcome = .refused (.duplicateKey m)) ∨
      (∀ m ∈ source.subtree k.handle, source.collides cmp m = false) ∧
        ∃ p, t.parent h = .ok p ∧
          ((∃ q, p = some q ∧ t.Occupied cmp q h k.value ∧
              (t.replaceWithSubtree h source k.handle).outcome = .refused (.duplicateKey q)) ∨
            (∀ q, p = some q → ¬t.Occupied cmp q h k.value) ∧ ∃ (t' : Tree α) (new : Handle),
              t.replaceWithSubtree h source k.handle = t'.answer new ∧
              t.Substitutes t' source h k.handle new p (source.sortedHandles cmp) ∧
              ∀ q, p = some q → t.Settles t' cmp q h new ∧
                ∀ y, t.get? h = some y → cmp y k.value = .eq → t.Overwrites t' q h new) := by
  have within : ∀ s ∈ k.nodes, s ∈ g.nodes := fun s inside => (nodes_sublist mem).subset inside
  have firsts := origin.stores.find?_collides mem sorts
  -- The copy is built first, so a collision in it is met before the siblings are looked at.
  rcases shows.replaceWithSubtree_exact sorts.inRange origin.stores mem live with
    ⟨c, first, refused⟩ | ⟨clear, placed⟩
  · have inside := (backward_perm_sprig k).mem_iff.mp (List.mem_of_find?_eq_some first)
    have collision : source.collides cmp c.handle = true := by
      rw [origin.stores.collides_eq (within c inside) sorts]
      exact List.find?_some first
    refine .inl ⟨c.handle, ?_, collision, by rw [firsts, first, Option.map_some], refused⟩
    exact (origin.mem_subtree_iff mem).mpr (List.mem_map_of_mem inside)
  · have free := find?_clashes_eq_none_iff.mp clear
    have follows : ∀ s ∈ k.nodes, Follows (source.sortedHandles cmp) t.policy s := fun s inside =>
      origin.stores.follows_sortedHandles (within s inside) sorts (free s inside)
    refine .inr ⟨fun m inside => ?_, ?_⟩
    · obtain ⟨s, under, rfl⟩ := List.mem_map.mp ((origin.mem_subtree_iff mem).mp inside)
      rw [origin.stores.collides_eq (within s under) sorts]
      exact free s under
    · rcases placed with ⟨s, inside, i, c, m, child, rfl, -, place, refused⟩ |
        ⟨partner, t', done, fresh, ⟨s, rfl, rfl, shown⟩ |
          ⟨s, inside, i, j, c, child, rfl, settled, shown⟩⟩
      · have occupied := shows.stores.occupied_iff inside child sorts (ordered s inside) k.value
        exact ⟨_, shows.stores.parent_of_child inside child,
          .inl ⟨_, rfl, occupied.mpr ⟨m, place⟩, refused⟩⟩
      · exact ⟨none, shows.parent_of_root, .inr ⟨nofun, t', _, done,
          origin.substitutes_root mem follows shows shown fresh, nofun⟩⟩
      · obtain ⟨unoccupied, settles, overwrites⟩ :=
          shows.settles_child (n := k.replica t.policy partner) inside child sorts
            (ordered s inside) settled shown
        have substitutes := origin.substitutes_child mem follows shows inside child shown fresh
        refine ⟨_, shows.stores.parent_of_child inside child,
          .inr ⟨?_, t', _, done, substitutes, ?_⟩⟩
        · rintro q ⟨⟩
          exact unoccupied
        · rintro q ⟨⟩
          exact ⟨settles, overwrites⟩

/-! ## Reachable trees -/

/-- Of all live nodes the root alone has no parent. -/
theorem Shows.parent_eq_none_iff (shows : t.Shows f) {n : Node α} (live : t.node? h = some n) :
    n.parent = none ↔ t.root = some h := by
  constructor
  · intro top
    apply Decidable.by_contra
    intro other
    obtain ⟨p, m, above, -⟩ := shows.rooted.listed_once h n live other
    rw [top] at above
    cases above
  · intro root
    obtain ⟨m, stored, top⟩ := shows.rooted.parentless h root
    rw [live] at stored
    cases stored
    exact top

/-- A subtree is replaced by a copy of another subtree. An unkeyed policy keeps its order and puts
it in the old place. A keyed one sorts every sibling list and puts it in the only place in order; it
names the first node of the source whose children collide, children visited last to first, and if
there is none, the parent where a sibling has the key of the copied root. -/
theorem Reachable.replaceWithSubtree_substitutes (reached : t.Reachable)
    (builtIn : t.policy.BuiltIn) (sourceReached : source.Reachable)
    (sourceBuiltIn : source.policy.BuiltIn) (live : t.contains h = true) {k : Handle}
    (sourceLive : source.contains k = true) :
    ∃ p x, t.parent h = .ok p ∧ (p = none ↔ t.root = some h) ∧ source.get? k = some x ∧
      (t.policy.keyed = false → ∃ (t' : Tree α) (new : Handle),
        t.replaceWithSubtree h source k = t'.answer new ∧
        t.Substitutes t' source h k new p some ∧
        ∀ q, p = some q → t.Overwrites t' q h new) ∧
      ∀ cmp, t.policy.BuiltInKeyed cmp →
        (∃ m ∈ source.subtree k, source.collides cmp m = true ∧
          (source.backwardFrom k).find? (source.collides cmp) = some m ∧
          (t.replaceWithSubtree h source k).outcome = .refused (.duplicateKey m)) ∨
        (∀ m ∈ source.subtree k, source.collides cmp m = false) ∧
          ((∃ q, p = some q ∧ t.Occupied cmp q h x ∧
            (t.replaceWithSubtree h source k).outcome = .refused (.duplicateKey q)) ∨
          (∀ q, p = some q → ¬t.Occupied cmp q h x) ∧ ∃ (t' : Tree α) (new : Handle),
            t.replaceWithSubtree h source k = t'.answer new ∧
            t.Substitutes t' source h k new p (source.sortedHandles cmp) ∧
            ∀ q, p = some q → t.Settles t' cmp q h new ∧
              ∀ y, t.get? h = some y → cmp y x = .eq → t.Overwrites t' q h new) := by
  obtain ⟨f, shows, ordered⟩ := reached.exists_forest builtIn.inRange
  obtain ⟨g, origin, -⟩ := sourceReached.exists_forest sourceBuiltIn.inRange
  obtain ⟨n, stored⟩ := Arena.contains_iff.mp sourceLive
  obtain ⟨k, mem, rfl, -⟩ := origin.exists_node stored
  obtain ⟨m, here⟩ := Arena.contains_iff.mp live
  have above := parent_of_node? here
  refine ⟨m.parent, k.value, above, shows.parent_eq_none_iff here, origin.stores.get?_eq mem,
    fun unkeyed => ?_, fun cmp sorting => ?_⟩
  · obtain ⟨p, t', new, parent, done, substitutes, overwrites⟩ :=
      shows.substitutes_settled builtIn.inRange origin mem live unkeyed fun s _ =>
        Policy.arrange_of_append (builtIn.place_eq_append unkeyed) _
    rw [above] at parent
    cases parent
    exact ⟨t', new, done, substitutes, overwrites⟩
  · have sorts := sorting.sortsBy
    rcases shows.substitutes_sorted sorts (ordered cmp sorts) origin mem live with
      inner | ⟨free, p, parent, outer⟩
    · exact .inl inner
    · rw [above] at parent
      cases parent
      exact .inr ⟨free, outer⟩

/-- The child 7 gives way to a copy with the value 5, whose children 7 and 2 change places, but not
to one with the value 2 of its sibling. -/
theorem replaceWithSubtree_substitutes_sample :
    (Tree.sample .naturalOrder).contains ⟨1, 1, 0⟩ = true ∧
      (∃ (t' : Tree Nat) (new : Handle), (Tree.sample .naturalOrder).replaceWithSubtree ⟨1, 1, 0⟩
          (Tree.sample .insertionOrder) ⟨1, 0, 0⟩ = t'.answer new ∧
        (Tree.sample .naturalOrder).Substitutes t' (Tree.sample .insertionOrder) ⟨1, 1, 0⟩
          ⟨1, 0, 0⟩ new (some ⟨1, 0, 0⟩) ((Tree.sample .insertionOrder).sortedHandles compare)) ∧
      ((Tree.sample .naturalOrder).replaceWithSubtree ⟨1, 1, 0⟩ (Tree.sample .insertionOrder)
        ⟨1, 2, 0⟩).outcome = .refused (.duplicateKey ⟨1, 0, 0⟩) := by
  have sorting : (Tree.sample .naturalOrder).policy.BuiltInKeyed compare := by
    rw [policy_sample]
    exact .searching .naturalOrder
  have sourceBuiltIn : (Tree.sample .insertionOrder).policy.BuiltIn := by
    rw [policy_sample]
    exact .insertionOrder
  have live : (Tree.sample .naturalOrder).contains ⟨1, 1, 0⟩ = true := by decide +kernel
  have above : (Tree.sample .naturalOrder).parent ⟨1, 1, 0⟩ = .ok (some ⟨1, 0, 0⟩) := by
    decide +kernel
  have siblings : (Tree.sample .naturalOrder).others ⟨1, 0, 0⟩ ⟨1, 1, 0⟩ = [⟨1, 2, 0⟩] := by
    decide +kernel
  have sibling : (Tree.sample .naturalOrder).get? ⟨1, 2, 0⟩ = some 2 := by decide +kernel
  have spec : ∀ {k : Handle} (present : (Tree.sample .insertionOrder).contains k = true), _ :=
    fun present => (reachable_sample .naturalOrder).replaceWithSubtree_substitutes (.keyed sorting)
      (reachable_sample .insertionOrder) sourceBuiltIn live present
  refine ⟨live, ?_, ?_⟩
  · obtain ⟨p, x, parent, -, value, -, keyed⟩ :=
      spec (k := ⟨1, 0, 0⟩) (by decide +kernel)
    rw [above] at parent
    cases parent
    have root : (Tree.sample .insertionOrder).get? ⟨1, 0, 0⟩ = some 5 := by decide +kernel
    rw [root] at value
    cases value
    have clear : ((Tree.sample .insertionOrder).backwardFrom ⟨1, 0, 0⟩).find?
        ((Tree.sample .insertionOrder).collides compare) = none := by decide +kernel
    rcases keyed compare sorting with ⟨m, -, -, first, -⟩ |
      ⟨-, ⟨q, here, ⟨c, other, y, value, same⟩, -⟩ | ⟨-, t', new, done, substitutes, -⟩⟩
    · rw [clear] at first
      cases first
    · cases here
      rw [siblings] at other
      obtain rfl := List.mem_singleton.mp other
      rw [sibling] at value
      cases value
      cases same
    · exact ⟨t', new, done, substitutes⟩
  · obtain ⟨p, x, parent, -, value, -, keyed⟩ :=
      spec (k := ⟨1, 2, 0⟩) (by decide +kernel)
    rw [above] at parent
    cases parent
    have root : (Tree.sample .insertionOrder).get? ⟨1, 2, 0⟩ = some 2 := by decide +kernel
    rw [root] at value
    cases value
    have clear : ((Tree.sample .insertionOrder).backwardFrom ⟨1, 2, 0⟩).find?
        ((Tree.sample .insertionOrder).collides compare) = none := by decide +kernel
    rcases keyed compare sorting with ⟨m, -, -, first, -⟩ |
      ⟨-, ⟨q, here, -, refused⟩ | ⟨free, -⟩⟩
    · rw [clear] at first
      cases first
    · cases here
      exact refused
    · refine absurd ⟨⟨1, 2, 0⟩, ?_, 2, sibling, rfl⟩ (free _ rfl)
      rw [siblings]
      exact List.mem_singleton_self _

end PolicyTree.Tree
