import PolicyTree.Proofs.Tree.Edits

/-! Every reachable tree stores pieces: the tree below its root, and what halted edits took out of a
list and left stored. -/

namespace PolicyTree

open Forest

variable {α : Type}

/-- A stored sprig with the parent that its topmost node names. -/
structure Piece (α : Type) where
  sprig : Sprig α
  above : Option Handle

def Piece.records (g : Piece α) : List (Handle × Node α) := g.sprig.records g.above

def Piece.handles (g : Piece α) : List Handle := g.sprig.handles

/-- The node `h` of the piece stands at the top, under no parent, or in a list of children. -/
inductive Piece.Seats (g : Piece α) : Handle → Option (Handle × Nat) → Prop where
  | top (free : g.above = none) : Seats g g.sprig.handle none
  | child {s c : Sprig α} {i : Nat} (mem : s ∈ (ofSprigs [g.sprig]).nodes)
      (child : s.below.sprigs[i]? = some c) : Seats g c.handle (some (s.handle, i))

namespace Tree

variable {t t' : Tree α} {f : Forest α} {g : Piece α} {pieces others d : List (Piece α)}
  {s c : Sprig α} {h : Handle} {n : Node α}

/-- The pieces are all that `t` stores, and those that name no parent hang from the root. -/
structure Breaks (t : Tree α) (pieces : List (Piece α)) : Prop where
  holds : t.arena.Holds (pieces.flatMap Piece.records)
  root_iff : ∀ h, t.root = some h ↔ ∃ g ∈ pieces, g.above = none ∧ g.sprig.handle = h

theorem Shows.breaks (shows : t.Shows f) : t.Breaks (f.sprigs.map (Piece.mk · none)) where
  holds := by
    have stored := shows.holds
    rw [records_eq_flatMap] at stored
    rwa [List.flatMap_map]
  root_iff h := by
    have top : t.root = some h ↔ h ∈ f.roots := by rw [shows.roots_eq, Option.mem_toList]
    rw [top, roots]
    simp

namespace Breaks

theorem perm (breaks : t.Breaks pieces) (same : pieces.Perm others) : t.Breaks others where
  holds := breaks.holds.perm (same.flatMap_right _)
  root_iff h := by simp only [breaks.root_iff, same.mem_iff]

/-- One piece, with the others stored beside it. -/
theorem stores (breaks : t.Breaks (g :: others)) :
    t.Stores g.above (ofSprigs [g.sprig]) (others.flatMap Piece.records) := by
  rw [Stores, records_single]
  exact breaks.holds

theorem apart (breaks : t.Breaks (g :: others)) {o : Piece α} (other : o ∈ others) :
    ∀ h ∈ o.handles, h ∉ g.handles := by
  have distinct := breaks.holds.nodup
  rw [List.flatMap_cons, List.map_append, List.nodup_append', Piece.records,
    map_fst_records_sprig] at distinct
  intro h there here
  rw [Piece.handles, ← map_fst_records_sprig o.sprig o.above] at there
  obtain ⟨e, stored, rfl⟩ := List.mem_map.mp there
  exact distinct.2.2 here (List.mem_map_of_mem (List.mem_flatMap.mpr ⟨o, other, stored⟩))

theorem exists_mem (breaks : t.Breaks pieces) (live : t.node? h = some n) :
    ∃ g ∈ pieces, ∃ s ∈ (ofSprigs [g.sprig]).nodes,
      s.handle = h ∧ s.below.roots = n.children := by
  obtain ⟨g, mem, stored⟩ := List.mem_flatMap.mp ((breaks.holds.bound h n).mp live)
  rw [Piece.records, ← records_single] at stored
  obtain ⟨s, inside, p, e⟩ := exists_node_of_mem_records stored
  cases e
  exact ⟨g, mem, s, inside, rfl, rfl⟩

/-- The piece of a live node is brought to the front. -/
theorem exists_piece (breaks : t.Breaks pieces) (live : t.node? h = some n) :
    ∃ g others, t.Breaks (g :: others) ∧ ∃ s ∈ (ofSprigs [g.sprig]).nodes, s.handle = h := by
  obtain ⟨g, mem, s, inside, here, -⟩ := breaks.exists_mem live
  obtain ⟨front, back, rfl⟩ := List.append_of_mem mem
  exact ⟨g, front ++ back, breaks.perm List.perm_middle, s, inside, here⟩

/-- The topmost node of a piece that names a parent is in no list. -/
theorem slotInParent_of_top (breaks : t.Breaks (g :: others)) {p : Handle}
    (above : g.above = some p) : ∃ e, t.slotInParent g.sprig.handle = .error e := by
  have stored := breaks.stores.node?_of_mem_sprigs (s := g.sprig) (by simp)
  rw [above] at stored
  cases parent : t.node? p with
  | none =>
    exact ⟨.invalidHandle p, by simp [slotInParent, node, stored, parent, bind, Except.bind]⟩
  | some m =>
    obtain ⟨o, mem, s, inside, -, listed⟩ := breaks.exists_mem parent
    have unlisted : g.sprig.handle ∉ m.children := by
      intro child
      rw [← listed] at child
      obtain ⟨c, below, same⟩ := List.mem_map.mp child
      rcases List.mem_cons.mp mem with rfl | other
      · -- In its own piece it would stand below itself.
        have distinct : o.sprig.handles.Nodup := handles_single o.sprig ▸ breaks.stores.nodup
        rw [nodes_single] at inside
        have under : c ∈ o.sprig.below.nodes := by
          rcases List.mem_cons.mp inside with rfl | deeper
          · exact mem_nodes_of_mem_sprigs below
          · exact mem_nodes_of_child deeper below
        exact handle_ne_of_mem_below distinct under same.symm
      · have there := mem_handles (mem_nodes_of_child inside below)
        rw [handles_single, same] at there
        exact breaks.apart other _ there (List.mem_cons_self ..)
    refine ⟨.missingFromParent g.sprig.handle p, ?_⟩
    have nowhere : m.children.idxOf? g.sprig.handle = none := List.idxOf?_eq_none_iff.mpr unlisted
    simp [slotInParent, node, stored, parent, nowhere, bind, Except.bind]
    rfl

/-- Where a handle stands: in no place, or in some place of a piece. -/
theorem locate (breaks : t.Breaks pieces) (h : Handle) :
    (∃ e, t.slotInParent h = .error e) ∨ ∃ slot g others,
      t.slotInParent h = .ok slot ∧ t.Breaks (g :: others) ∧ g.Seats h slot := by
  cases live : t.node? h with
  | none => exact .inl ⟨_, slotInParent_of_dead live⟩
  | some n =>
    obtain ⟨g, others, front, k, mem, rfl⟩ := breaks.exists_piece live
    rcases top_or_child mem with top | ⟨s, inside, child⟩
    · obtain rfl : k = g.sprig := by simpa using top
      cases above : g.above with
      | none =>
        have stored := front.stores
        rw [above] at stored
        exact .inr ⟨_, g, others, stored.slotInParent_of_top top, front, .top above⟩
      | some p => exact .inl (front.slotInParent_of_top above)
    · obtain ⟨i, place⟩ := List.mem_iff_getElem?.mp child
      exact .inr ⟨_, g, others, front.stores.slotInParent_of_child inside place, front,
        .child inside place⟩

/-! ## Edits -/

/-- One piece changes below its topmost node, and others may come to be stored that name a
parent. -/
theorem change (breaks : t.Breaks (g :: others)) (roots : f.roots = [g.sprig.handle])
    (stores : t'.Stores g.above f ((d ++ others).flatMap Piece.records))
    (hanging : ∀ o ∈ d, o.above ≠ none) (root : t'.root = t.root) : ∃ pieces, t'.Breaks pieces := by
  obtain ⟨s, single, here⟩ := List.map_eq_singleton_iff.mp roots
  refine ⟨⟨s, g.above⟩ :: (d ++ others), ?_, fun h => ?_⟩
  · rwa [Stores, records_eq_flatMap, single, List.flatMap_singleton] at stores
  · rw [root, breaks.root_iff]
    have noneNew : ¬∃ o ∈ d, o.above = none ∧ o.sprig.handle = h := by
      rintro ⟨o, mem, top, -⟩
      exact hanging o mem top
    simp only [List.mem_cons, List.mem_append, or_and_right, exists_or, exists_eq_left, here,
      noneNew, false_or]

theorem change_below (breaks : t.Breaks (g :: others)) {p : Handle} {k : Forest α → Forest α}
    (stores : t'.Stores g.above ((ofSprigs [g.sprig]).mapBelow p k)
      ((d ++ others).flatMap Piece.records))
    (hanging : ∀ o ∈ d, o.above ≠ none) (root : t'.root = t.root) : ∃ pieces, t'.Breaks pieces :=
  breaks.change (by simp) stores hanging root

/-- The root is taken away, or another sprig takes its place. -/
theorem change_root (breaks : t.Breaks (g :: others)) (top : g.above = none) {r : Option (Sprig α)}
    (holds : t'.arena.Holds (r.toList.flatMap (·.records none) ++ others.flatMap Piece.records))
    (root : t'.root = r.map Sprig.handle) : ∃ pieces, t'.Breaks pieces := by
  -- No other piece hangs from the root, or it would have the handle of this one.
  have hanging : ∀ o ∈ others, o.above ≠ none := by
    intro o mem free
    have first := (breaks.root_iff _).mpr ⟨g, List.mem_cons_self .., top, rfl⟩
    have second := (breaks.root_iff _).mpr ⟨o, List.mem_cons_of_mem _ mem, free, rfl⟩
    rw [first] at second
    apply breaks.apart mem _ (List.mem_cons_self ..)
    rw [← Option.some.inj second]
    exact List.mem_cons_self ..
  refine ⟨r.toList.map (Piece.mk · none) ++ others, ?_, fun h => ?_⟩
  · rwa [List.flatMap_append, List.flatMap_map]
  · have noneOther : ¬∃ o ∈ others, o.above = none ∧ o.sprig.handle = h := by
      rintro ⟨o, mem, free, -⟩
      exact hanging o mem free
    simp only [root, List.mem_append, or_and_right, exists_or, noneOther, or_false]
    cases r <;> simp

theorem replaceValue (breaks : t.Breaks pieces) (h : Handle) (x : α) :
    ∃ pieces', (t.replaceValue h x).tree.Breaks pieces' := by
  rcases breaks.locate h with ⟨e, nowhere⟩ | ⟨slot, g, others, -, front, seat⟩
  · rw [Tree.replaceValue, nowhere, require_error]
    exact ⟨pieces, breaks⟩
  · cases seat with
    | top free =>
      have stores := front.stores
      rw [free] at stores
      obtain ⟨t', done, stored, root⟩ := stores.replaceValue_root x
      rw [done]
      rw [← free] at stored
      exact front.change (d := []) (by simp) stored (List.forall_mem_nil _) root
    | @child s c i mem child =>
      rcases fits_or_overruns t.policy child x with fits | ⟨j, keyed, place, past⟩
      · rcases front.stores.replaceValue_of_fits mem child fits with
          ⟨k, -, -, refused⟩ | ⟨j, -, t', done, stored, root⟩
        · rw [refused]
          exact ⟨pieces, breaks⟩
        · rw [done]
          exact front.change_below (d := []) stored (List.forall_mem_nil _) root
      · have plucked := front.stores.pluck mem child
        rw [front.stores.replaceValue_overrun mem child keyed place past]
        exact front.change_below (d := [⟨c, some s.handle⟩]) plucked (by simp) rfl

/-- A sprig stored beside a piece takes the place of the piece or of one of its children. If the
place is past the end, it stays beside the piece, with the child that it was to replace. -/
theorem substitute (breaks : t.Breaks (g :: others)) {slot : Option (Handle × Nat)}
    (seat : g.Seats h slot) {u : Tree α} {k : Sprig α} (root : u.root = t.root)
    (stores : u.Stores g.above (ofSprigs [g.sprig])
      (k.records (slot.map Prod.fst) ++ others.flatMap Piece.records)) (x : α) :
    ∃ pieces', (u.substitute h k.handle x slot).tree.Breaks pieces' := by
  cases seat with
  | top free =>
    rw [free] at stores
    obtain ⟨t', done, stored, root⟩ := stores.substitute_root x
    rw [done]
    refine breaks.change_root (r := some k) free ?_ root
    rw [Option.toList_some, List.flatMap_singleton]
    rwa [Stores, records_single] at stored
  | @child s c i mem child =>
    rcases fits_or_overruns u.policy child x with fits | ⟨j, keyed, place, past⟩
    · rcases stores.substitute_cases mem child fits with
        ⟨_, -, -, t', refused, stored, kept⟩ | ⟨j, -, t', done, stored, kept⟩
      · rw [refused]
        exact breaks.change (d := []) (by simp) stored (List.forall_mem_nil _) (kept.trans root)
      · rw [done]
        exact breaks.change_below (d := []) stored (List.forall_mem_nil _) (kept.trans root)
    · have plucked := stores.pluck mem child
      rw [stores.substitute_overrun mem child keyed place past]
      exact breaks.change_below (d := [⟨c, some s.handle⟩, ⟨k, some s.handle⟩]) plucked (by simp)
        root

theorem replaceWithSubtree (breaks : t.Breaks pieces) (h : Handle) (source : Tree α) (k : Handle) :
    ∃ pieces', (t.replaceWithSubtree h source k).tree.Breaks pieces' := by
  rcases breaks.locate h with ⟨e, nowhere⟩ | ⟨slot, g, others, located, front, seat⟩
  · rw [Tree.replaceWithSubtree, nowhere, require_error]
    exact ⟨pieces, breaks⟩
  · cases valued : source.value k with
    | error e =>
      rw [Tree.replaceWithSubtree, located, valued, require_ok, require_error]
      exact ⟨pieces, breaks⟩
    | ok x =>
      obtain ⟨goesOn, root, -, below, -, stores⟩ := front.stores.copyBeside_spec slot x source k
      cases outcome : (t.copyBeside slot x source k).outcome with
      | halted => exact absurd outcome goesOn
      | refused e =>
        rw [replaceWithSubtree_of_refused located valued outcome]
        exact front.change (d := []) (by simp) stores.release_beside (List.forall_mem_nil _) root
      | done m =>
        rw [replaceWithSubtree_of_done located valued outcome]
        exact front.substitute seat root stores x

theorem erase (breaks : t.Breaks pieces) (h : Handle) :
    ∃ pieces', (t.erase h).tree.Breaks pieces' := by
  rcases breaks.locate h with ⟨e, nowhere⟩ | ⟨slot, g, others, -, front, seat⟩
  · rw [Tree.erase, nowhere, require_error]
    exact ⟨pieces, breaks⟩
  · cases seat with
    | top free =>
      have stores := front.stores
      rw [free] at stores
      obtain ⟨t', done, empty, root⟩ := stores.erase_root
      rw [done]
      exact front.change_root (r := none) free empty root
    | child mem child =>
      obtain ⟨t', done, stored, root⟩ := front.stores.erase_eq mem child
      rw [done]
      exact front.change_below (d := []) stored (List.forall_mem_nil _) root

theorem sortBy (breaks : t.Breaks pieces) (first : Handle) (last : Option Handle)
    (cmp : α → α → Ordering) : ∃ pieces', (t.sortBy first last cmp).tree.Breaks pieces' := by
  rcases breaks.locate first with ⟨e, nowhere⟩ | ⟨slot, g, others, located, front, seat⟩
  · rw [Tree.sortBy, nowhere, require_error]
    exact ⟨pieces, breaks⟩
  · rw [Tree.sortBy, located, require_ok]
    cases seat with
    | top free =>
      dsimp only
      cases checkRootRange g.sprig.handle last <;> exact ⟨pieces, breaks⟩
    | @child s c i mem child =>
      dsimp only
      cases t.rangeEnd s.handle c.handle last with
      | error e => exact ⟨pieces, breaks⟩
      | ok j =>
        rw [require_ok]
        by_cases reversed : j < i
        · rw [if_pos reversed]
          exact ⟨pieces, breaks⟩
        · rw [if_neg reversed]
          cases t.policy.keyed with
          | true => exact ⟨pieces, breaks⟩
          | false =>
            obtain ⟨t', done, stored, root⟩ :=
              front.stores.sortRange_eq mem (Nat.le_of_not_lt reversed) cmp
            rw [if_neg Bool.false_ne_true, done]
            exact front.change_below (d := []) stored (List.forall_mem_nil _) root

theorem sortChildrenBy (breaks : t.Breaks pieces) (h : Handle) (cmp : α → α → Ordering) :
    ∃ pieces', (t.sortChildrenBy h cmp).tree.Breaks pieces' := by
  unfold Tree.sortChildrenBy
  cases t.children h with
  | error e => exact ⟨pieces, breaks⟩
  | ok hs =>
    cases hs with
    | nil => exact ⟨pieces, breaks⟩
    | cons first hs => exact breaks.sortBy first none cmp

/-- Every edit leaves pieces, also one that halts. -/
theorem perform (breaks : t.Breaks pieces) (e : Edit (Tree α) α) :
    ∃ pieces', (t.perform e).tree.Breaks pieces' := by
  cases e with
  | setRoot x => exact ⟨_, (shows_setRoot t x).breaks⟩
  | clear => exact ⟨_, (shows_clear t).breaks⟩
  | insert parent x =>
    rw [Tree.perform, tree_map]
    cases live : t.node? parent with
    | none =>
      rw [insert, node, live, require_error]
      exact ⟨pieces, breaks⟩
    | some n =>
      obtain ⟨g, others, front, s, mem, rfl⟩ := breaks.exists_piece live
      rcases front.stores.insert_cases mem x with ⟨i, -, refused⟩ | ⟨i, -, done⟩
      · rw [refused]
        exact ⟨pieces, breaks⟩
      · rw [done]
        exact front.change_below (d := []) (front.stores.attach mem i x) (List.forall_mem_nil _) rfl
  | replaceValue h x => exact breaks.replaceValue h x
  | replaceSubtree h source =>
    rw [Tree.perform, tree_map, replaceSubtree]
    cases source.root with
    | none => exact ⟨pieces, breaks⟩
    | some k => exact breaks.replaceWithSubtree h source k
  | replaceWithSubtree h source k => exact breaks.replaceWithSubtree h source k
  | erase h => exact breaks.erase h
  | eraseChildren h =>
    rw [Tree.perform, tree_map]
    cases live : t.node? h with
    | none =>
      rw [eraseChildren, node, live, require_error]
      exact ⟨pieces, breaks⟩
    | some n =>
      obtain ⟨g, others, front, s, mem, rfl⟩ := breaks.exists_piece live
      obtain ⟨t', done, stored, root⟩ := front.stores.eraseChildren_eq mem
      rw [done]
      exact front.change_below (d := []) stored (List.forall_mem_nil _) root
  | sortBy first last cmp => exact breaks.sortBy first last cmp
  | sortChildrenBy h cmp => exact breaks.sortChildrenBy h cmp
  | sortChildren h => exact breaks.sortChildrenBy h compare

end Breaks

/-! ## Runs -/

/-- Whatever the policies answer, and whether or not edits halted on the way. -/
theorem Reachable.exists_pieces (reached : t.Reachable) : ∃ pieces, t.Breaks pieces := by
  apply reached.induct (P := fun t => ∃ pieces, t.Breaks pieces)
  · intro policy capacity owners
    exact ⟨_, (shows_withCapacity policy capacity owners).breaks⟩
  · rintro t e ⟨pieces, breaks⟩
    exact breaks.perform e
  · intro t source h x _
    obtain ⟨f', -, shown⟩ := becomeCopy_grows t source h x
    exact ⟨_, shown.breaks⟩

/-- Every live node stands in a stored forest. -/
theorem Reachable.exists_stored (reached : t.Reachable) (live : t.contains h = true) :
    ∃ q f rest, t.Stores q f rest ∧ ∃ s ∈ f.nodes, s.handle = h := by
  obtain ⟨pieces, breaks⟩ := reached.exists_pieces
  obtain ⟨n, stored⟩ := Arena.contains_iff.mp live
  obtain ⟨g, others, front, node⟩ := breaks.exists_piece stored
  exact ⟨g.above, _, _, front.stores, node⟩

/-- The root is the topmost node of a stored sprig. -/
theorem Reachable.exists_root (reached : t.Reachable) (root : t.root = some h) :
    ∃ s rest, t.Stores none (ofSprigs [s]) rest ∧ s.handle = h := by
  obtain ⟨pieces, breaks⟩ := reached.exists_pieces
  obtain ⟨g, mem, top, rfl⟩ := (breaks.root_iff h).mp root
  obtain ⟨front, back, rfl⟩ := List.append_of_mem mem
  have stores := (breaks.perm List.perm_middle).stores
  rw [top] at stores
  exact ⟨g.sprig, _, stores, rfl⟩

end Tree

end PolicyTree
