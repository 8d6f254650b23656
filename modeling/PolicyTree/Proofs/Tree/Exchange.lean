import PolicyTree.Proofs.Policies
import PolicyTree.Proofs.Tree.Growth
import PolicyTree.Proofs.Tree.Pruning
import PolicyTree.Tree.Replace

/-! Replacement of a value, which may move its node, and of a subtree by a copy. -/

namespace PolicyTree.Tree

open Forest

variable {α : Type} {t : Tree α} {f : Forest α} {q : Option Handle}
  {rest rest' : List (Handle × Node α)} {s c n : Sprig α} {i j : Nat} {x : α}

/-! ## Moves -/

/-- A sprig stored beside the forest is put among the children of a node. -/
theorem Stores.plant (stores : t.Stores q f (n.records (some s.handle) ++ rest)) (mem : s ∈ f.nodes)
    (fits : j ≤ s.below.sprigs.length) :
    (t.updateChildren s.handle (·.insertIdx j n.handle)).Stores q
      (f.mapBelow s.handle (plantAt j n)) rest := by
  apply stores.updateChildren mem
  · rw [roots_plantAt, length_roots, Nat.min_eq_left fits]
  · rw [← List.append_assoc]
    apply List.Perm.append_right
    exact (records_perm_cons (sprigs_plantAt_perm j n s.below) _).trans List.perm_append_comm

/-- A move within the list takes one child out and puts in what is stored beside the forest then. -/
theorem Stores.moveChild (stores : t.Stores q f rest) (mem : s ∈ f.nodes)
    (child : s.below.sprigs[i]? = some c) (fits : j ≤ (s.below.pluckAt i).sprigs.length)
    (supply : (c.records (some s.handle) ++ rest).Perm (n.records (some s.handle) ++ rest')) :
    ∃ t' : Tree α, t.moveChild s.handle i j n.handle = t'.answer () ∧
      t'.Stores q (f.mapBelow s.handle (swapAt i j n)) rest' ∧ t'.root = t.root := by
  have plucked := (stores.pluck mem child).perm supply
  have here := mem_nodes_mapBelow_self stores.nodup mem (pluckAt i)
  have planted := plucked.plant (s := ⟨s.handle, s.value, s.below.pluckAt i⟩) (j := j) here fits
  have listed := plucked.childrenAt_eq here
  rw [mapBelow_mapBelow] at planted
  refine ⟨_, ?_, planted, rfl⟩
  rw [Tree.moveChild, if_pos]
  rw [listed, length_roots]
  exact fits

/-- A move past the end of the list stops where the child has been taken out. -/
theorem Stores.moveChild_overrun (stores : t.Stores q f rest) (mem : s ∈ f.nodes)
    (child : s.below.sprigs[i]? = some c) (past : (s.below.pluckAt i).sprigs.length < j)
    (h : Handle) :
    t.moveChild s.handle i j h = ⟨.halted, t.updateChildren s.handle (·.eraseIdx i)⟩ := by
  have here := mem_nodes_mapBelow_self stores.nodup mem (pluckAt i)
  have listed := (stores.pluck mem child).childrenAt_eq here
  rw [Tree.moveChild, if_neg]
  rw [listed, length_roots]
  exact Nat.not_le_of_lt past

theorem Stores.overwrite (stores : t.Stores q f rest) (mem : s ∈ f.nodes)
    (child : s.below.sprigs[i]? = some c)
    (supply : (c.records (some s.handle) ++ rest).Perm (n.records (some s.handle) ++ rest')) :
    (t.updateChildren s.handle (·.set i n.handle)).Stores q
      (f.mapBelow s.handle (swapAt i i n)) rest' := by
  have inside := (List.getElem?_eq_some_iff.mp child).1
  apply stores.updateChildren mem
  · exact roots_swapAt_self inside n
  · exact records_swapAt_perm child i supply

/-! ## Placement of a new value -/

/-- The children of `p` but for `h`, in their order. -/
def others (t : Tree α) (p h : Handle) : List Handle := (t.childrenAt p).filter (· != h)

/-- The siblings of a child are its parent's children without it. -/
theorem Stores.others_eq (stores : t.Stores q f rest) (mem : s ∈ f.nodes)
    (child : s.below.sprigs[i]? = some c) :
    t.others s.handle c.handle = (s.below.pluckAt i).roots := by
  obtain ⟨inside, here⟩ := List.getElem?_eq_some_iff.mp child
  have distinct := nodup_roots_below stores.nodup mem
  have within : i < s.below.roots.length := by simpa using inside
  have listed : s.below.roots[i] = c.handle := by simp [roots, here]
  rw [others, stores.childrenAt_eq mem, roots_pluckAt, ← distinct.erase_getElem i within, listed,
    distinct.erase_eq_filter]

theorem mem_nodes_of_pluckAt (mem : s ∈ f.nodes) (kept : c ∈ (s.below.pluckAt i).sprigs) :
    c ∈ f.nodes := by
  apply mem_nodes_of_child mem
  rw [pluckAt, sprigs_ofSprigs] at kept
  exact List.eraseIdx_subset kept

theorem Stores.placeAmongOthers_eq (stores : t.Stores q f rest) (mem : s ∈ f.nodes)
    (child : s.below.sprigs[i]? = some c) (x : α) :
    t.placeAmongOthers s.handle c.handle x = t.policy.place (s.below.pluckAt i).rootValues x := by
  have listed : (t.childrenAt s.handle).filter (· != c.handle) = (s.below.pluckAt i).roots :=
    stores.others_eq mem child
  rw [placeAmongOthers, listed]
  congr 1
  exact stores.valuesAt_map_handle fun k kept => mem_nodes_of_pluckAt mem kept

/-- A place past the end is not where the child is now. -/
theorem ne_of_overrun {b : Forest α} (child : b.sprigs[i]? = some c)
    (past : (b.pluckAt i).sprigs.length < j) : j ≠ i := by
  have inside := (List.getElem?_eq_some_iff.mp child).1
  rw [pluckAt, sprigs_ofSprigs, List.length_eraseIdx_of_lt inside] at past
  omega

theorem not_inRange_of_overrun {b : Forest α} (keyed : t.policy.keyed = true)
    (place : t.policy.place b.rootValues x = .before j) (past : b.sprigs.length < j) :
    ¬t.policy.InRange := by
  intro inRange
  have within := inRange keyed _ _ _ place
  rw [rootValues, List.length_map] at within
  omega

theorem fits_of_inRange (inRange : t.policy.InRange) {b : Forest α}
    (child : b.sprigs[i]? = some c) (x : α) : Fits t.policy b i x := by
  rcases fits_or_overruns t.policy child x with fits | ⟨j, keyed, place, past⟩
  · exact fits
  · exact absurd inRange (not_inRange_of_overrun keyed place past)

/-- A child keeps its place or is moved to the place of its new value, unless another child has that
key. -/
theorem Stores.reposition_cases (stores : t.Stores q f rest) (mem : s ∈ f.nodes)
    (child : s.below.sprigs[i]? = some c) (fits : Fits t.policy s.below i x) :
    (∃ k, t.policy.keyed = true ∧ t.policy.place (s.below.pluckAt i).rootValues x = .taken k ∧
        t.reposition c.handle x (some (s.handle, i)) = t.refuse (.duplicateKey s.handle)) ∨
      ∃ j, Resettled t.policy s.below i x j ∧ ∃ t' : Tree α,
        t.reposition c.handle x (some (s.handle, i)) = t'.answer () ∧
        t'.Stores q (f.mapBelow s.handle (swapAt i j c)) rest ∧ t'.root = t.root := by
  have stays := mapBelow_swapAt_same stores.nodup mem child
  rw [reposition]
  by_cases keyed : t.policy.keyed = true
  · rw [if_pos keyed, stores.placeAmongOthers_eq mem child]
    cases place : t.policy.place (s.below.pluckAt i).rootValues x with
    | taken k => exact .inl ⟨k, keyed, rfl, rfl⟩
    | before j =>
      have settled : Resettled t.policy s.below i x j := by rwa [Resettled, if_pos keyed]
      refine .inr ⟨j, settled, ?_⟩
      -- `j` counts the other children, so it is where the child goes once it has been taken out.
      by_cases same : j = i
      · subst same
        exact ⟨t, if_pos rfl, by rwa [stays], rfl⟩
      · dsimp only
        rw [if_neg same]
        exact stores.moveChild mem child (fits j settled) (.refl _)
  · refine .inr ⟨i, by rw [Resettled, if_neg keyed], t, ?_, by rwa [stays], rfl⟩
    rw [if_neg keyed]

/-! ## Replacement of a value -/

/-- A new value takes a child with its subtree to the place it belongs, unless another child has
that key. -/
theorem Stores.replaceValue_of_fits (stores : t.Stores q f rest) (mem : s ∈ f.nodes)
    (child : s.below.sprigs[i]? = some c) (fits : Fits t.policy s.below i x) :
    (∃ k, t.policy.keyed = true ∧ t.policy.place (s.below.pluckAt i).rootValues x = .taken k ∧
        t.replaceValue c.handle x = t.refuse (.duplicateKey s.handle)) ∨
      ∃ j, Resettled t.policy s.below i x j ∧ ∃ t' : Tree α,
        t.replaceValue c.handle x = t'.answer c.value ∧
        t'.Stores q (f.mapBelow s.handle (swapAt i j ⟨c.handle, x, c.below⟩)) rest ∧
        t'.root = t.root := by
  rw [replaceValue, stores.slotInParent_of_child mem child, require_ok]
  rcases stores.reposition_cases mem child fits with
    ⟨k, keyed, place, refused⟩ | ⟨j, settled, t', moved, repositioned, root⟩
  · refine .inl ⟨k, keyed, place, ?_⟩
    rw [refused, andThen_refuse]
  · have inside := fits j settled
    have here := mem_nodes_mapBelow_self stores.nodup mem (swapAt i j c)
    have entry : (s.below.swapAt i j c).sprigs[j]? = some c := getElem?_plantAt inside c
    have stays := mem_nodes_of_child here (List.mem_of_getElem? entry)
    have changed : (f.mapBelow s.handle (swapAt i j c)).setValue c.handle x =
        f.mapBelow s.handle (swapAt i j ⟨c.handle, x, c.below⟩) := by
      rw [setValue_eq_mapBelow repositioned.nodup here entry, mapBelow_mapBelow]
      exact mapBelow_congr_of_nodup stores.nodup mem (swapAt_swapAt inside ..)
    have stored := repositioned.setValue stays x
    rw [changed] at stored
    refine .inr ⟨j, settled, _, ?_, stored, root⟩
    rw [moved, andThen_answer, repositioned.value_eq stays, require_ok]

theorem Stores.replaceValue_cases (stores : t.Stores q f rest) (inRange : t.policy.InRange)
    (mem : s ∈ f.nodes) (child : s.below.sprigs[i]? = some c) (x : α) :
    (∃ k, t.policy.keyed = true ∧ t.policy.place (s.below.pluckAt i).rootValues x = .taken k ∧
        t.replaceValue c.handle x = t.refuse (.duplicateKey s.handle)) ∨
      ∃ j, Resettled t.policy s.below i x j ∧ ∃ t' : Tree α,
        t.replaceValue c.handle x = t'.answer c.value ∧
        t'.Stores q (f.mapBelow s.handle (swapAt i j ⟨c.handle, x, c.below⟩)) rest ∧
        t'.root = t.root :=
  stores.replaceValue_of_fits mem child (fits_of_inRange inRange child x)

/-- A new value whose place is past the end takes its node out of the list and stops there. -/
theorem Stores.replaceValue_overrun (stores : t.Stores q f rest) (mem : s ∈ f.nodes)
    (child : s.below.sprigs[i]? = some c) (keyed : t.policy.keyed = true)
    (place : t.policy.place (s.below.pluckAt i).rootValues x = .before j)
    (past : (s.below.pluckAt i).sprigs.length < j) :
    t.replaceValue c.handle x = ⟨.halted, t.updateChildren s.handle (·.eraseIdx i)⟩ := by
  rw [replaceValue, stores.slotInParent_of_child mem child, require_ok, reposition, if_pos keyed,
    stores.placeAmongOthers_eq mem child, place]
  dsimp only
  rw [if_neg (ne_of_overrun child past), stores.moveChild_overrun mem child past]
  rfl

/-- The root takes a new value where it is. -/
theorem Stores.replaceValue_root (stores : t.Stores none (ofSprigs [s]) rest) (x : α) :
    ∃ t' : Tree α, t.replaceValue s.handle x = t'.answer s.value ∧
      t'.Stores none (ofSprigs [⟨s.handle, x, s.below⟩]) rest ∧ t'.root = t.root := by
  have top : (ofSprigs [s]).sprigs[0]? = some s := by simp
  have mem := mem_nodes_single s
  have stored := stores.setValue mem x
  have changed : (ofSprigs [s]).setValue s.handle x = ofSprigs [⟨s.handle, x, s.below⟩] := by
    rw [setValue_eq_swapAt stores.nodup top, swapAt_self (by simp)]
    simp
  rw [changed] at stored
  rw [replaceValue, stores.slotInParent_of_top (s := s) (by simp), require_ok, reposition,
    andThen_answer, stores.value_eq mem, require_ok]
  exact ⟨_, rfl, stored, rfl⟩

theorem Shows.replaceValue_root (shows : t.Shows (ofSprigs [s])) (x : α) :
    (t.replaceValue s.handle x).outcome = .done s.value ∧
      (t.replaceValue s.handle x).tree.Shows (ofSprigs [⟨s.handle, x, s.below⟩]) := by
  obtain ⟨t', done, stored, root⟩ := shows.stores.replaceValue_root x
  rw [done]
  refine ⟨rfl, ?_, stored⟩
  rw [answer_tree, root]
  exact shows.roots_eq

/-- A new value takes the node with its subtree to the place it belongs, and the root stays. -/
theorem Shows.replaceValue_cases (shows : t.Shows f) (h : Handle) (x : α)
    (goesOn : t.policy.InRange ∨ (t.replaceValue h x).outcome ≠ .halted) :
    (t.node? h = none ∧ t.replaceValue h x = t.refuse (.invalidHandle h)) ∨
      (∃ s, f = ofSprigs [s] ∧ s.handle = h ∧ (t.replaceValue h x).outcome = .done s.value ∧
        (t.replaceValue h x).tree.Shows (ofSprigs [⟨s.handle, x, s.below⟩])) ∨
      ∃ s ∈ f.nodes, ∃ i c, s.below.sprigs[i]? = some c ∧ c.handle = h ∧
        ((∃ k, t.policy.keyed = true ∧ t.policy.place (s.below.pluckAt i).rootValues x = .taken k ∧
            t.replaceValue h x = t.refuse (.duplicateKey s.handle)) ∨
          ∃ j, Resettled t.policy s.below i x j ∧ (t.replaceValue h x).outcome = .done c.value ∧
            (t.replaceValue h x).tree.Shows
              (f.mapBelow s.handle (swapAt i j ⟨c.handle, x, c.below⟩))) := by
  rcases shows.locate h with ⟨dead, slot⟩ | ⟨s, rfl, rfl, -⟩ | ⟨s, mem, i, c, child, rfl, -⟩
  · refine .inl ⟨dead, ?_⟩
    rw [replaceValue, slot, require_error]
  · exact .inr (.inl ⟨s, rfl, rfl, shows.replaceValue_root x⟩)
  · have fits : Fits t.policy s.below i x := by
      rcases fits_or_overruns t.policy child x with fits | ⟨j, keyed, place, past⟩
      · exact fits
      · rw [shows.stores.replaceValue_overrun mem child keyed place past] at goesOn
        exact (goesOn.elim (not_inRange_of_overrun keyed place past) (· rfl)).elim
    refine .inr (.inr ⟨s, mem, i, c, child, rfl, ?_⟩)
    rcases shows.stores.replaceValue_of_fits mem child fits with
      refused | ⟨j, settled, t', done, stores, root⟩
    · exact .inl refused
    · refine .inr ⟨j, settled, ?_⟩
      rw [done]
      exact ⟨rfl, shows_mapBelow (shows.roots_of_eq root) stores⟩

/-! ## Replacement of a subtree -/

theorem Stores.substitute_root (stores : t.Stores q (ofSprigs [s]) (n.records q ++ rest)) (x : α) :
    ∃ t' : Tree α, t.substitute s.handle n.handle x none = t'.answer n.handle ∧
      t'.Stores q (ofSprigs [n]) rest ∧ t'.root = some n.handle := by
  refine ⟨_, rfl, ?_, rfl⟩
  have freed := Stores.release (t := { t with root := some n.handle }) stores
  rwa [← records_single] at freed

/-- A sprig stored beside the forest takes the place of a child and its subtree, unless another
child has its key. -/
theorem Stores.substitute_cases (stores : t.Stores q f (n.records (some s.handle) ++ rest))
    (mem : s ∈ f.nodes) (child : s.below.sprigs[i]? = some c) (fits : Fits t.policy s.below i x) :
    (∃ k, t.policy.keyed = true ∧ t.policy.place (s.below.pluckAt i).rootValues x = .taken k ∧
        ∃ t' : Tree α, t.substitute c.handle n.handle x (some (s.handle, i)) =
          t'.refuse (.duplicateKey s.handle) ∧ t'.Stores q f rest ∧ t'.root = t.root) ∨
      ∃ j, Resettled t.policy s.below i x j ∧ ∃ t' : Tree α,
        t.substitute c.handle n.handle x (some (s.handle, i)) = t'.answer n.handle ∧
        t'.Stores q (f.mapBelow s.handle (swapAt i j n)) rest ∧ t'.root = t.root := by
  have supply := List.perm_append_comm_assoc (c.records (some s.handle))
    (n.records (some s.handle)) rest
  rw [substitute, stores.placeAmongOthers_eq mem child]
  by_cases keyed : t.policy.keyed = true
  · rw [if_pos keyed]
    cases place : t.policy.place (s.below.pluckAt i).rootValues x with
    | taken k =>
      exact .inl ⟨k, keyed, rfl, _, rfl, stores.release_beside, rfl⟩
    | before j =>
      have settled : Resettled t.policy s.below i x j := by rwa [Resettled, if_pos keyed]
      refine .inr ⟨j, settled, ?_⟩
      by_cases same : j = i
      · subst same
        dsimp only
        rw [if_pos rfl, andThen_answer]
        exact ⟨_, rfl, (stores.overwrite mem child supply).release_beside, rfl⟩
      · obtain ⟨t', moved, stored, root⟩ := stores.moveChild mem child (fits j settled) supply
        dsimp only
        rw [if_neg same, moved, andThen_answer]
        exact ⟨_, rfl, stored.release_beside, root⟩
  · refine .inr ⟨i, by rw [Resettled, if_neg keyed], ?_⟩
    rw [if_neg keyed]
    dsimp only
    rw [if_pos rfl, andThen_answer]
    exact ⟨_, rfl, (stores.overwrite mem child supply).release_beside, rfl⟩

/-- A sprig whose place is past the end takes the child that it replaces out of the list and stops
there. -/
theorem Stores.substitute_overrun (stores : t.Stores q f rest) (mem : s ∈ f.nodes)
    (child : s.below.sprigs[i]? = some c) (keyed : t.policy.keyed = true)
    (place : t.policy.place (s.below.pluckAt i).rootValues x = .before j)
    (past : (s.below.pluckAt i).sprigs.length < j) (h : Handle) :
    t.substitute c.handle h x (some (s.handle, i)) =
      ⟨.halted, t.updateChildren s.handle (·.eraseIdx i)⟩ := by
  rw [substitute, stores.placeAmongOthers_eq mem child, if_pos keyed, place]
  dsimp only
  rw [if_neg (ne_of_overrun child past), stores.moveChild_overrun mem child past]
  rfl

/-- What is stored beside the forest takes the place of the subtree at `h`, unless a sibling has its
key. -/
theorem Shows.substitute_beside (shows : t.Shows f) {h : Handle} {slot : Option (Handle × Nat)}
    {u : Tree α}
    (goesOn : t.policy.InRange ∨ (u.substitute h n.handle n.value slot).outcome ≠ .halted)
    (located : t.slotInParent h = .ok slot) (root : u.root = t.root) (policy : u.policy = t.policy)
    (stores : u.Stores none f (n.records (slot.map Prod.fst) ++ [])) :
    (∃ s ∈ f.nodes, ∃ i c k, s.below.sprigs[i]? = some c ∧ c.handle = h ∧
        t.policy.keyed = true ∧ t.policy.place (s.below.pluckAt i).rootValues n.value = .taken k ∧
        ∃ t' : Tree α, u.substitute h n.handle n.value slot = t'.refuse (.duplicateKey s.handle) ∧
          t'.Shows f) ∨
      ∃ t' : Tree α, u.substitute h n.handle n.value slot = t'.answer n.handle ∧
        ((∃ s, f = ofSprigs [s] ∧ s.handle = h ∧ t'.Shows (ofSprigs [n])) ∨
          ∃ s ∈ f.nodes, ∃ i j c, s.below.sprigs[i]? = some c ∧ c.handle = h ∧
            Resettled t.policy s.below i n.value j ∧
            t'.Shows (f.mapBelow s.handle (swapAt i j n))) := by
  rcases shows.slot_cases located with ⟨s, rfl, rfl, rfl⟩ | ⟨s, mem, i, c, child, rfl, rfl⟩
  · obtain ⟨t', done, stored, top⟩ := stores.substitute_root n.value
    have whole : (ofSprigs [n]).roots = t'.root.toList := by
      rw [roots_ofSprigs, top]
      rfl
    exact .inr ⟨t', done, .inl ⟨s, rfl, rfl, whole, stored⟩⟩
  · rw [← policy] at goesOn ⊢
    have fits : Fits u.policy s.below i n.value := by
      rcases fits_or_overruns u.policy child n.value with fits | ⟨j, keyed, place, past⟩
      · exact fits
      · rw [stores.substitute_overrun mem child keyed place past] at goesOn
        exact (goesOn.elim (not_inRange_of_overrun keyed place past) (· rfl)).elim
    rcases stores.substitute_cases mem child fits with
      ⟨k, keyed, place, t', refused, stored, kept⟩ | ⟨j, settled, t', done, stored, kept⟩
    · exact .inl ⟨s, mem, i, c, k, child, rfl, keyed, place, t', refused,
        shows.roots_of_eq (kept.trans root), stored⟩
    · exact .inr ⟨t', done, .inr ⟨s, mem, i, j, c, child, rfl, settled,
        shows_mapBelow (shows.roots_of_eq (kept.trans root)) stored⟩⟩

/-- A copy built beside the forest grows from its first node by the policy, and never halts. -/
theorem Stores.copy_beside {p : Option Handle} (stores : t.Stores p f rest) (x : α)
    (q : Option Handle) (source : Tree α) (k : Handle) {grown : Tree α}
    (start : grown = { t with arena := t.arena.allocate ⟨x, q, []⟩ }) :
    ∃ below, Grown t.policy (ofSprigs [⟨t.arena.fresh, x, nil⟩])
        (ofSprigs [⟨t.arena.fresh, x, below⟩]) ∧
      (grown.copyBelow source k t.arena.fresh).outcome ≠ .halted ∧
      (grown.copyBelow source k t.arena.fresh).tree.root = t.root ∧
      (grown.copyBelow source k t.arena.fresh).tree.Stores p f
        ((Sprig.mk t.arena.fresh x below).records q ++ rest) := by
  subst start
  have first := stores.allocate ⟨x, q, []⟩
  obtain ⟨f', grows, goesOn⟩ :=
    (Stores.beside (s := ⟨t.arena.fresh, x, nil⟩) first).copyBelow_grows source k
      t.arena.fresh (mem_handles (mem_nodes_single _))
  obtain ⟨growth, stores, root, -⟩ := grows
  obtain ⟨below, rfl⟩ := growth.exists_sprig
  exact ⟨below, growth, goesOn, root, stores.around⟩

/-- The copy that a replacement builds before it changes anything else. -/
def copyBeside (t : Tree α) (slot : Option (Handle × Nat)) (x : α) (source : Tree α) (k : Handle) :
    Reply α Nat :=
  copyBelow { t with arena := t.arena.allocate ⟨x, slot.map Prod.fst, []⟩ } source k t.arena.fresh

section Copied

variable {source : Tree α} {h k : Handle} {slot : Option (Handle × Nat)}

theorem Stores.copyBeside_spec (stores : t.Stores q f rest) (slot : Option (Handle × Nat)) (x : α)
    (source : Tree α) (k : Handle) :
    (t.copyBeside slot x source k).outcome ≠ .halted ∧
      (t.copyBeside slot x source k).tree.root = t.root ∧
      (t.copyBeside slot x source k).tree.policy = t.policy ∧
      ∃ below, Grown t.policy (ofSprigs [⟨t.arena.fresh, x, nil⟩])
          (ofSprigs [⟨t.arena.fresh, x, below⟩]) ∧
        (t.copyBeside slot x source k).tree.Stores q f
          ((Sprig.mk t.arena.fresh x below).records (slot.map Prod.fst) ++ rest) := by
  obtain ⟨below, grown, goesOn, root, stores⟩ :=
    stores.copy_beside x (slot.map Prod.fst) source k rfl
  exact ⟨goesOn, root, policy_copyBelow .., below, grown, stores⟩

theorem replaceWithSubtree_of_done (located : t.slotInParent h = .ok slot)
    (valued : source.value k = .ok x) {m : Nat}
    (done : (t.copyBeside slot x source k).outcome = .done m) :
    t.replaceWithSubtree h source k =
      (t.copyBeside slot x source k).tree.substitute h t.arena.fresh x slot := by
  rw [copyBeside] at done ⊢
  simp only [replaceWithSubtree, located, valued, require_ok, done]

theorem replaceWithSubtree_of_refused (located : t.slotInParent h = .ok slot)
    (valued : source.value k = .ok x) {e : TreeError}
    (refused : (t.copyBeside slot x source k).outcome = .refused e) :
    t.replaceWithSubtree h source k =
      ((t.copyBeside slot x source k).tree.release t.arena.fresh).refuse e := by
  rw [copyBeside] at refused ⊢
  simp only [replaceWithSubtree, located, valued, require_ok, refused]

/-- A replacement is refused before it copies or by its copy, which it takes away again. Otherwise
the whole copy is stored beside the forest. -/
theorem Shows.replaceWithSubtree_stages (shows : t.Shows f) (h : Handle) (source : Tree α)
    (k : Handle) :
    (∃ e, (t.replaceWithSubtree h source k).outcome = .refused e ∧
        (t.replaceWithSubtree h source k).tree.Shows f) ∨
      ∃ slot x m below, t.slotInParent h = .ok slot ∧ source.value k = .ok x ∧
        (t.copyBeside slot x source k).outcome = .done m ∧
        (t.copyBeside slot x source k).tree.root = t.root ∧
        (t.copyBeside slot x source k).tree.policy = t.policy ∧
        Grown t.policy (ofSprigs [⟨t.arena.fresh, x, nil⟩])
          (ofSprigs [⟨t.arena.fresh, x, below⟩]) ∧
        (t.copyBeside slot x source k).tree.Stores none f
          ((Sprig.mk t.arena.fresh x below).records (slot.map Prod.fst) ++ []) := by
  cases located : t.slotInParent h with
  | error e =>
    rw [replaceWithSubtree, located, require_error]
    exact .inl ⟨e, rfl, shows⟩
  | ok slot =>
    cases valued : source.value k with
    | error e =>
      rw [replaceWithSubtree, located, valued, require_ok, require_error]
      exact .inl ⟨e, rfl, shows⟩
    | ok x =>
      obtain ⟨goesOn, root, policy, below, grown, stores⟩ :=
        shows.stores.copyBeside_spec slot x source k
      cases outcome : (t.copyBeside slot x source k).outcome with
      | halted => exact absurd outcome goesOn
      | refused e =>
        rw [replaceWithSubtree_of_refused located valued outcome]
        exact .inl ⟨e, rfl, shows.roots_of_eq root, stores.release_beside⟩
      | done m => exact .inr ⟨slot, x, m, below, rfl, rfl, outcome, root, policy, grown, stores⟩

end Copied

/-- A subtree replacement that is refused leaves the forest as it was; one that succeeds puts a
sprig of new nodes, grown by the policy, in the place of the subtree. -/
theorem Shows.replaceWithSubtree_cases (shows : t.Shows f) (h : Handle) (source : Tree α)
    (k : Handle) (goesOn : t.policy.InRange ∨ (t.replaceWithSubtree h source k).outcome ≠ .halted) :
    (∃ e, (t.replaceWithSubtree h source k).outcome = .refused e ∧
        (t.replaceWithSubtree h source k).tree.Shows f) ∨
      ∃ n, (t.replaceWithSubtree h source k).outcome = .done n.handle ∧
        Grown t.policy (ofSprigs [⟨n.handle, n.value, nil⟩]) (ofSprigs [n]) ∧
        (∀ h ∈ n.handles, h ∉ f.handles) ∧
        ((∃ s, f = ofSprigs [s] ∧ s.handle = h ∧
            (t.replaceWithSubtree h source k).tree.Shows (ofSprigs [n])) ∨
          ∃ s ∈ f.nodes, ∃ i j c, s.below.sprigs[i]? = some c ∧ c.handle = h ∧
            Resettled t.policy s.below i n.value j ∧
            (t.replaceWithSubtree h source k).tree.Shows
              (f.mapBelow s.handle (swapAt i j n))) := by
  rcases shows.replaceWithSubtree_stages h source k with
    refused | ⟨slot, x, m, below, located, valued, copied, root, policy, grown, stores⟩
  · exact .inl refused
  · rw [replaceWithSubtree_of_done located valued copied] at goesOn ⊢
    rcases shows.substitute_beside goesOn located root policy stores with
      ⟨s, -, i, c, k, -, -, -, -, t', refused, shown⟩ | ⟨t', done, placed⟩
    · dsimp only at refused
      rw [refused]
      exact .inl ⟨_, rfl, shown⟩
    · dsimp only at done
      rw [done]
      exact .inr ⟨_, rfl, grown, stores.apart, placed⟩

end PolicyTree.Tree
