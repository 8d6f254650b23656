import PolicyTree.Proofs.Tree.Frame

/-! What an erasure takes out: one block of the pre-order listing, and nothing else. -/

namespace PolicyTree.Tree

open Forest

variable {α : Type} {t t' : Tree α} {f f' : Forest α} {s c : Sprig α} {p : Option Handle}
  {h : Handle} {i : Nat} {block : List (Handle × α)} {e : Edit (Tree α) α}

/-- From `t` to `t'` the nodes of `block` have gone, which stood together in the pre-order listing,
and their slots are free. All other nodes stay as they are, but for the child list of `p`. -/
structure Excises (t t' : Tree α) (block : List (Handle × α)) (p : Option Handle) : Prop where
  listed : ∃ front back, t.preOrder.map Visit.entry = front ++ block ++ back ∧
    t'.preOrder.map Visit.entry = front ++ back
  dead : ∀ e ∈ block, ¬t'.contains e.1 = true
  kept : t.Keeps t' {h | h ∈ block.map Prod.fst} p
  freed : t'.arena.freeCount = t.arena.freeCount + block.length

/-! ## One block -/

theorem map_fst_entries (f : Forest α) (depth : Nat) :
    ((f.visits depth).map Visit.entry).map Prod.fst = f.handles := by
  rw [List.map_map]
  exact map_handle_visits f depth

theorem map_fst_entryOf (es : List (Handle × Node α)) :
    (es.map entryOf).map Prod.fst = es.map Prod.fst := by
  rw [List.map_map]
  rfl

/-- Slots only change hands between nodes and the free list. -/
theorem Shows.freeCount_add_len (shows : t.Shows f) (goesOn : e.resets = false)
    (same : t.built e = t) :
    (t.perform e).tree.arena.freeCount + (t.perform e).tree.len = t.arena.freeCount + t.len := by
  have worn := worn_perform t goesOn
  rw [same] at worn
  have before := shows.holds.kept.size_eq
  have after := (worn.kept shows.holds.kept).size_eq
  rw [worn.size_eq] at after
  rw [len, len]
  omega

/-- An edit that stores nothing and cuts a block out of the listing frees this block. -/
theorem Shows.excises (shows : t.Shows f) (shown : (t.perform e).tree.Shows f')
    (goesOn : e.resets = false) (same : t.built e = t)
    (cut : ∃ front back, (f.visits 0).map Visit.entry = front ++ block ++ back ∧
      (f'.visits 0).map Visit.entry = front ++ back)
    (kept : t.Keeps (t.perform e).tree {h | h ∈ block.map Prod.fst} p) :
    t.Excises (t.perform e).tree block p where
  listed := by rwa [shows.preOrder_eq, shown.preOrder_eq]
  dead := by
    obtain ⟨front, back, whole, left⟩ := cut
    have nodup := shows.nodup
    rw [← map_fst_entries f 0, whole, List.map_append, List.map_append, List.nodup_append',
      List.nodup_append'] at nodup
    intro e mem live
    rw [shown.contains_iff, ← map_fst_entries f' 0, left, List.map_append, List.mem_append] at live
    have here : e.1 ∈ block.map Prod.fst := List.mem_map_of_mem mem
    rcases live with before | after
    · exact nodup.1.2.2 before here
    · exact nodup.2.2 (List.mem_append_right _ here) after
  kept := kept
  freed := by
    obtain ⟨front, back, whole, left⟩ := cut
    have slots := shows.freeCount_add_len goesOn same
    have before := congrArg List.length whole
    have after := congrArg List.length left
    rw [List.length_map, length_visits, ← shows.len_eq, List.length_append,
      List.length_append] at before
    rw [List.length_map, length_visits, ← shown.len_eq, List.length_append] at after
    omega

/-! ## Erasures -/

/-- The root goes with all that the tree holds. -/
theorem Shows.excises_erase_root (shows : t.Shows (ofSprigs [s])) :
    t.Excises (t.erase s.handle).tree ((s.records none).map entryOf) none := by
  have shown : (t.perform (.erase s.handle)).tree.Shows nil := shows.erase_root.2
  refine shows.excises shown rfl rfl ⟨[], [], ?_, rfl⟩ (keeps_of_all fun h live => ?_)
  · rw [map_entry_visits_eq _ 0 none, records_single, List.nil_append, List.append_nil]
  · rw [shows.contains_iff, handles_single, ← map_fst_records_sprig s none] at live
    rwa [Set.mem_ofPred_eq, map_fst_entryOf]

theorem Shows.excises_erase_child (shows : t.Shows f) (mem : s ∈ f.nodes)
    (child : s.below.sprigs[i]? = some c)
    (shown : (t.erase c.handle).tree.Shows (f.mapBelow s.handle (pluckAt i))) :
    t.Excises (t.erase c.handle).tree ((c.records (some s.handle)).map entryOf)
      (some s.handle) := by
  obtain ⟨front, back, whole, left⟩ := records_around_child child (some s.handle)
  have cut := listing_cut shows.nodup mem whole left
  refine shows.excises (e := .erase c.handle) shown rfl rfl cut ?_
  rw [map_fst_entryOf]
  exact shows.keeps_of_exchanged shown (exchanged_pluckAt shows.nodup mem child)

theorem Shows.excises_eraseChildren (shows : t.Shows f) (mem : s ∈ f.nodes)
    (shown : (t.eraseChildren s.handle).tree.Shows (f.mapBelow s.handle fun _ => nil)) :
    t.Excises (t.eraseChildren s.handle).tree
      ((s.below.records (some s.handle)).map entryOf) (some s.handle) := by
  have whole : s.below.records (some s.handle) = [] ++ s.below.records (some s.handle) ++ [] := by
    rw [List.nil_append, List.append_nil]
  have cut := listing_cut (g := fun _ => nil) shows.nodup mem whole rfl
  refine shows.excises (e := .eraseChildren s.handle) shown rfl rfl cut ?_
  rw [map_fst_entryOf]
  exact shows.keeps_of_exchanged shown (exchanged_bare shows.nodup mem)

theorem eq_answer {β : Type} {r : Reply α β} {b : β} (done : r.outcome = .done b) :
    r = r.tree.answer b := by
  rw [answer, ← done]

/-- Erasing a live node answers its value and takes out its block. The child list that it stood in
loses its entry alone. -/
theorem Shows.erase_block (shows : t.Shows f) (live : t.contains h = true) :
    ∃ t' x p block, t.erase h = t'.answer x ∧ t.get? h = some x ∧ t.parent h = .ok p ∧
      (t.preOrderFrom h).map (List.map Visit.entry) = .ok block ∧ t.Excises t' block p ∧
      (p = none → t.root = some h ∧ t'.root = none) ∧
      ∀ q, p = some q → t'.root = t.root ∧ ∃ i, t.position? h = some i ∧
        (t.childrenAt q)[i]? = some h ∧ t'.childrenAt q = (t.childrenAt q).eraseIdx i := by
  rcases shows.erase_cases h with ⟨dead, -⟩ | ⟨s, rfl, rfl, done, shown⟩ |
    ⟨s, mem, i, c, child, rfl, done, shown⟩
  · exact absurd live (Arena.not_contains_iff.mpr dead)
  · have only := mem_nodes_single s
    refine ⟨_, s.value, none, _, eq_answer done, shows.stores.get?_eq only, shows.parent_of_root,
      shows.stores.map_entry_preOrderFrom only none, shows.excises_erase_root, fun _ => ?_, nofun⟩
    refine ⟨shows.root_eq_some, ?_⟩
    have top := shown.roots_eq
    exact Option.toList_eq_nil_iff.mp top.symm
  · have inside := mem_nodes_of_child mem (List.mem_of_getElem? child)
    refine ⟨_, c.value, some s.handle, _, eq_answer done, shows.stores.get?_eq inside,
      shows.stores.parent_of_child mem child, shows.stores.map_entry_preOrderFrom inside _,
      shows.excises_erase_child mem child shown, nofun, ?_⟩
    rintro q ⟨⟩
    refine ⟨shows.root_eq_of_roots shown (roots_mapBelow ..), i,
      shows.stores.position?_of_child mem child, ?_, ?_⟩
    · rw [shows.stores.childrenAt_eq mem, getElem?_roots, child]
      rfl
    · rw [shows.stores.childrenAt_eq mem, shown.childrenAt_mapBelow shows.nodup mem, roots_pluckAt]

/-- Erasing the children of a live node takes out the block of its proper descendants and answers
how many they are. -/
theorem Shows.eraseChildren_block (shows : t.Shows f) (live : t.contains h = true) :
    ∃ t' x block, t.eraseChildren h = t'.answer block.length ∧
      (t.preOrderFrom h).map (List.map Visit.entry) = .ok ((h, x) :: block) ∧
      t.Excises t' block (some h) ∧ t'.root = t.root ∧ t'.children h = .ok [] := by
  rcases shows.eraseChildren_cases h with ⟨dead, -⟩ | ⟨s, mem, rfl, done, shown⟩
  · exact absurd live (Arena.not_contains_iff.mpr dead)
  · have counted : s.below.handles.length =
        ((s.below.records (some s.handle)).map entryOf).length := by
      rw [List.length_map, length_records]
    rw [counted] at done
    obtain ⟨p, stored⟩ := shown.stores.exists_node?
      (mem_nodes_mapBelow_self shows.nodup mem fun _ => nil)
    refine ⟨_, s.value, _, eq_answer done, shows.stores.map_entry_preOrderFrom mem none,
      shows.excises_eraseChildren mem shown, shows.root_eq_of_roots shown (roots_mapBelow ..), ?_⟩
    rw [children, node, stored]
    rfl

/-! ## Reachable trees -/

/-- Erasing a live node answers its value and takes out its block of the pre-order listing; the
child list that it stood in loses its entry alone. Erasing the children of a live node takes out the
block of its proper descendants and answers how many they are. An unkeyed policy is always in
range. -/
theorem Reachable.erase_excises (reached : t.Reachable)
    (allowed : t.policy.BuiltIn ∨ t.policy.InRange) (live : t.contains h = true) :
    (∃ t' x p block, t.erase h = t'.answer x ∧ t.get? h = some x ∧ t.parent h = .ok p ∧
      (t.preOrderFrom h).map (List.map Visit.entry) = .ok block ∧ t.Excises t' block p ∧
      (p = none → t.root = some h ∧ t'.root = none) ∧
      ∀ q, p = some q → t'.root = t.root ∧ ∃ i, t.position? h = some i ∧
        (t.childrenAt q)[i]? = some h ∧ t'.childrenAt q = (t.childrenAt q).eraseIdx i) ∧
    ∃ t' x block, t.eraseChildren h = t'.answer block.length ∧
      (t.preOrderFrom h).map (List.map Visit.entry) = .ok ((h, x) :: block) ∧
      t.Excises t' block (some h) ∧ t'.root = t.root ∧ t'.children h = .ok [] := by
  obtain ⟨f, shows, -⟩ := reached.exists_forest (allowed.elim Policy.BuiltIn.inRange id)
  exact ⟨shows.erase_block live, shows.eraseChildren_block live⟩

/-- A root with two children, of which the first has a child. -/
def sampleBranch : Tree Nat := ((Tree.sample .insertionOrder).insert ⟨1, 1, 0⟩ 9).tree

theorem reachable_sampleBranch : sampleBranch.Reachable :=
  ⟨[.withRoot 5 .insertionOrder, .edit 0 (.insert ⟨1, 0, 0⟩ 7), .edit 0 (.insert ⟨1, 0, 0⟩ 2),
    .edit 0 (.insert ⟨1, 1, 0⟩ 9)], List.mem_singleton.mpr rfl⟩

theorem erase_excises_sample :
    sampleBranch.contains ⟨1, 1, 0⟩ = true ∧
      (∃ t', sampleBranch.erase ⟨1, 1, 0⟩ = t'.answer 7 ∧
        sampleBranch.Excises t' [(⟨1, 1, 0⟩, 7), (⟨1, 3, 0⟩, 9)] (some ⟨1, 0, 0⟩)) ∧
      ∃ t', sampleBranch.eraseChildren ⟨1, 1, 0⟩ = t'.answer 1 ∧
        sampleBranch.Excises t' [(⟨1, 3, 0⟩, 9)] (some ⟨1, 1, 0⟩) := by
  have builtIn : sampleBranch.policy.BuiltIn := by
    rw [sampleBranch, policy_insert, policy_sample]
    exact .insertionOrder
  have live : sampleBranch.contains ⟨1, 1, 0⟩ = true := by decide +kernel
  have listed : ((sampleBranch.preOrderFrom ⟨1, 1, 0⟩).map (List.map Visit.entry)).toOption =
      some [(⟨1, 1, 0⟩, 7), (⟨1, 3, 0⟩, 9)] := by decide +kernel
  have valued : sampleBranch.get? ⟨1, 1, 0⟩ = some 7 := by decide +kernel
  have parent : (sampleBranch.parent ⟨1, 1, 0⟩).toOption = some (some ⟨1, 0, 0⟩) := by
    decide +kernel
  obtain ⟨⟨t₁, x, p, block, erased, value, above, from₁, cut, -⟩,
    t₂, y, under, bared, from₂, cut₂, -⟩ := reachable_sampleBranch.erase_excises (.inl builtIn) live
  rw [value] at valued
  rw [above] at parent
  cases valued
  cases parent
  have both := listed
  rw [from₁] at listed
  rw [from₂] at both
  cases listed
  cases both
  exact ⟨live, ⟨t₁, erased, cut⟩, t₂, bared, cut₂⟩

end PolicyTree.Tree
