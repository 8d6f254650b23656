import PolicyTree.Proofs.Tree.Replication

/-! What a change of one child list leaves as it was. -/

namespace PolicyTree

open Forest

variable {α : Type}

/-- A stored node without its links. -/
def entryOf (e : Handle × Node α) : Handle × α := (e.1, e.2.value)

namespace Forest

variable {f b : Forest α} {g : Forest α → Forest α} {c s : Sprig α} {i : Nat}

/-! ## Records -/

/-- Pre-order is the order of the records. -/
theorem map_entry_visits_eq (f : Forest α) (depth : Nat) (q : Option Handle) :
    (f.visits depth).map Visit.entry = (f.records q).map entryOf := by
  induction f generalizing depth q with
  | nil => rfl
  | cons h x below later ihBelow ihLater =>
    rw [visits, records, List.map_cons, List.map_cons, List.map_append, List.map_append,
      ihBelow (depth + 1) (some h), ihLater depth q]
    rfl

/-- The records of a child stand together among those of its siblings. -/
theorem records_around_child (child : b.sprigs[i]? = some c) (q : Option Handle) :
    ∃ front back, b.records q = front ++ c.records q ++ back ∧
      (b.pluckAt i).records q = front ++ back := by
  obtain ⟨inside, rfl⟩ := List.getElem?_eq_some_iff.mp child
  have split : b.sprigs = b.sprigs.take i ++ b.sprigs[i] :: b.sprigs.drop (i + 1) := by
    rw [List.getElem_cons_drop, List.take_append_drop]
  refine ⟨(b.sprigs.take i).flatMap (·.records q), (b.sprigs.drop (i + 1)).flatMap (·.records q),
    ?_, ?_⟩
  · conv_lhs => rw [records_eq_flatMap, split]
    rw [List.flatMap_append, List.flatMap_cons, List.append_assoc]
  · rw [records_eq_flatMap, pluckAt, sprigs_ofSprigs, List.eraseIdx_eq_take_drop_succ,
      List.flatMap_append]

/-- What is cut out of one child list is cut out of the whole listing. -/
theorem listing_cut (nodup : f.handles.Nodup) (mem : s ∈ f.nodes)
    {front gone back : List (Handle × Node α)}
    (before : s.below.records (some s.handle) = front ++ gone ++ back)
    (after : (g s.below).records (some s.handle) = front ++ back) :
    ∃ front back, (f.visits 0).map Visit.entry = front ++ gone.map entryOf ++ back ∧
      ((f.mapBelow s.handle g).visits 0).map Visit.entry = front ++ back := by
  obtain ⟨upper, lower, p, split⟩ := exists_split nodup mem none
  have whole : f.records none = upper ++ s.records p ++ lower := by simpa using split fun b => b
  refine ⟨upper.map entryOf ++ (s.handle, s.value) :: front.map entryOf,
    back.map entryOf ++ lower.map entryOf, ?_, ?_⟩
  · rw [map_entry_visits_eq f 0 none, whole, Sprig.records, before]
    simp [entryOf, Sprig.record]
  · rw [map_entry_visits_eq _ 0 none, split g, Sprig.records, after]
    simp [entryOf, Sprig.record]

/-! ## Exchanges -/

/-- From `f` to `f'` the nodes of `new` come for those of `gone`, and the child list of `p` changes.
All else stays as it is. -/
def Exchanged (f f' : Forest α) (p : Handle) (gone new : List (Handle × Node α)) : Prop :=
  ∃ n hs kept, (f.records none).Perm (gone ++ (p, n) :: kept) ∧
    (f'.records none).Perm (new ++ (p, { n with children := hs }) :: kept)

variable {gone new stay : List (Handle × Node α)}

theorem exchanged_mapBelow (nodup : f.handles.Nodup) (mem : s ∈ f.nodes)
    (before : (s.below.records (some s.handle)).Perm (gone ++ stay))
    (after : ((g s.below).records (some s.handle)).Perm (new ++ stay)) :
    f.Exchanged (f.mapBelow s.handle g) s.handle gone new := by
  obtain ⟨front, back, p, split⟩ := exists_split nodup mem none
  have listed : ∀ (k : Forest α → Forest α) {moved : List (Handle × Node α)},
      ((k s.below).records (some s.handle)).Perm (moved ++ stay) →
      ((f.mapBelow s.handle k).records none).Perm
        (moved ++ (s.handle, ⟨s.value, p, (k s.below).roots⟩) :: (stay ++ (front ++ back))) := by
    intro k moved same
    rw [split k, Sprig.records]
    have first := perm_front_middle front ((k s.below).records (some s.handle)) back []
      (Sprig.record ⟨s.handle, s.value, k s.below⟩ p)
    rw [List.append_nil, List.append_nil] at first
    refine first.trans (((same.append_right _).cons _).trans ?_)
    rw [List.append_assoc]
    exact List.perm_middle.symm
  refine ⟨⟨s.value, p, s.below.roots⟩, _, _, ?_, listed g after⟩
  simpa using listed (fun b => b) before

theorem exchanged_plantAt (nodup : f.handles.Nodup) (mem : s ∈ f.nodes) (i : Nat) (n : Sprig α) :
    f.Exchanged (f.mapBelow s.handle (plantAt i n)) s.handle [] (n.records (some s.handle)) :=
  exchanged_mapBelow nodup mem (.refl _) (records_perm_cons (sprigs_plantAt_perm i n s.below) _)

theorem exchanged_pluckAt (nodup : f.handles.Nodup) (mem : s ∈ f.nodes)
    (child : s.below.sprigs[i]? = some c) :
    f.Exchanged (f.mapBelow s.handle (pluckAt i)) s.handle (c.records (some s.handle)) [] :=
  exchanged_mapBelow nodup mem (records_perm_cons (sprigs_pluckAt_perm child) _) (.refl _)

theorem exchanged_bare (nodup : f.handles.Nodup) (mem : s ∈ f.nodes) :
    f.Exchanged (f.mapBelow s.handle fun _ => nil) s.handle
      (s.below.records (some s.handle)) [] := by
  have before : (s.below.records (some s.handle)).Perm (s.below.records (some s.handle) ++ []) := by
    rw [List.append_nil]
  exact exchanged_mapBelow nodup mem before (.refl _)

theorem exchanged_swapAt (nodup : f.handles.Nodup) (mem : s ∈ f.nodes)
    (child : s.below.sprigs[i]? = some c) (j : Nat) (n : Sprig α) :
    f.Exchanged (f.mapBelow s.handle (swapAt i j n)) s.handle (c.records (some s.handle))
      (n.records (some s.handle)) :=
  exchanged_mapBelow nodup mem (records_perm_cons (sprigs_pluckAt_perm child) _)
    (records_perm_cons (sprigs_plantAt_perm j n (s.below.pluckAt i)) _)

theorem exchanged_sortAt (nodup : f.handles.Nodup) (mem : s ∈ f.nodes) {j : Nat} (le : i ≤ j)
    (cmp : α → α → Ordering) :
    f.Exchanged (f.mapBelow s.handle (sortAt i j cmp)) s.handle [] [] :=
  exchanged_mapBelow nodup mem (.refl _) (records_perm_of_perm (sprigs_sortAt_perm le cmp s.below) _)

/-- A new value takes a child along with all below it. -/
theorem exchanged_revalueAt (nodup : f.handles.Nodup) (mem : s ∈ f.nodes)
    (child : s.below.sprigs[i]? = some c) (j : Nat) (x : α) :
    f.Exchanged (f.mapBelow s.handle (swapAt i j ⟨c.handle, x, c.below⟩)) s.handle
      [c.record (some s.handle)] [Sprig.record ⟨c.handle, x, c.below⟩ (some s.handle)] :=
  exchanged_mapBelow nodup mem (records_perm_cons (sprigs_pluckAt_perm child) _)
    (records_perm_cons (sprigs_plantAt_perm j ⟨c.handle, x, c.below⟩ (s.below.pluckAt i)) _)

end Forest

namespace Tree

variable {t t' : Tree α} {f f' : Forest α} {g : Forest α → Forest α} {s k : Sprig α}
  {gone : Set Handle} {p : Option Handle} {h : Handle} {c : Sprig α} {i : Nat}

/-! ## Nodes that stay -/

/-- Every node of `t` outside `gone` is in `t'` with its value, its parent and its children; only
the children of `p` may be others. -/
def Keeps (t t' : Tree α) (gone : Set Handle) (p : Option Handle) : Prop :=
  ∀ h n, t.node? h = some n → h ∉ gone →
    ∃ hs, t'.node? h = some { n with children := hs } ∧ (p ≠ some h → hs = n.children)

theorem keeps_of_all (all : ∀ h, t.contains h = true → h ∈ gone) : t.Keeps t' gone p :=
  fun h n live spared => absurd (all h (Arena.contains_iff.mpr ⟨n, live⟩)) spared

section Exchanged

variable {m : Handle} {taken new : List (Handle × Node α)}

theorem Shows.keeps_of_exchanged (shows : t.Shows f) (shown : t'.Shows f')
    (exchanged : f.Exchanged f' m taken new) :
    t.Keeps t' {h | h ∈ taken.map Prod.fst} (some m) := by
  obtain ⟨n, hs, kept, before, after⟩ := exchanged
  intro h k live spared
  -- A stored node has gone, is the one whose children changed, or is among those kept.
  have stored := before.mem_iff.mp (shows.node?_eq_some_iff.mp live)
  have stays : ∀ k', (h, k') ∈ (m, { n with children := hs }) :: kept → t'.node? h = some k' :=
    fun k' listed => shown.node?_eq_some_iff.mpr
      (after.mem_iff.mpr (List.mem_append_right _ listed))
  rcases List.mem_append.mp stored with left | stored
  · have gone : h ∈ taken.map Prod.fst := List.mem_map_of_mem left
    exact absurd gone spared
  · rcases List.mem_cons.mp stored with here | other
    · cases here
      exact ⟨hs, stays _ (List.mem_cons_self ..), fun apart => absurd rfl apart⟩
    · exact ⟨k.children, stays _ (List.mem_cons_of_mem _ other), fun _ => rfl⟩

/-- The live handles are those that stay and those that come. -/
theorem Shows.contains_iff_of_exchanged (shows : t.Shows f) (shown : t'.Shows f')
    (exchanged : f.Exchanged f' m taken new) :
    t'.contains h = true ↔
      h ∈ new.map Prod.fst ∨ t.contains h = true ∧ h ∉ taken.map Prod.fst := by
  obtain ⟨n, hs, kept, before, after⟩ := exchanged
  have old := before.map Prod.fst
  have now := after.map Prod.fst
  rw [map_fst_records, List.map_append, List.map_cons] at old now
  have nodup := shows.nodup
  rw [old.nodup_iff, List.nodup_append'] at nodup
  rw [shows.contains_iff, shown.contains_iff, old.mem_iff, now.mem_iff, List.mem_append,
    List.mem_append]
  apply or_congr_right
  constructor
  · intro stays
    exact ⟨.inr stays, fun left => nodup.2.2 left stays⟩
  · rintro ⟨left | stays, spared⟩
    · exact absurd left spared
    · exact stays

theorem Shows.len_of_exchanged (shows : t.Shows f) (shown : t'.Shows f')
    (exchanged : f.Exchanged f' m taken new) : t'.len + taken.length = t.len + new.length := by
  obtain ⟨n, hs, kept, before, after⟩ := exchanged
  have old := before.length_eq
  have now := after.length_eq
  rw [length_records, ← shows.len_eq, List.length_append, List.length_cons] at old
  rw [length_records, ← shown.len_eq, List.length_append, List.length_cons] at now
  omega

end Exchanged

/-! ## Where a node stands -/

theorem parent_of_node? {n : Node α} (live : t.node? h = some n) : t.parent h = .ok n.parent := by
  rw [parent, node, live]
  rfl

theorem Shows.parent_of_root (shows : t.Shows (ofSprigs [s])) : t.parent s.handle = .ok none :=
  parent_of_node? (shows.stores.node?_of_mem_sprigs (s := s) (by simp))

theorem Stores.parent_of_child {rest : List (Handle × Node α)} (stores : t.Stores p f rest)
    (mem : s ∈ f.nodes) (child : s.below.sprigs[i]? = some c) :
    t.parent c.handle = .ok (some s.handle) :=
  parent_of_node? (stores.node?_of_child mem (List.mem_of_getElem? child))

theorem Stores.position?_of_child {rest : List (Handle × Node α)} (stores : t.Stores p f rest)
    (mem : s ∈ f.nodes) (child : s.below.sprigs[i]? = some c) :
    t.position? c.handle = some i := by
  rw [position?, stores.slotInParent_of_child mem child]

theorem Shows.exists_child_of_parent (shows : t.Shows f) {m : Handle}
    (above : t.parent h = .ok (some m)) :
    ∃ s ∈ f.nodes, ∃ (i : Nat) (c : Sprig α), s.below.sprigs[i]? = some c ∧ s.handle = m ∧
      c.handle = h := by
  rcases shows.locate h with ⟨dead, -⟩ | ⟨s, rfl, rfl, -⟩ | ⟨s, mem, i, c, child, rfl, -⟩
  · rw [parent, node, dead] at above
    cases above
  · rw [shows.parent_of_root] at above
    cases above
  · rw [shows.stores.parent_of_child mem child] at above
    cases above
    exact ⟨s, mem, i, c, child, rfl, rfl⟩

/-! ## Listings -/

theorem Stores.map_entry_preOrderFrom {q : Option Handle} {rest : List (Handle × Node α)}
    (stores : t.Stores q f rest) (mem : k ∈ f.nodes) (p : Option Handle) :
    (t.preOrderFrom k.handle).map (List.map Visit.entry) = .ok ((k.records p).map entryOf) := by
  rw [stores.preOrderFrom_eq mem, ← records_single, ← map_entry_visits_eq _ 0]
  rfl

/-- The children of a node after its list has been changed. -/
theorem Shows.childrenAt_mapBelow (shown : t'.Shows (f.mapBelow s.handle g))
    (nodup : f.handles.Nodup) (mem : s ∈ f.nodes) :
    t'.childrenAt s.handle = (g s.below).roots :=
  shown.stores.childrenAt_eq (mem_nodes_mapBelow_self nodup mem g)

end Tree

end PolicyTree
