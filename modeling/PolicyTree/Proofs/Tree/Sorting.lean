import PolicyTree.Proofs.Forest.Siblings
import PolicyTree.Proofs.Tree.Relink
import PolicyTree.Tree.Sort

/-! Sort requests sort a range of siblings, each with its subtree. -/

namespace PolicyTree.Tree

open Forest

variable {α : Type} {t : Tree α} {f : Forest α} {q : Option Handle} {rest : List (Handle × Node α)}
  {s c : Sprig α} {i j : Nat} {cmp : α → α → Ordering}

/-- Stored nodes are looked up with their values. -/
theorem Stores.mapM_entries (stores : t.Stores q f rest) {ss : List (Sprig α)}
    (all : ∀ s ∈ ss, s ∈ f.nodes) :
    (ss.map Sprig.handle).mapM (fun h => (t.get? h).map fun x => (x, h)) =
      some (ss.map fun s => (s.value, s.handle)) := by
  induction ss with
  | nil => rfl
  | cons s ss ih =>
    have others := ih fun c mem => all c (List.mem_cons_of_mem _ mem)
    simp [List.mapM_cons, stores.get?_eq (all s (List.mem_cons_self ..)), others]

/-- The sorted handles are those of the sprigs sorted by their values. -/
theorem Stores.sortedHandles_eq (stores : t.Stores q f rest) (cmp : α → α → Ordering)
    {ss : List (Sprig α)} (all : ∀ s ∈ ss, s ∈ f.nodes) :
    t.sortedHandles cmp (ss.map Sprig.handle) =
      some ((ss.mergeSort fun s c => (cmp s.value c.value).isLE).map Sprig.handle) := by
  have keyed := List.map_mergeSort (r := fun s c : Sprig α => (cmp s.value c.value).isLE)
    (s := fun a b : α × Handle => (cmp a.1 b.1).isLE) (f := fun s => (s.value, s.handle)) (l := ss)
    (fun _ _ _ _ => rfl)
  rw [sortedHandles, stores.mapM_entries all]
  simp [← keyed]

/-- All children in the range are stored, so the sort goes through. -/
theorem Stores.sortRange_eq_answer (stores : t.Stores q f rest) (mem : s ∈ f.nodes)
    (i j : Nat) (cmp : α → α → Ordering) :
    t.sortRange s.handle i j cmp = (t.updateChildren s.handle fun hs => hs.take i ++
      (((s.below.sprigs.take j).drop i).mergeSort fun s c =>
        (cmp s.value c.value).isLE).map Sprig.handle ++ hs.drop j).answer () := by
  rw [sortRange, stores.childrenAt_eq mem, range_roots,
    stores.sortedHandles_eq cmp (mem_nodes_of_mem_range mem i j)]

theorem Stores.sortRange_eq (stores : t.Stores q f rest) (mem : s ∈ f.nodes) (le : i ≤ j)
    (cmp : α → α → Ordering) :
    ∃ t' : Tree α, t.sortRange s.handle i j cmp = t'.answer () ∧
      t'.Stores q (f.mapBelow s.handle (sortAt i j cmp)) rest ∧ t'.root = t.root := by
  refine ⟨_, stores.sortRange_eq_answer mem i j cmp, stores.updateChildren mem ?_ ?_, rfl⟩
  · exact roots_sortAt ..
  · exact (records_perm_of_perm (sprigs_sortAt_perm le cmp s.below) _).append_right rest

/-- A range of siblings is sorted, unless the policy keeps them in key order. -/
theorem Stores.sortBy_eq (stores : t.Stores q f rest) (mem : s ∈ f.nodes)
    (child : s.below.sprigs[i]? = some c) {last : Option Handle}
    (ends : t.rangeEnd s.handle c.handle last = .ok j) (le : i ≤ j) (cmp : α → α → Ordering) :
    ∃ t' : Tree α, t.sortBy c.handle last cmp = t'.answer () ∧
      t'.Stores q (f.mapBelow s.handle fun b => if t.policy.keyed then b else b.sortAt i j cmp)
        rest ∧ t'.root = t.root := by
  rw [sortBy, stores.slotInParent_of_child mem child, require_ok]
  dsimp only
  rw [ends, require_ok, if_neg (Nat.not_lt.mpr le)]
  cases t.policy.keyed with
  | true =>
    refine ⟨t, if_pos rfl, ?_, rfl⟩
    simpa using stores
  | false =>
    simp only [Bool.false_eq_true, if_false]
    exact stores.sortRange_eq mem le cmp

/-- All children of a node are sorted, unless the policy keeps them in key order. -/
theorem Stores.sortChildrenBy_eq (stores : t.Stores q f rest) (mem : s ∈ f.nodes)
    (cmp : α → α → Ordering) :
    ∃ t' : Tree α, t.sortChildrenBy s.handle cmp = t'.answer () ∧
      t'.Stores q (f.mapBelow s.handle fun b =>
        if t.policy.keyed then b else b.sortAt 0 s.below.sprigs.length cmp) rest ∧
      t'.root = t.root := by
  obtain ⟨p, stored⟩ := stores.exists_node? mem
  rw [sortChildrenBy, children, node, stored, Except.map, require_ok]
  dsimp only
  cases below : s.below.sprigs with
  | nil =>
    have bare : s.below = nil := by rw [← ofSprigs_sprigs s.below, below]; rfl
    have same : (if t.policy.keyed then s.below else s.below.sortAt 0 0 cmp) = s.below := by
      rw [bare]
      split
      · rfl
      · simp [sortAt, ofSprigs]
    rw [roots, below]
    refine ⟨t, rfl, ?_, rfl⟩
    rw [List.length_nil, mapBelow_congr_of_nodup (k := fun b => b) stores.nodup mem same, mapBelow_id]
    exact stores
  | cons c cs =>
    have first : s.below.sprigs[0]? = some c := by rw [below]; rfl
    have ends : t.rangeEnd s.handle c.handle none = .ok s.below.sprigs.length := by
      rw [rangeEnd, stores.childrenAt_eq mem, length_roots]
    have listed : s.below.roots = c.handle :: cs.map Sprig.handle := by
      rw [roots, below, List.map_cons]
    rw [← below, listed]
    exact stores.sortBy_eq mem first ends (Nat.zero_le _) cmp

/-- A range ends within the children of its parent. It has no end if `last` is dead or stands
elsewhere. -/
theorem Shows.rangeEnd_cases (shows : t.Shows f) (parent first : Handle) (last : Option Handle) :
    (∃ j ≤ (t.childrenAt parent).length, t.rangeEnd parent first last = .ok j) ∨
      ∃ k ∈ last, (t.node? k = none ∧ t.rangeEnd parent first last = .error (.invalidHandle k)) ∨
        t.rangeEnd parent first last = .error (.notSiblings first k) := by
  cases last with
  | none => exact .inl ⟨_, Nat.le_refl _, rfl⟩
  | some last =>
    rw [rangeEnd]
    rcases shows.locate last with ⟨dead, slot⟩ | ⟨s, -, -, -, slot⟩ | ⟨s, mem, i, c, child, -, slot⟩
    · rw [slot]
      exact .inr ⟨last, rfl, .inl ⟨dead, rfl⟩⟩
    · rw [slot]
      exact .inr ⟨last, rfl, .inr rfl⟩
    · rw [slot]
      by_cases here : s.handle = parent
      · refine .inl ⟨i, ?_, if_pos here⟩
        rw [← here, shows.stores.childrenAt_eq mem, length_roots]
        exact Nat.le_of_lt (List.getElem?_eq_some_iff.mp child).1
      · exact .inr ⟨last, rfl, .inr (if_neg here)⟩

/-- A sort request changes nothing, or sorts a range of siblings under an unkeyed policy. -/
theorem Shows.sortBy_cases (shows : t.Shows f) (first : Handle) (last : Option Handle)
    (cmp : α → α → Ordering) :
    (t.sortBy first last cmp).tree = t ∨
      ∃ s ∈ f.nodes, ∃ i j, i ≤ j ∧ t.policy.keyed = false ∧
        (t.sortBy first last cmp).tree.Shows (f.mapBelow s.handle (sortAt i j cmp)) := by
  rcases shows.locate first with ⟨-, slot⟩ | ⟨s, -, rfl, -, slot⟩ | ⟨s, mem, i, c, -, rfl, slot⟩
  · left
    rw [sortBy, slot, require_error, refuse_tree]
  · left
    rw [sortBy, slot, require_ok]
    dsimp only
    cases checkRootRange s.handle last <;> rfl
  · rw [sortBy, slot, require_ok]
    dsimp only
    cases t.rangeEnd s.handle c.handle last with
    | error e => exact .inl rfl
    | ok j =>
      rw [require_ok]
      by_cases reversed : j < i
      · rw [if_pos reversed]
        exact .inl rfl
      · rw [if_neg reversed]
        by_cases keyed : t.policy.keyed = true
        · rw [if_pos keyed]
          exact .inl rfl
        · obtain ⟨t', done, stores, root⟩ :=
            shows.stores.sortRange_eq mem (Nat.le_of_not_lt reversed) cmp
          rw [if_neg keyed, done]
          exact .inr ⟨s, mem, i, j, Nat.le_of_not_lt reversed, by simpa using keyed,
            shows_mapBelow (shows.roots_of_eq root) stores⟩

theorem Shows.sortChildrenBy_cases (shows : t.Shows f) (h : Handle) (cmp : α → α → Ordering) :
    (t.sortChildrenBy h cmp).tree = t ∨
      ∃ s ∈ f.nodes, ∃ i j, i ≤ j ∧ t.policy.keyed = false ∧
        (t.sortChildrenBy h cmp).tree.Shows (f.mapBelow s.handle (sortAt i j cmp)) := by
  unfold sortChildrenBy
  cases t.children h with
  | error e => exact .inl rfl
  | ok hs =>
    cases hs with
    | nil => exact .inl rfl
    | cons first hs => exact shows.sortBy_cases first none cmp

end PolicyTree.Tree
