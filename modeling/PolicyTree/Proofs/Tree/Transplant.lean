import PolicyTree.Proofs.Tree.Cloning
import PolicyTree.Proofs.Tree.Fragments
import PolicyTree.Proofs.Tree.Substitution
import PolicyTree.Proofs.Tree.Unrolling

/-! What all below a node becomes that is copied below a childless node, under any policy: a stack
of pending levels comes to what a recursion would. -/

namespace PolicyTree.Tree

open Forest

variable {α : Type} {t t' source : Tree α} {f g : Forest α} {p q up : Option Handle}
  {rest rest' others : List (Handle × Node α)} {s k m : Sprig α} {d h : Handle} {x : α}
  {policy : Policy α} {partner : Handle → Handle}

/-! ## Growth below one node -/

/-- From `t` to `t'` nodes have come below `d` only, and nothing else has changed but the child list
of `d`. -/
structure Sprouts (t t' : Tree α) (d : Handle) : Prop where
  kept : t.Keeps t' ∅ (some d)
  fresh : ∀ h, t'.Above d h → ¬t.contains h = true
  contains_iff : ∀ h, t'.contains h = true ↔ t.contains h = true ∨ t'.Above d h
  root_eq : t'.root = t.root
  policy_eq : t'.policy = t.policy

/-- A childless node, with all else beside it. -/
theorem Stores.exists_bare (stores : t.Stores q f rest) (mem : s ∈ f.nodes)
    (bare : t.childrenAt s.handle = []) :
    ∃ up others, t.Stores up (ofSprigs [⟨s.handle, s.value, nil⟩]) others := by
  obtain ⟨up, record⟩ := exists_record_mem mem q
  obtain ⟨front, back, split⟩ := List.append_of_mem record
  have roots : s.below.roots = [] := (stores.childrenAt_eq mem).symm.trans bare
  refine ⟨up, front ++ (back ++ rest), Arena.Holds.perm stores ?_⟩
  rw [split, Sprig.record, roots, List.append_assoc, List.cons_append]
  exact List.perm_middle

theorem Stores.sprouts (stores : t.Stores up (ofSprigs [⟨d, x, nil⟩]) others)
    (grows : t.Grows (ofSprigs [⟨d, x, nil⟩]) up others t' f) : t.Sprouts t' d := by
  obtain ⟨below, rfl⟩ := grows.grown.exists_sprig
  have mem := mem_nodes_single (Sprig.mk d x below)
  have above := fun h => grows.stores.above_iff (h := h) mem
  have before : ∀ h, t.contains h = true ↔ h = d ∨ h ∈ others.map Prod.fst := by
    intro h
    rw [stores.contains_iff, handles_single]
    simp [Sprig.handles, Sprig.nodes]
  have distinct := grows.stores.nodup
  rw [handles_single] at distinct
  refine ⟨fun h n live _ => ?_, fun h under live => ?_, fun h => ?_, grows.root_eq,
    grows.policy_eq⟩
  · rcases List.mem_cons.mp ((Arena.Holds.bound stores h n).mp live) with here | other
    · cases here
      exact ⟨below.roots, grows.stores.node?_of_mem_sprigs (s := ⟨d, x, below⟩) (by simp),
        fun apart => absurd rfl apart⟩
    · exact ⟨n.children, Arena.Holds.get? grows.stores (List.mem_append_right _ other),
        fun _ => rfl⟩
  · have inside := (above h).mp under
    rcases (before h).mp live with rfl | other
    · exact (List.nodup_cons.mp distinct).1 inside
    · refine grows.stores.notMem_rest ?_ other
      rw [handles_single]
      exact List.mem_cons_of_mem _ inside
  · rw [grows.stores.contains_iff, handles_single, before, above]
    have whole : h ∈ (Sprig.mk d x below).handles ↔ h = d ∨ h ∈ below.handles := List.mem_cons
    rw [whole]
    tauto

/-! ## Levels -/

/-- Of the children of `k`, placed one by one as the policy says, one is refused. -/
def Jams (t : Tree α) (policy : Policy α) (k : Handle) : Prop :=
  ∃ front c back placed x i, t.childrenAt k = front ++ c :: back ∧
    t.rearranged policy front = some placed ∧ t.get? c = some x ∧
    policy.place (t.valuesAt placed) x = .taken i

theorem Stores.jams_iff (stores : t.Stores q f rest) (mem : m ∈ f.nodes) :
    t.Jams policy m.handle ↔ m.clashes policy = true := by
  have inside : ∀ c ∈ m.below.sprigs, c ∈ f.nodes := fun c child => mem_nodes_of_child mem child
  rw [Sprig.clashes, Option.isNone_iff_eq_none, Policy.arrange, Policy.arrangeAfter_eq_none_iff,
    Jams, stores.childrenAt_eq mem]
  constructor
  · rintro ⟨_, _, _, placed, x, i, split, arranged, valued, taken⟩
    obtain ⟨front, tail, sprigs, rfl, more⟩ := List.map_eq_append_iff.mp split
    obtain ⟨c, back, rfl, rfl, rfl⟩ := List.map_eq_cons_iff.mp more
    rw [sprigs] at inside
    have before : ∀ c ∈ front, c ∈ f.nodes := fun c mem => inside c (List.mem_append_left _ mem)
    rw [stores.rearranged_map before] at arranged
    obtain ⟨out, arrangement, rfl⟩ := Option.map_eq_some_iff.mp arranged
    have same := Policy.perm_of_arrange arrangement
    rw [stores.get?_eq (inside c (by simp))] at valued
    cases valued
    rw [stores.valuesAt_map_handle fun c mem => before c (same.mem_iff.mp mem)] at taken
    exact ⟨front, c, back, out, i, sprigs, arrangement, taken⟩
  · rintro ⟨front, c, back, out, i, sprigs, arranged, taken⟩
    rw [sprigs] at inside
    have before : ∀ c ∈ front, c ∈ f.nodes := fun c mem => inside c (List.mem_append_left _ mem)
    have same := Policy.perm_of_arrange arranged
    refine ⟨front.map Sprig.handle, c.handle, back.map Sprig.handle, out.map Sprig.handle, c.value,
      i, ?_, ?_, stores.get?_eq (inside c (by simp)), ?_⟩
    · rw [roots, sprigs, List.map_append, List.map_cons]
    · rw [stores.rearranged_map before, Policy.arrange, arranged]
      rfl
    · rwa [stores.valuesAt_map_handle fun c mem => before c (same.mem_iff.mp mem)]

/-! ## Copies below a node -/

/-- `partner` takes the subtree at `s` in `source` one to one to that at `d`. Below `d` values and
parents are those of the nodes copied, and everywhere the children are in the sequence in which the
policy of `t` arranges those copied, placed from first to last. -/
structure Transplants (t source : Tree α) (s d : Handle) (partner : Handle → Handle) : Prop where
  top_eq : partner s = d
  bijOn : Set.BijOn partner (source.subtree s) (t.subtree d)
  children_eq : ∃ hs, source.rearranged t.policy (source.childrenAt s) = some hs ∧
    t.childrenAt d = hs.map partner
  node?_eq : ∀ k n, source.Above s k → source.node? k = some n → ∃ hs,
    source.rearranged t.policy n.children = some hs ∧
    t.node? (partner k) = some ⟨n.value, n.parent.map partner, hs.map partner⟩

theorem Stores.transplants (stored : source.Stores p g rest') (mem : k ∈ g.nodes)
    (clear : ∀ s ∈ k.nodes, s.clashes t.policy = false) {x : α}
    (stores : t.Stores q
      (ofSprigs [({ k with value := x } : Sprig α).replica t.policy partner]) rest) :
    t.Transplants source k.handle (partner k.handle) partner := by
  have placed := mem_nodes_single (({ k with value := x } : Sprig α).replica t.policy partner)
  have follows : ∀ s ∈ k.nodes, Follows (source.rearranged t.policy) t.policy s := fun s inside =>
    stored.follows_rearranged ((nodes_sublist mem).subset inside) (clear s inside)
  refine ⟨rfl, ?_, ?_, fun h n above live => ?_⟩
  · have copies : Set.BijOn partner {h | h ∈ ({ k with value := x } : Sprig α).handles} _ :=
      Sprig.bijOn_replica (handles_single _ ▸ stores.nodup) (Follows.clear_under follows x)
    have before : source.subtree k.handle = {h | h ∈ k.handles} :=
      Set.ext fun h => stored.mem_subtree_iff mem
    have after : t.subtree (partner k.handle) =
        {h | h ∈ (({ k with value := x } : Sprig α).replica t.policy partner).handles} :=
      Set.ext fun h => stores.mem_subtree_iff placed
    rw [before, after]
    exact copies
  · obtain ⟨hs, ordered, roots⟩ := (follows k (List.mem_cons_self ..)).exists_roots partner
    rw [stored.childrenAt_eq mem]
    exact ⟨hs, ordered, (stores.childrenAt_eq placed).trans roots⟩
  · exact stored.node?_below_replica mem stores follows placed ((stored.above_iff mem).mp above) live

/-- The first level in `k.backward` that clashes is the first in the listing that jams. -/
theorem Stores.exists_jam (stores : t.Stores q f rest) (mem : k ∈ f.nodes) {c : Sprig α}
    (first : k.backward.find? (Sprig.clashes policy) = some c) :
    ∃ before x after, t.Unrolls List.reverse [k.handle] (before ++ (c.handle, x) :: after) ∧
      t.Jams policy c.handle ∧ ∀ e ∈ before, ¬t.Jams policy e.1 := by
  have within : ∀ s ∈ k.backward, s ∈ f.nodes := fun s inside =>
    (nodes_sublist mem).subset ((backward_perm_sprig k).mem_iff.mp inside)
  obtain ⟨clash, front, back, split, free⟩ := List.find?_eq_some_iff_append.mp first
  rw [split] at within
  have listed : t.Unrolls List.reverse [k.handle] (k.backward.map Sprig.entry) := by
    have unrolled := stores.unrolls_reverse (b := ofSprigs [k]) (by simpa using mem)
    rw [roots_ofSprigs] at unrolled
    simpa [backward_eq_flatMap] using unrolled
  rw [split, List.map_append, List.map_cons] at listed
  refine ⟨_, _, _, listed, (stores.jams_iff (within c (by simp))).mpr clash, fun e earlier => ?_⟩
  obtain ⟨s, here, rfl⟩ := List.mem_map.mp earlier
  have unclashed := free s here
  intro jams
  rw [(stores.jams_iff (within s (List.mem_append_left _ here))).mp jams] at unclashed
  cases unclashed

/-- All below `s` is copied below a childless node `d` as by recursion, unless a level jams. Then the
copy is refused at the first level that does, children taken last to first. Nodes have come below
`d` only, also where the copy was broken off. -/
theorem Reachable.copyBelow_transplants (reached : t.Reachable) (origin : source.Reachable)
    {s d : Handle} (live : source.contains s = true) (dest : t.contains d = true)
    (bare : t.childrenAt d = []) :
    t.Sprouts (t.copyBelow source s d).tree d ∧
      ((∃ e, (t.copyBelow source s d).outcome = .refused e) ↔
        ∃ k ∈ source.subtree s, source.Jams t.policy k) ∧
      ((∃ partner, (t.copyBelow source s d).outcome = .done {k | source.Above s k}.ncard ∧
          (t.copyBelow source s d).tree.Transplants source s d partner) ∨
        ∃ before k x after, source.Unrolls List.reverse [s] (before ++ (k, x) :: after) ∧
          source.Jams t.policy k ∧ (∀ e ∈ before, ¬source.Jams t.policy e.1) ∧
          (t.copyBelow source s d).outcome = .refused (.duplicateKey k)) := by
  obtain ⟨p, g, rest', stored, k, mem, rfl⟩ := origin.exists_stored live
  obtain ⟨q, f, rest, holding, m, inside, rfl⟩ := reached.exists_stored dest
  -- A copy changes the arena at `d` and at fresh handles, so `d` is all that has to be in view.
  obtain ⟨up, others, stores⟩ := holding.exists_bare inside bare
  have held : t.arena.Holds ((m.handle, ⟨m.value, up, []⟩) :: others) := stores
  have present : m.handle ∈ (ofSprigs [⟨m.handle, m.value, nil⟩]).handles := by
    rw [handles_single]
    exact List.mem_cons_self ..
  obtain ⟨f', grows, -⟩ := stores.copyBelow_grows source k.handle m.handle present
  have within : ∀ s ∈ k.nodes, s ∈ g.nodes := fun s under => (nodes_sublist mem).subset under
  refine ⟨stores.sprouts grows, ?_⟩
  rcases copyBelow_cases_under stored mem held with
    ⟨c, first, refused⟩ | ⟨clear, partner, done, named, holds⟩
  · obtain ⟨before, x, after, listed, jams, free⟩ := stored.exists_jam mem first
    have under := (backward_perm_sprig k).mem_iff.mp (List.mem_of_find?_eq_some first)
    have below := (stored.mem_subtree_iff mem).mpr (List.mem_map_of_mem under)
    exact ⟨iff_of_true ⟨_, refused⟩ ⟨c.handle, below, jams⟩,
      .inr ⟨before, c.handle, x, after, listed, jams, free, refused⟩⟩
  · have clear := find?_clashes_eq_none_iff.mp clear
    rw [done]
    refine ⟨iff_of_false ?_ ?_, .inl ⟨partner, ?_, ?_⟩⟩
    · rintro ⟨e, refused⟩
      cases refused
    · rintro ⟨h, below, jams⟩
      obtain ⟨s, under, rfl⟩ := List.mem_map.mp ((stored.mem_subtree_iff mem).mp below)
      rw [stored.jams_iff (within s under), clear s under] at jams
      cases jams
    · have descendants : {h | source.Above k.handle h} = {h | h ∈ k.below.handles} :=
        Set.ext fun h => stored.above_iff mem
      have distinct : k.handles.Nodup :=
        stored.nodup.sublist (handles_sublist mem)
      have under : k.below.handles.Nodup := (List.nodup_cons.mp distinct).2
      rw [descendants, ncard_handles under]
    · rw [← grows.policy_eq] at clear holds
      have copied : (t.copyBelow source k.handle m.handle).tree.Stores up
          (ofSprigs [({ k with value := m.value } : Sprig α).replica
            (t.copyBelow source k.handle m.handle).tree.policy partner]) others := by
        rw [Stores, records_single]
        exact holds
      have transplants := stored.transplants mem clear copied
      rwa [named] at transplants

/-- Two levels are copied below a childless node, unless 13 and 9 on the lower one are not told apart
by their last digits to the base 4. -/
theorem copyBelow_transplants_sample :
    (∃ partner,
      ((Tree.sample .newestFirst).copyBelow (Tree.sampleDeep .insertionOrder) ⟨1, 0, 0⟩
          ⟨1, 1, 0⟩).outcome =
        .done {k | (Tree.sampleDeep .insertionOrder).Above ⟨1, 0, 0⟩ k}.ncard ∧
      ((Tree.sample .newestFirst).copyBelow (Tree.sampleDeep .insertionOrder) ⟨1, 0, 0⟩
        ⟨1, 1, 0⟩).tree.Transplants (Tree.sampleDeep .insertionOrder) ⟨1, 0, 0⟩ ⟨1, 1, 0⟩ partner) ∧
    ∃ k ∈ (Tree.sampleDeep .insertionOrder).subtree ⟨1, 0, 0⟩,
      (Tree.sampleDeep .insertionOrder).Jams (Tree.sample (.byKey (· % 4))).policy k := by
  have live : (Tree.sampleDeep .insertionOrder).contains ⟨1, 0, 0⟩ = true := by decide +kernel
  constructor
  · have spec := (reachable_sample .newestFirst).copyBelow_transplants
      (reachable_sampleDeep .insertionOrder) live (d := ⟨1, 1, 0⟩) (by decide +kernel)
      (by decide +kernel)
    have done : ((Tree.sample .newestFirst).copyBelow (Tree.sampleDeep .insertionOrder) ⟨1, 0, 0⟩
        ⟨1, 1, 0⟩).outcome.isDone = true := by decide +kernel
    rcases spec.2.2 with copied | ⟨-, k, -, -, -, -, -, refused⟩
    · exact copied
    · rw [refused] at done
      cases done
  · have spec := (reachable_sample (.byKey (· % 4))).copyBelow_transplants
      (reachable_sampleDeep .insertionOrder) live (d := ⟨1, 1, 0⟩) (by decide +kernel)
      (by decide +kernel)
    exact spec.2.1.mp ⟨.duplicateKey ⟨1, 1, 0⟩, by decide +kernel⟩

end PolicyTree.Tree
