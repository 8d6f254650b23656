import PolicyTree.Proofs.Tree.Picture
import PolicyTree.Tree.Walk

/-! The way up from a node to the root, and how long it is. -/

namespace PolicyTree.Tree

open Forest

variable {α : Type} {t : Tree α} {f : Forest α} {o q : Option Handle} {h : Handle} {n : Node α}
  {d d' : Nat}

/-- Going up from `o`, which may be past the root, `d` nodes are met. -/
inductive Climbs (t : Tree α) : Option Handle → Nat → Prop where
  | top : Climbs t none 0
  | step {h : Handle} {n : Node α} {d : Nat} (stored : t.node? h = some n)
      (above : Climbs t n.parent d) : Climbs t (some h) (d + 1)

theorem Climbs.unique (first : t.Climbs o d) (second : t.Climbs o d') : d = d' := by
  induction first generalizing d' with
  | top =>
    cases second
    rfl
  | step stored _ ih =>
    cases second with
    | step stored' above' =>
      rw [stored] at stored'
      cases stored'
      rw [ih above']

theorem Climbs.length_ascend (climbs : t.Climbs o d) {bound : Nat} (enough : d ≤ bound) :
    (t.ascend bound o).length = d := by
  induction climbs generalizing bound with
  | top => cases bound <;> rfl
  | step stored _ ih =>
    cases bound with
    | zero => omega
    | succ bound => simp [ascend, stored, ih (Nat.le_of_succ_le_succ enough)]

/-- From every node of a stored forest one gets to the top by way of other nodes of the forest, and
on from there. -/
theorem climbs_of_stored (stored : ∀ e ∈ f.records q, t.node? e.1 = some e.2)
    (climbs : t.Climbs q d) :
    ∀ e ∈ f.records q, ∃ d', t.Climbs e.2.parent d' ∧ d' < d + f.handles.length := by
  induction f generalizing q d with
  | nil => nofun
  | cons h x below later ihBelow ihLater =>
    rw [handles_cons, List.length_cons, List.length_append]
    simp only [records, List.mem_cons, List.mem_append] at stored ⊢
    rintro e (rfl | under | beside)
    · exact ⟨d, climbs, by omega⟩
    · have onward : t.Climbs (some h) (d + 1) := .step (stored _ (.inl rfl)) climbs
      obtain ⟨d', up, less⟩ := ihBelow (fun e mem => stored e (.inr (.inl mem))) onward e under
      exact ⟨d', up, by omega⟩
    · obtain ⟨d', up, less⟩ := ihLater (fun e mem => stored e (.inr (.inr mem))) climbs e beside
      exact ⟨d', up, by omega⟩

/-- The depth of a live node counts the nodes above it. -/
theorem Shows.depth_eq (shows : t.Shows f) (live : t.node? h = some n) :
    ∃ d, t.Climbs n.parent d ∧ t.depth h = .ok d := by
  have stored : ∀ e ∈ f.records none, t.node? e.1 = some e.2 := fun _ =>
    shows.node?_eq_some_iff.mpr
  obtain ⟨d, climbs, less⟩ :=
    climbs_of_stored stored .top _ (shows.node?_eq_some_iff.mp live)
  rw [Nat.zero_add, ← shows.len_eq] at less
  refine ⟨d, climbs, ?_⟩
  simp [depth, ancestors, parent, node, live, Except.map,
    climbs.length_ascend (Nat.le_of_lt less)]

end PolicyTree.Tree
