import PolicyTree.Proofs.Tree.Traversal

/-! Recursive listings, from a node to its children. -/

namespace PolicyTree

open Forest

variable {α : Type}

/-- A node as listings show it. -/
def Sprig.entry (s : Sprig α) : Handle × α := (s.handle, s.value)

namespace Tree

variable {t : Tree α} {f : Forest α} {q : Option Handle} {rest : List (Handle × Node α)}
  {turn : List Handle → List Handle} {hs ks : List Handle} {es es' later : List (Handle × α)}
  {s : Sprig α}

/-- `es` lists the nodes `hs` one by one, each before the listing of its children in the sequence
that `turn` makes of them. -/
inductive Unrolls (t : Tree α) (turn : List Handle → List Handle) :
    List Handle → List (Handle × α) → Prop where
  | nil : Unrolls t turn [] []
  | cons {h : Handle} {n : Node α} {hs : List Handle} {under later : List (Handle × α)}
      (stored : t.node? h = some n) (below : Unrolls t turn (turn n.children) under)
      (beside : Unrolls t turn hs later) : Unrolls t turn (h :: hs) ((h, n.value) :: (under ++ later))

/-- The recursion leaves nothing open. -/
theorem Unrolls.unique (first : t.Unrolls turn hs es) (second : t.Unrolls turn hs es') :
    es = es' := by
  induction first generalizing es' with
  | nil =>
    cases second
    rfl
  | cons stored _ _ ihBelow ihBeside =>
    cases second with
    | cons stored' below' beside' =>
      rw [stored] at stored'
      cases stored'
      rw [ihBelow below', ihBeside beside']

theorem Unrolls.append (first : t.Unrolls turn hs es) (second : t.Unrolls turn ks later) :
    t.Unrolls turn (hs ++ ks) (es ++ later) := by
  induction first with
  | nil => exact second
  | cons stored below _ _ ih =>
    rw [List.cons_append, List.cons_append, List.append_assoc]
    exact .cons stored below ih

/-- From first to last, stored siblings unroll to their nodes in pre-order. -/
theorem Stores.unrolls (stores : t.Stores q f rest) {b : Forest α}
    (inside : ∀ s ∈ b.sprigs, s ∈ f.nodes) : t.Unrolls id b.roots (b.nodes.map Sprig.entry) := by
  induction b with
  | nil => exact .nil
  | cons h x below later ihBelow ihLater =>
    have here : ⟨h, x, below⟩ ∈ f.nodes := inside _ (List.mem_cons_self ..)
    obtain ⟨p, stored⟩ := stores.exists_node? here
    rw [nodes, List.map_cons, List.map_append]
    exact .cons stored (ihBelow fun c child => mem_nodes_of_child here child)
      (ihLater fun c top => inside c (List.mem_cons_of_mem _ top))

/-- From last to first, they unroll to their nodes with later siblings before earlier ones. -/
theorem Stores.unrolls_reverse (stores : t.Stores q f rest) {b : Forest α}
    (inside : ∀ s ∈ b.sprigs, s ∈ f.nodes) :
    t.Unrolls List.reverse b.roots.reverse (b.backward.map Sprig.entry) := by
  induction b with
  | nil => exact .nil
  | cons h x below later ihBelow ihLater =>
    have here : ⟨h, x, below⟩ ∈ f.nodes := inside _ (List.mem_cons_self ..)
    obtain ⟨p, stored⟩ := stores.exists_node? here
    have under := ihBelow fun c child => mem_nodes_of_child here child
    have first := ihLater fun c top => inside c (List.mem_cons_of_mem _ top)
    have last : t.Unrolls List.reverse [h] ((h, x) :: (below.backward.map Sprig.entry ++ [])) :=
      .cons stored under .nil
    rw [List.append_nil] at last
    rw [roots, sprigs_cons, List.map_cons, List.reverse_cons, Forest.backward,
      List.map_append]
    exact first.append last

theorem Stores.unrolls_node (stores : t.Stores q f rest) (mem : s ∈ f.nodes) :
    t.Unrolls id [s.handle] (s.nodes.map Sprig.entry) := by
  have listed := stores.unrolls (b := ofSprigs [s]) (by simpa using mem)
  rwa [roots_ofSprigs, nodes_single] at listed

end Tree

end PolicyTree
