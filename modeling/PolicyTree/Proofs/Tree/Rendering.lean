import PolicyTree.Proofs.Tree.Fragments
import PolicyTree.Proofs.Tree.Indistinct
import PolicyTree.Tree.Listing

/-! An indented listing gives back the shape of the tree and the texts of its values. -/

namespace PolicyTree

open Forest

variable {α β : Type}

/-! ## Lines -/

/-- A text on one line that does not begin with the indent. No text is plain if the indent is empty. -/
def Plain (indent text : String) : Prop :=
  '\n' ∉ text.toList ∧ ¬indent.toList <+: text.toList

/-- The text with the indent once per level. -/
def indented (indent : String) (e : Nat × String) : List Char :=
  (List.replicate e.1 indent.toList).flatten ++ e.2.toList

/-- The listing of texts at depths, every line ended by a newline. -/
def listed (indent : String) (es : List (Nat × String)) : List Char :=
  es.flatMap fun e => indented indent e ++ ['\n']

/-- A newline ends the line at the first place where it can. -/
theorem line_inj {x y r s : List Char} (single : '\n' ∉ x) (single' : '\n' ∉ y)
    (same : x ++ '\n' :: r = y ++ '\n' :: s) : x = y ∧ r = s := by
  induction x generalizing y with
  | nil =>
    cases y with
    | nil => exact ⟨rfl, List.tail_eq_of_cons_eq same⟩
    | cons c y => exact absurd (List.head_eq_of_cons_eq same ▸ List.mem_cons_self ..) single'
  | cons b x ih =>
    cases y with
    | nil => exact absurd (List.head_eq_of_cons_eq same ▸ List.mem_cons_self ..) single
    | cons c y =>
      rw [List.mem_cons, not_or] at single single'
      rw [List.cons_append, List.cons_append, List.cons.injEq] at same
      have ⟨line, later⟩ := ih single.2 single'.2 same.2
      exact ⟨by rw [same.1, line], later⟩

/-- As long as the indent can be taken off, there is a level. -/
theorem replicate_append_inj {w x y : List Char} {d e : Nat} (starts : ¬w <+: x) (starts' : ¬w <+: y)
    (same : (List.replicate d w).flatten ++ x = (List.replicate e w).flatten ++ y) :
    d = e ∧ x = y := by
  induction d generalizing e with
  | zero =>
    cases e with
    | zero => simpa using same
    | succ e =>
      refine absurd ?_ starts
      rw [List.replicate_zero, List.flatten_nil, List.nil_append, List.replicate_succ,
        List.flatten_cons, List.append_assoc] at same
      exact ⟨_, same.symm⟩
  | succ d ih =>
    rw [List.replicate_succ, List.flatten_cons, List.append_assoc] at same
    cases e with
    | zero => exact absurd ⟨_, same⟩ starts'
    | succ e =>
      rw [List.replicate_succ, List.flatten_cons, List.append_assoc] at same
      have ⟨depth, text⟩ := ih (List.append_cancel_left same)
      exact ⟨by rw [depth], text⟩

theorem newline_notMem_indented {indent : String} {e : Nat × String} (single : '\n' ∉ indent.toList)
    (plain : Plain indent e.2) : '\n' ∉ indented indent e := by
  have levels : '\n' ∉ (List.replicate e.1 indent.toList).flatten := fun mem =>
    have ⟨w, copy, inside⟩ := List.mem_flatten.mp mem
    single (List.eq_of_mem_replicate copy ▸ inside)
  simp [indented, levels, plain.1]

theorem indented_inj {indent : String} {d e : Nat × String} (plain : Plain indent d.2)
    (plain' : Plain indent e.2) (same : indented indent d = indented indent e) : d = e := by
  have ⟨depth, text⟩ := replicate_append_inj plain.2 plain'.2 same
  exact Prod.ext depth (String.toList_inj.mp text)

/-- A listing of plain texts can be read in one way only. -/
theorem listed_inj {indent : String} {ds es : List (Nat × String)} (single : '\n' ∉ indent.toList)
    (plain : ∀ d ∈ ds, Plain indent d.2) (plain' : ∀ e ∈ es, Plain indent e.2)
    (same : listed indent ds = listed indent es) : ds = es := by
  induction ds generalizing es with
  | nil =>
    cases es with
    | nil => rfl
    | cons e es => simp [listed] at same
  | cons d ds ih =>
    cases es with
    | nil => simp [listed] at same
    | cons e es =>
      rw [List.forall_mem_cons] at plain plain'
      simp only [listed, List.flatMap_cons, List.append_assoc, List.singleton_append] at same
      have ⟨line, later⟩ := line_inj (newline_notMem_indented single plain.1)
        (newline_notMem_indented single plain'.1) same
      rw [indented_inj plain.1 plain'.1 line, ih plain.2 plain'.2 later]

/-! ## Forests under other values -/

namespace Forest

/-- The same forest with `k` applied to every value. -/
def mapValues (k : α → β) : Forest α → Forest β
  | nil => nil
  | cons h x below later => cons h (k x) (below.mapValues k) (later.mapValues k)

theorem outline_mapValues (k : α → β) (f : Forest α) (depth : Nat) :
    (f.mapValues k).outline depth = (f.outline depth).map fun e => (e.1, k e.2) := by
  induction f generalizing depth with
  | nil => rfl
  | cons h x below later ihBelow ihLater =>
    rw [mapValues, outline_cons, outline_cons, ihBelow, ihLater, List.map_cons, List.map_append]

theorem similar_cons_iff {h k : Handle} {x y : α} {below later below' later' : Forest α} :
    Similar (cons h x below later) (cons k y below' later') ↔
      x = y ∧ Similar below below' ∧ Similar later later' := by
  constructor
  · rintro (_ | ⟨inside, others⟩)
    exact ⟨rfl, inside, others⟩
  · rintro ⟨rfl, inside, others⟩
    exact .cons inside others

theorem Similar.outline_eq {f g : Forest α} (similar : Similar f g) (depth : Nat) :
    f.outline depth = g.outline depth := by
  induction similar generalizing depth with
  | nil => rfl
  | cons _ _ ihBelow ihLater => rw [outline_cons, outline_cons, ihBelow, ihLater]

/-- Depths and values in pre-order determine the shape. -/
theorem outline_eq_iff {f g : Forest α} {depth : Nat} :
    f.outline depth = g.outline depth ↔ Similar f g := by
  refine ⟨fun same => ?_, fun similar => similar.outline_eq depth⟩
  exact (similar_of_outline (l := []) (m := []) nofun nofun (by rw [same])).1

end Forest

/-! ## Trees node by node -/

namespace Tree

variable {t : Tree α} {u : Tree β} {same : α → β → Prop} {f : Forest α} {g : Forest β}
  {q p : Option Handle} {rest : List (Handle × Node α)} {rest' : List (Handle × Node β)}
  {text : α → String} {text' : β → String} {indent : String}

/-- The nodes `hs` of `t` correspond to the nodes `ks` of `u` in turn, and so do their children, down
to the leaves; `same` holds of the values of any two that correspond. -/
inductive Mirrors (t : Tree α) (u : Tree β) (same : α → β → Prop) :
    List Handle → List Handle → Prop where
  | nil : Mirrors t u same [] []
  | cons {h k : Handle} {n : Node α} {m : Node β} {hs ks : List Handle}
      (stored : t.node? h = some n) (stored' : u.node? k = some m)
      (values : same n.value m.value) (inside : Mirrors t u same n.children m.children)
      (others : Mirrors t u same hs ks) : Mirrors t u same (h :: hs) (k :: ks)

theorem mirrors_cons_iff {h k : Handle} {n : Node α} {m : Node β} {hs ks : List Handle}
    (stored : t.node? h = some n) (stored' : u.node? k = some m) :
    t.Mirrors u same (h :: hs) (k :: ks) ↔ same n.value m.value ∧
      t.Mirrors u same n.children m.children ∧ t.Mirrors u same hs ks := by
  constructor
  · rintro (_ | ⟨node, node', values, inside, others⟩)
    rw [stored] at node
    rw [stored'] at node'
    cases node
    cases node'
    exact ⟨values, inside, others⟩
  · rintro ⟨values, inside, others⟩
    exact .cons stored stored' values inside others

/-- What corresponds in the trees is what corresponds in the forests that they store. -/
theorem Stores.mirrors_iff (stores : t.Stores q f rest) (stores' : u.Stores p g rest')
    {b : Forest α} {b' : Forest β} (within : b.nodes ⊆ f.nodes) (within' : b'.nodes ⊆ g.nodes) :
    t.Mirrors u (fun x y => text x = text' y) b.roots b'.roots ↔
      Similar (b.mapValues text) (b'.mapValues text') := by
  induction b generalizing b' with
  | nil =>
    cases b' with
    | nil => exact ⟨fun _ => .nil, fun _ => .nil⟩
    | cons => exact ⟨nofun, nofun⟩
  | cons h x below later ihBelow ihLater =>
    cases b' with
    | nil => exact ⟨nofun, nofun⟩
    | cons k y below' later' =>
      rw [nodes, List.cons_subset, List.append_subset] at within within'
      obtain ⟨here, inside, others⟩ := within
      obtain ⟨here', inside', others'⟩ := within'
      obtain ⟨above, stored⟩ := stores.exists_node? here
      obtain ⟨above', stored'⟩ := stores'.exists_node? here'
      rw [mapValues, mapValues, similar_cons_iff, ← ihBelow inside inside',
        ← ihLater others others']
      exact mirrors_cons_iff stored stored'

/-! ## Listings -/

/-- The tree below the root is stored, and it is what the pre-order listing shows. -/
theorem Reachable.exists_listed (reached : t.Reachable) :
    ∃ f rest, t.Stores none f rest ∧ f.roots = t.root.toList ∧ t.preOrder = f.visits 0 := by
  cases root : t.root with
  | none =>
    obtain ⟨pieces, breaks⟩ := reached.exists_pieces
    refine ⟨.nil, _, breaks.holds, rfl, ?_⟩
    rw [preOrder, walk, root]
    cases t.len <;> rfl
  | some h =>
    obtain ⟨s, rest, stores, rfl⟩ := reached.exists_root root
    have mem := mem_nodes_single s
    refine ⟨ofSprigs [s], rest, stores, rfl, ?_⟩
    rw [preOrder, walk, root, stores.visits_from mem (stores.length_handles_le mem)]

theorem toList_renderWith (text : α → String) (indent : String) (t : Tree α) :
    (t.renderWith text indent).toList =
      listed indent (t.outline.map fun e => (e.1, text e.2)) := by
  have line_eq : ∀ v : Visit α,
      (line text indent v).toList = indented indent (v.depth, text v.value) ++ ['\n'] := by
    intro v
    simp [line, indented, String.toList_join, List.flatMap_replicate]
  simp [renderWith, listed, outline, String.toList_join, List.flatMap_map, line_eq]

/-- Whatever the policies, and however the trees were made: if every value is written as a plain text,
the listings are equal exactly if the trees correspond from the roots down, with equal texts. -/
theorem Reachable.renderWith_eq_iff (reached : t.Reachable) (reached' : u.Reachable)
    (single : '\n' ∉ indent.toList) (plain : ∀ x ∈ t.values, Plain indent (text x))
    (plain' : ∀ y ∈ u.values, Plain indent (text' y)) :
    t.renderWith text indent = u.renderWith text' indent ↔
      t.Mirrors u (fun x y => text x = text' y) t.root.toList u.root.toList := by
  obtain ⟨f, rest, stores, top, order⟩ := reached.exists_listed
  obtain ⟨g, rest', stores', top', order'⟩ := reached'.exists_listed
  have outline : t.outline = f.outline 0 := by rw [Tree.outline, order, Forest.outline]
  have outline' : u.outline = g.outline 0 := by rw [Tree.outline, order', Forest.outline]
  have read : t.renderWith text indent = u.renderWith text' indent ↔
      (t.outline.map fun e => (e.1, text e.2)) = u.outline.map fun e => (e.1, text' e.2) := by
    rw [← String.toList_inj, toList_renderWith, toList_renderWith]
    refine ⟨listed_inj single ?_ ?_, congrArg _⟩
    · simpa [Tree.outline, values] using plain
    · simpa [Tree.outline, values] using plain'
  rw [read, outline, outline', ← outline_mapValues, ← outline_mapValues, outline_eq_iff, ← top,
    ← top', stores.mirrors_iff stores' (List.Subset.refl _) (List.Subset.refl _)]

/-- Nodes of two arenas, one of them in a slot used before, listed as `5`, `--2` and `--7`. -/
theorem renderWith_eq_sample :
    (Tree.sample .naturalOrder).renderWith toString "--" = "5\n--2\n--7\n" ∧
      (sampleAnew .naturalOrder).renderWith toString "--" = "5\n--2\n--7\n" ∧
      (Tree.sample .naturalOrder).Mirrors (sampleAnew .naturalOrder)
        (fun x y => toString x = toString y) [⟨1, 0, 0⟩] [⟨2, 0, 0⟩] := by
  have listing : (Tree.sample .naturalOrder).renderWith toString "--" = "5\n--2\n--7\n" := by
    decide +kernel
  have listing' : (sampleAnew .naturalOrder).renderWith toString "--" = "5\n--2\n--7\n" := by
    decide +kernel
  have values : (Tree.sample .naturalOrder).values = [5, 2, 7] := by decide +kernel
  have values' : (sampleAnew .naturalOrder).values = [5, 2, 7] := by decide +kernel
  have root : (Tree.sample .naturalOrder).root = some ⟨1, 0, 0⟩ := by decide +kernel
  have root' : (sampleAnew .naturalOrder).root = some ⟨2, 0, 0⟩ := by decide +kernel
  have single : '\n' ∉ "--".toList := by decide
  have plain : ∀ x ∈ [5, 2, 7], Plain "--" (toString x) := by
    unfold Plain
    decide +kernel
  have spec := (reachable_sample .naturalOrder).renderWith_eq_iff
    (reachable_sampleAnew .naturalOrder) single (values ▸ plain) (values' ▸ plain)
  rw [root, root'] at spec
  exact ⟨listing, listing', spec.mp (listing.trans listing'.symm)⟩

end Tree

end PolicyTree
