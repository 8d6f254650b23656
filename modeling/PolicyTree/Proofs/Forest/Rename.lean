import PolicyTree.Proofs.Forest.Level

/-! Forests under other handles. -/

namespace PolicyTree

variable {α : Type} {σ ρ : Handle → Handle}

/-- The same forest, with every handle renamed. -/
def Forest.rename (σ : Handle → Handle) : Forest α → Forest α
  | nil => nil
  | cons h x below later => cons (σ h) x (below.rename σ) (later.rename σ)

def Sprig.rename (σ : Handle → Handle) (s : Sprig α) : Sprig α :=
  ⟨σ s.handle, s.value, s.below.rename σ⟩

def Node.rename (σ : Handle → Handle) (n : Node α) : Node α :=
  ⟨n.value, n.parent.map σ, n.children.map σ⟩

/-- A stored node with every handle renamed. -/
def renameEntry (σ : Handle → Handle) (e : Handle × Node α) : Handle × Node α :=
  (σ e.1, e.2.rename σ)

namespace Sprig

variable (σ : Handle → Handle) (s : Sprig α)

@[simp] theorem handle_rename : (s.rename σ).handle = σ s.handle := rfl
@[simp] theorem value_rename : (s.rename σ).value = s.value := rfl
@[simp] theorem below_rename : (s.rename σ).below = s.below.rename σ := rfl

end Sprig

namespace Forest

variable {f : Forest α} {p : Handle}

@[simp] theorem sprigs_rename (σ : Handle → Handle) (f : Forest α) :
    (f.rename σ).sprigs = f.sprigs.map (Sprig.rename σ) := by
  induction f with
  | nil => rfl
  | cons h x below later _ ih =>
    rw [rename, sprigs_cons, ih]
    rfl

@[simp] theorem rename_ofSprigs (σ : Handle → Handle) (ss : List (Sprig α)) :
    (ofSprigs ss).rename σ = ofSprigs (ss.map (Sprig.rename σ)) := by
  rw [← ofSprigs_sprigs ((ofSprigs ss).rename σ), sprigs_rename, sprigs_ofSprigs]

theorem rename_single (σ : Handle → Handle) (s : Sprig α) :
    (ofSprigs [s]).rename σ = ofSprigs [s.rename σ] := by
  rw [rename_ofSprigs, List.map_singleton]

@[simp] theorem roots_rename (σ : Handle → Handle) (f : Forest α) :
    (f.rename σ).roots = f.roots.map σ := by
  rw [roots, sprigs_rename, roots, List.map_map, List.map_map]
  rfl

@[simp] theorem rootValues_rename (σ : Handle → Handle) (f : Forest α) :
    (f.rename σ).rootValues = f.rootValues := by
  rw [rootValues, sprigs_rename, List.map_map]
  rfl

@[simp] theorem nodes_rename (σ : Handle → Handle) (f : Forest α) :
    (f.rename σ).nodes = f.nodes.map (Sprig.rename σ) := by
  induction f with
  | nil => rfl
  | cons h x below later ihBelow ihLater =>
    rw [rename, nodes, ihBelow, ihLater, nodes, List.map_cons, List.map_append]
    rfl

theorem mem_rename {s : Sprig α} (mem : s ∈ f.nodes) (σ : Handle → Handle) :
    s.rename σ ∈ (f.rename σ).nodes := by
  rw [nodes_rename]
  exact List.mem_map_of_mem mem

theorem top_rename {s : Sprig α} (top : s ∈ f.sprigs) (σ : Handle → Handle) :
    s.rename σ ∈ (f.rename σ).sprigs := by
  rw [sprigs_rename]
  exact List.mem_map_of_mem top

theorem child_rename {s c : Sprig α} {i : Nat} (child : s.below.sprigs[i]? = some c)
    (σ : Handle → Handle) : (s.rename σ).below.sprigs[i]? = some (c.rename σ) := by
  rw [Sprig.below_rename, sprigs_rename, List.getElem?_map, child]
  rfl

@[simp] theorem handles_rename (σ : Handle → Handle) (f : Forest α) :
    (f.rename σ).handles = f.handles.map σ := by
  rw [handles, nodes_rename, handles, List.map_map, List.map_map]
  rfl

theorem records_rename (σ : Handle → Handle) (f : Forest α) (q : Option Handle) :
    (f.rename σ).records (q.map σ) = (f.records q).map (renameEntry σ) := by
  induction f generalizing q with
  | nil => rfl
  | cons h x below later ihBelow ihLater =>
    have under : (below.rename σ).records (some (σ h)) =
        (below.records (some h)).map (renameEntry σ) := ihBelow (some h)
    rw [rename, records, under, ihLater, records, List.map_cons, List.map_append, Sprig.record,
      roots_rename]
    rfl

theorem visits_rename (σ : Handle → Handle) (f : Forest α) (depth : Nat) :
    (f.rename σ).visits depth = (f.visits depth).map fun v => { v with handle := σ v.handle } := by
  induction f generalizing depth with
  | nil => rfl
  | cons h x below later ihBelow ihLater =>
    rw [rename, visits, ihBelow, ihLater, visits, List.map_cons, List.map_append]

theorem rename_congr (agree : ∀ h ∈ f.handles, ρ h = σ h) : f.rename ρ = f.rename σ := by
  induction f with
  | nil => rfl
  | cons h x below later ihBelow ihLater =>
    simp only [handles_cons, List.forall_mem_cons, List.forall_mem_append] at agree
    obtain ⟨here, inside, others⟩ := agree
    rw [rename, rename, here, ihBelow inside, ihLater others]

@[simp] theorem rename_id (f : Forest α) : f.rename id = f := by
  induction f with
  | nil => rfl
  | cons h x below later ihBelow ihLater => rw [rename, ihBelow, ihLater, id]

theorem rename_rename (f : Forest α) (σ ρ : Handle → Handle) :
    (f.rename σ).rename ρ = f.rename fun h => ρ (σ h) := by
  induction f with
  | nil => rfl
  | cons h x below later ihBelow ihLater => rw [rename, rename, ihBelow, ihLater, rename]

/-! ## Changes -/

theorem rename_plantAt (σ : Handle → Handle) (i : Nat) (s : Sprig α) (b : Forest α) :
    (b.plantAt i s).rename σ = (b.rename σ).plantAt i (s.rename σ) := by
  rw [plantAt, rename_ofSprigs, List.map_insertIdx, plantAt, sprigs_rename, List.length_map]

theorem rename_pluckAt (σ : Handle → Handle) (i : Nat) (b : Forest α) :
    (b.pluckAt i).rename σ = (b.rename σ).pluckAt i := by
  rw [pluckAt, rename_ofSprigs, ← List.eraseIdx_map, pluckAt, sprigs_rename]

theorem rename_swapAt (σ : Handle → Handle) (i j : Nat) (s : Sprig α) (b : Forest α) :
    (b.swapAt i j s).rename σ = (b.rename σ).swapAt i j (s.rename σ) := by
  rw [swapAt, rename_plantAt, rename_pluckAt, swapAt]

theorem rename_sortAt (σ : Handle → Handle) (i j : Nat) (cmp : α → α → Ordering) (b : Forest α) :
    (b.sortAt i j cmp).rename σ = (b.rename σ).sortAt i j cmp := by
  have sorted : ∀ ss : List (Sprig α),
      (ss.mergeSort fun s c => (cmp s.value c.value).isLE).map (Sprig.rename σ) =
        (ss.map (Sprig.rename σ)).mergeSort fun s c => (cmp s.value c.value).isLE :=
    fun ss => List.map_mergeSort fun _ _ _ _ => rfl
  rw [sortAt, rename_ofSprigs, List.map_append, List.map_append, sorted, sortAt, sprigs_rename]
  simp only [List.map_take, List.map_drop]

/-- A change of one sibling list, under other handles: those that were there have their names
already, and `p` shares its name with none of them. -/
theorem rename_mapBelow {k k' : Forest α → Forest α} (agree : ∀ h ∈ f.handles, ρ h = σ h)
    (single : ∀ h ∈ f.handles, σ h = σ p → h = p)
    (change : ∀ s ∈ f.nodes, s.handle = p → (k s.below).rename ρ = k' (s.below.rename σ)) :
    (f.mapBelow p k).rename ρ = (f.rename σ).mapBelow (σ p) k' := by
  induction f with
  | nil => rfl
  | cons h x below later ihBelow ihLater =>
    simp only [handles_cons, List.forall_mem_cons, List.forall_mem_append] at agree single
    simp only [nodes, List.forall_mem_cons, List.forall_mem_append] at change
    obtain ⟨agreeHere, agreeBelow, agreeLater⟩ := agree
    obtain ⟨singleHere, singleBelow, singleLater⟩ := single
    obtain ⟨changeHere, changeBelow, changeLater⟩ := change
    rw [mapBelow, rename, ihLater agreeLater singleLater changeLater, agreeHere, rename, mapBelow]
    by_cases here : h = p
    · rw [if_pos here, if_pos (congrArg σ here), changeHere here]
    · rw [if_neg here, if_neg fun same => here (singleHere same),
        ihBelow agreeBelow singleBelow changeBelow]

/-- A change that goes by places and values is the same under other handles. -/
theorem rename_mapBelow_of_natural {k k' : Forest α → Forest α}
    (single : ∀ h ∈ f.handles, σ h = σ p → h = p)
    (natural : ∀ b : Forest α, (k b).rename σ = k' (b.rename σ)) :
    (f.mapBelow p k).rename σ = (f.rename σ).mapBelow (σ p) k' :=
  rename_mapBelow (fun _ _ => rfl) single fun _ _ _ => natural _

end Forest

theorem Sprig.rename_rename (s : Sprig α) (σ ρ : Handle → Handle) :
    (s.rename σ).rename ρ = s.rename fun h => ρ (σ h) := by
  rw [rename, below_rename, Forest.rename_rename]
  rfl

@[simp] theorem Sprig.handles_rename (σ : Handle → Handle) (s : Sprig α) :
    (s.rename σ).handles = s.handles.map σ := by
  rw [← Forest.handles_single, ← Forest.handles_single]
  exact Forest.handles_rename σ (Forest.ofSprigs [s])

/-! ## New nodes -/

/-- `ρ` on the handles of `n`, and `σ` on all others. -/
def graft (σ ρ : Handle → Handle) (n : Sprig α) (h : Handle) : Handle :=
  if h ∈ n.handles then ρ h else σ h

theorem graft_of_mem {n : Sprig α} {h : Handle} (mem : h ∈ n.handles) : graft σ ρ n h = ρ h :=
  if_pos mem

theorem graft_of_notMem {n : Sprig α} {h : Handle} (absent : h ∉ n.handles) :
    graft σ ρ n h = σ h :=
  if_neg absent

theorem Sprig.rename_graft (σ ρ : Handle → Handle) (n : Sprig α) :
    n.rename (graft σ ρ n) = n.rename ρ := by
  obtain ⟨h, x, below⟩ := n
  have under : below.rename (graft σ ρ ⟨h, x, below⟩) = below.rename ρ :=
    Forest.rename_congr fun k mem => graft_of_mem (List.mem_cons_of_mem _ mem)
  rw [rename, rename, under, graft_of_mem (List.mem_cons_self ..)]

/-- A change that puts new nodes in, under handles of their own. -/
theorem Forest.rename_mapBelow_graft {f : Forest α} {n : Sprig α} {p : Handle}
    {k : Sprig α → Forest α → Forest α} (ρ : Handle → Handle)
    (single : ∀ h ∈ f.handles, σ h = σ p → h = p)
    (fresh : ∀ h ∈ n.handles, h ∉ f.handles)
    (natural : ∀ τ b, (k n b).rename τ = k (n.rename τ) (b.rename τ)) :
    (f.mapBelow p (k n)).rename (graft σ ρ n) = (f.rename σ).mapBelow (σ p) (k (n.rename ρ)) := by
  have agree : ∀ h ∈ f.handles, graft σ ρ n h = σ h := fun h live =>
    graft_of_notMem fun new => fresh h new live
  refine rename_mapBelow agree single fun s mem _ => ?_
  have under : s.below.rename (graft σ ρ n) = s.below.rename σ :=
    rename_congr fun h inside => agree h ((handles_below_sublist mem).subset inside)
  rw [natural, Sprig.rename_graft, under]

/-! ## Forests of the same shape -/

namespace Forest

variable {f g : Forest α}

/-- The listing without the handles. -/
def outline (f : Forest α) (depth : Nat) : List (Nat × α) :=
  (f.visits depth).map fun v => (v.depth, v.value)

theorem outline_cons (h : Handle) (x : α) (below later : Forest α) (depth : Nat) :
    (cons h x below later).outline depth =
      (depth, x) :: (below.outline (depth + 1) ++ later.outline depth) := by
  rw [outline, visits, List.map_cons, List.map_append]
  rfl

theorem outline_rename (σ : Handle → Handle) (f : Forest α) (depth : Nat) :
    (f.rename σ).outline depth = f.outline depth := by
  rw [outline, visits_rename, List.map_map]
  rfl

/-- The same forest if the handles are left out of account. -/
inductive Similar : Forest α → Forest α → Prop where
  | nil : Similar nil nil
  | cons {h k : Handle} {x : α} {below later below' later' : Forest α}
      (inside : Similar below below') (others : Similar later later') :
      Similar (cons h x below later) (cons k x below' later')

/-- A listing gives the shape of what is listed: it goes on at a lesser depth where a forest ends. -/
theorem similar_of_outline {depth : Nat} {l m : List (Nat × α)}
    (ends : ∀ e ∈ l.head?, e.1 < depth) (ends' : ∀ e ∈ m.head?, e.1 < depth)
    (same : f.outline depth ++ l = g.outline depth ++ m) : Similar f g ∧ l = m := by
  induction f generalizing g depth l m with
  | nil =>
    cases g with
    | nil => exact ⟨.nil, same⟩
    | cons h x below later =>
      obtain rfl : l = _ := same
      rw [outline_cons] at ends
      exact absurd (ends _ rfl) (Nat.lt_irrefl _)
  | cons h x below later ihBelow ihLater =>
    cases g with
    | nil =>
      obtain rfl : _ = m := same
      rw [outline_cons] at ends'
      exact absurd (ends' _ rfl) (Nat.lt_irrefl _)
    | cons h' x' below' later' =>
      -- What follows the children is later siblings, or what follows all of them.
      have onward : ∀ (later : Forest α) {l : List (Nat × α)}, (∀ e ∈ l.head?, e.1 < depth) →
          ∀ e ∈ (later.outline depth ++ l).head?, e.1 < depth + 1 := by
        intro later l ends e first
        cases later with
        | nil => exact Nat.lt_succ_of_lt (ends e first)
        | cons k y below later =>
          obtain rfl := Option.some.inj first
          exact Nat.lt_succ_self depth
      rw [outline_cons, outline_cons, List.cons_append, List.cons_append, List.append_assoc,
        List.append_assoc, List.cons.injEq] at same
      obtain ⟨value, same⟩ := same
      obtain rfl : x = x' := congrArg Prod.snd value
      obtain ⟨inside, same⟩ := ihBelow (onward later ends) (onward later' ends') same
      obtain ⟨others, same⟩ := ihLater ends ends' same
      exact ⟨.cons inside others, same⟩

/-- A forest without duplicates can take the handles of any other of its shape. -/
theorem Similar.exists_rename (similar : Similar f g) (nodup : f.handles.Nodup) :
    ∃ σ, g = f.rename σ := by
  induction similar with
  | nil => exact ⟨id, rfl⟩
  | @cons h k x below later below' later' inside others ihBelow ihLater =>
    obtain ⟨⟨notBelow, notLater⟩, nodupBelow, nodupLater, apart⟩ := nodup_cons_iff.mp nodup
    obtain ⟨σ, rfl⟩ := ihBelow nodupBelow
    obtain ⟨ρ, rfl⟩ := ihLater nodupLater
    refine ⟨fun m => if m = h then k else if m ∈ below.handles then σ m else ρ m, ?_⟩
    rw [rename, if_pos rfl]
    congr 1
    · apply rename_congr
      intro m mem
      rw [if_neg (ne_of_mem_of_not_mem mem notBelow), if_pos mem]
    · apply rename_congr
      intro m mem
      rw [if_neg (ne_of_mem_of_not_mem mem notLater), if_neg fun under => apart m under mem]

end Forest

end PolicyTree
