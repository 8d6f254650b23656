import PolicyTree.Proofs.Forest.Siblings

/-! Changes of a forest in one sibling list, and in one value. -/

namespace PolicyTree.Forest

variable {α : Type} {f : Forest α} {p h : Handle} {g : Forest α → Forest α}

/-! ## One sibling list -/

/-- Changes the children of `p`. -/
def mapBelow (p : Handle) (g : Forest α → Forest α) : Forest α → Forest α
  | nil => nil
  | cons h x below later =>
    cons h x (if h = p then g below else mapBelow p g below) (mapBelow p g later)

theorem mapBelow_of_notMem (absent : p ∉ f.handles) (g : Forest α → Forest α) :
    f.mapBelow p g = f := by
  induction f with
  | nil => rfl
  | cons h x below later ihBelow ihLater =>
    simp only [handles_cons, List.mem_cons, List.mem_append, not_or] at absent
    obtain ⟨other, notBelow, notLater⟩ := absent
    rw [mapBelow, if_neg (Ne.symm other), ihBelow notBelow, ihLater notLater]

theorem mapBelow_mapBelow (f : Forest α) (p : Handle) (g k : Forest α → Forest α) :
    (f.mapBelow p g).mapBelow p k = f.mapBelow p fun b => k (g b) := by
  induction f with
  | nil => rfl
  | cons h x below later ihBelow ihLater =>
    simp only [mapBelow, ihLater]
    split <;> simp [ihBelow]

@[simp] theorem mapBelow_id (f : Forest α) (p : Handle) : (f.mapBelow p fun b => b) = f := by
  induction f with
  | nil => rfl
  | cons h x below later ihBelow ihLater => simp [mapBelow, ihBelow, ihLater]

@[simp] theorem roots_mapBelow (f : Forest α) (p : Handle) (g : Forest α → Forest α) :
    (f.mapBelow p g).roots = f.roots := by
  induction f with
  | nil => rfl
  | cons h x below later _ ih => simpa [mapBelow, roots] using ih

@[simp] theorem rootValues_mapBelow (f : Forest α) (p : Handle) (g : Forest α → Forest α) :
    (f.mapBelow p g).rootValues = f.rootValues := by
  induction f with
  | nil => rfl
  | cons h x below later _ ih => simpa [mapBelow, rootValues] using ih

/-- A node after the change is an old one with the change below it, or `p` with its new children, or
among these. -/
theorem mem_nodes_mapBelow {c : Sprig α} (mem : c ∈ (f.mapBelow p g).nodes) :
    (∃ s ∈ f.nodes, s.handle ≠ p ∧ c = ⟨s.handle, s.value, s.below.mapBelow p g⟩) ∨
      ∃ s ∈ f.nodes, s.handle = p ∧
        (c = ⟨s.handle, s.value, g s.below⟩ ∨ c ∈ (g s.below).nodes) := by
  induction f with
  | nil => simp [mapBelow] at mem
  | cons h x below later ihBelow ihLater =>
    by_cases here : h = p
    · simp only [mapBelow, if_pos here, nodes, List.mem_cons, List.mem_append] at mem ⊢
      rcases mem with rfl | mem | mem
      · exact .inr ⟨⟨h, x, below⟩, .inl rfl, here, .inl rfl⟩
      · exact .inr ⟨⟨h, x, below⟩, .inl rfl, here, .inr mem⟩
      · exact (ihLater mem).imp (.imp fun s => .imp_left fun inside => .inr (.inr inside))
          (.imp fun s => .imp_left fun inside => .inr (.inr inside))
    · simp only [mapBelow, if_neg here, nodes, List.mem_cons, List.mem_append] at mem ⊢
      rcases mem with rfl | mem | mem
      · exact .inl ⟨⟨h, x, below⟩, .inl rfl, here, rfl⟩
      · exact (ihBelow mem).imp (.imp fun s => .imp_left fun inside => .inr (.inl inside))
          (.imp fun s => .imp_left fun inside => .inr (.inl inside))
      · exact (ihLater mem).imp (.imp fun s => .imp_left fun inside => .inr (.inr inside))
          (.imp fun s => .imp_left fun inside => .inr (.inr inside))

theorem handles_subset_mapBelow
    (kept : ∀ s ∈ f.nodes, s.handle = p → s.below.handles ⊆ (g s.below).handles) :
    f.handles ⊆ (f.mapBelow p g).handles := by
  induction f with
  | nil => simp
  | cons h x below later ihBelow ihLater =>
    have keptBelow : below.handles ⊆ (if h = p then g below else below.mapBelow p g).handles := by
      split
      case isTrue here => exact kept ⟨h, x, below⟩ (by simp [nodes]) here
      case isFalse there => exact ihBelow fun s mem => kept s (by simp [nodes, mem])
    have keptLater := ihLater fun s mem => kept s (by simp [nodes, mem])
    rw [mapBelow, handles_cons, handles_cons]
    exact List.cons_subset_cons _ (List.append_subset.mpr
      ⟨List.Subset.trans keptBelow (List.subset_append_left ..),
        List.Subset.trans keptLater (List.subset_append_right ..)⟩)

/-- In a forest without duplicates `s` stays, with the change below it. -/
theorem mem_nodes_mapBelow_self (nodup : f.handles.Nodup) {s : Sprig α} (mem : s ∈ f.nodes)
    (g : Forest α → Forest α) :
    (Sprig.mk s.handle s.value (g s.below)) ∈ (f.mapBelow s.handle g).nodes := by
  induction f with
  | nil => simp at mem
  | cons h x below later ihBelow ihLater =>
    obtain ⟨-, nodupBelow, nodupLater, -⟩ := nodup_cons_iff.mp nodup
    simp only [nodes, List.mem_cons, List.mem_append] at mem
    simp only [mapBelow, nodes, List.mem_cons, List.mem_append]
    rcases mem with rfl | mem | mem
    · exact .inl (by simp)
    · rw [if_neg (apart_of_mem_below nodup mem).1]
      exact .inr (.inl (ihBelow nodupBelow mem))
    · exact .inr (.inr (ihLater nodupLater mem))

theorem mapBelow_congr {k : Forest α → Forest α}
    (agree : ∀ s ∈ f.nodes, s.handle = p → g s.below = k s.below) :
    f.mapBelow p g = f.mapBelow p k := by
  induction f with
  | nil => rfl
  | cons h x below later ihBelow ihLater =>
    rw [mapBelow, mapBelow, ihLater fun s mem => agree s (by simp [nodes, mem]),
      ihBelow fun s mem => agree s (by simp [nodes, mem])]
    by_cases here : h = p
    · rw [if_pos here, if_pos here, agree ⟨h, x, below⟩ (by simp [nodes]) here]
    · rw [if_neg here, if_neg here]

/-- Only the change below `s` counts where its handle stands for one node. -/
theorem mapBelow_congr_of_nodup (nodup : f.handles.Nodup) {s : Sprig α} (mem : s ∈ f.nodes)
    {k : Forest α → Forest α} (agree : g s.below = k s.below) :
    f.mapBelow s.handle g = f.mapBelow s.handle k :=
  mapBelow_congr fun c other same => by rwa [node_unique nodup other mem same]

/-- A child put back where it was. -/
theorem mapBelow_swapAt_same (nodup : f.handles.Nodup) {s c : Sprig α} {i : Nat} (mem : s ∈ f.nodes)
    (child : s.below.sprigs[i]? = some c) : f.mapBelow s.handle (swapAt i i c) = f := by
  rw [mapBelow_congr_of_nodup (k := fun b => b) nodup mem (swapAt_same child), mapBelow_id]

/-- What the change puts below `p` in any case is there afterwards. -/
theorem mem_handles_mapBelow {k : Handle} (live : p ∈ f.handles)
    (added : ∀ b : Forest α, k ∈ (g b).handles) : k ∈ (f.mapBelow p g).handles := by
  induction f with
  | nil => simp at live
  | cons h x below later ihBelow ihLater =>
    rw [mapBelow, handles_cons]
    apply List.mem_cons_of_mem
    rw [List.mem_append]
    by_cases here : h = p
    · rw [if_pos here]
      exact .inl (added below)
    · rw [if_neg here]
      rw [handles_cons, List.mem_cons, List.mem_append] at live
      rcases live with rfl | live | live
      · exact absurd rfl here
      · exact .inl (ihBelow live)
      · exact .inr (ihLater live)

/-- One stored node is moved to the front, and those in the middle before those around them. -/
theorem perm_front_middle {β : Type} (front middle back rest : List β) (e : β) :
    (front ++ (e :: middle) ++ back ++ rest).Perm (e :: (middle ++ rest ++ (front ++ back))) := by
  classical
  rw [List.perm_iff_count]
  intro x
  simp only [List.count_append, List.count_cons]
  omega

/-- In a forest without duplicates the stored nodes split around those of `s`, and a change below
`s` happens in the middle. -/
theorem exists_split (nodup : f.handles.Nodup) {s : Sprig α} (mem : s ∈ f.nodes)
    (parent : Option Handle) :
    ∃ front back q, ∀ g : Forest α → Forest α, (f.mapBelow s.handle g).records parent =
      front ++ (Sprig.mk s.handle s.value (g s.below)).records q ++ back := by
  induction f generalizing parent with
  | nil => simp at mem
  | cons h x below later ihBelow ihLater =>
    obtain ⟨⟨-, notLater⟩, nodupBelow, nodupLater, -⟩ := nodup_cons_iff.mp nodup
    simp only [nodes, List.mem_cons, List.mem_append] at mem
    rcases mem with rfl | mem | mem
    · refine ⟨[], later.records parent, parent, fun g => ?_⟩
      simp [mapBelow, mapBelow_of_notMem notLater, records, Sprig.records]
    · obtain ⟨other, notThere⟩ := apart_of_mem_below nodup mem
      obtain ⟨front, back, q, split⟩ := ihBelow nodupBelow mem (some h)
      refine ⟨Sprig.record ⟨h, x, below⟩ parent :: front, back ++ later.records parent, q, ?_⟩
      intro g
      simp [mapBelow, other, mapBelow_of_notMem notThere, records, split, Sprig.record]
    · obtain ⟨other, notThere⟩ := apart_of_mem_later nodup mem
      obtain ⟨front, back, q, split⟩ := ihLater nodupLater mem parent
      refine ⟨Sprig.record ⟨h, x, below⟩ parent :: (below.records (some h) ++ front), back, q, ?_⟩
      intro g
      simp [mapBelow, other, mapBelow_of_notMem notThere, records, split]

/-! ## One value -/

/-- Stores `x` at `h`. -/
def setValue (h : Handle) (x : α) : Forest α → Forest α
  | nil => nil
  | cons k y below later =>
    cons k (if k = h then x else y) (setValue h x below) (setValue h x later)

@[simp] theorem roots_setValue (f : Forest α) (h : Handle) (x : α) :
    (f.setValue h x).roots = f.roots := by
  induction f with
  | nil => rfl
  | cons k y below later _ ih => simpa [setValue, roots] using ih

theorem setValue_of_notMem (absent : h ∉ f.handles) (x : α) : f.setValue h x = f := by
  induction f with
  | nil => rfl
  | cons k y below later ihBelow ihLater =>
    simp only [handles_cons, List.mem_cons, List.mem_append, not_or] at absent
    obtain ⟨other, notBelow, notLater⟩ := absent
    rw [setValue, if_neg (Ne.symm other), ihBelow notBelow, ihLater notLater]

theorem records_setValue (f : Forest α) (h : Handle) (x : α) (parent : Option Handle) :
    (f.setValue h x).records parent =
      (f.records parent).map fun e => (e.1, if e.1 = h then { e.2 with value := x } else e.2) := by
  induction f generalizing parent with
  | nil => rfl
  | cons k y below later ihBelow ihLater =>
    simp only [setValue, records, ihBelow, ihLater, List.map_cons, List.map_append, Sprig.record,
      roots_setValue]
    split <;> rfl

theorem setValue_eq_swapAt (nodup : f.handles.Nodup) {i : Nat} {c : Sprig α}
    (top : f.sprigs[i]? = some c) (x : α) :
    f.setValue c.handle x = f.swapAt i i ⟨c.handle, x, c.below⟩ := by
  rw [swapAt_self (List.getElem?_eq_some_iff.mp top).1]
  induction f generalizing i with
  | nil => simp at top
  | cons k y below later _ ih =>
    obtain ⟨⟨notBelow, notLater⟩, -, nodupLater, -⟩ := nodup_cons_iff.mp nodup
    cases i with
    | zero =>
      obtain rfl : ⟨k, y, below⟩ = c := by simpa using top
      simp [setValue, setValue_of_notMem notBelow, setValue_of_notMem notLater, ofSprigs]
    | succ i =>
      have stands : later.sprigs[i]? = some c := by simpa using top
      obtain ⟨other, notThere⟩ :=
        apart_of_mem_later nodup (mem_nodes_of_mem_sprigs (List.mem_of_getElem? stands))
      rw [setValue, if_neg other, setValue_of_notMem notThere, ih nodupLater stands]
      simp [ofSprigs]

/-- A value among the children of a node is stored in their sibling list. -/
theorem setValue_eq_mapBelow (nodup : f.handles.Nodup) {s c : Sprig α} (mem : s ∈ f.nodes) {i : Nat}
    (child : s.below.sprigs[i]? = some c) (x : α) :
    f.setValue c.handle x =
      f.mapBelow s.handle (swapAt i i ⟨c.handle, x, c.below⟩) := by
  have listed := mem_nodes_of_mem_sprigs (List.mem_of_getElem? child)
  induction f with
  | nil => simp at mem
  | cons k y below later ihBelow ihLater =>
    obtain ⟨⟨-, notLater⟩, nodupBelow, nodupLater, -⟩ := nodup_cons_iff.mp nodup
    simp only [nodes, List.mem_cons, List.mem_append] at mem
    rcases mem with rfl | mem | mem
    · obtain ⟨other, notThere⟩ := apart_of_mem_below nodup listed
      rw [setValue, if_neg other, setValue_of_notMem notThere, setValue_eq_swapAt nodupBelow child,
        mapBelow, if_pos rfl, mapBelow_of_notMem notLater]
    · obtain ⟨otherAbove, sAway⟩ := apart_of_mem_below nodup mem
      obtain ⟨other, cAway⟩ := apart_of_mem_below nodup (mem_nodes_of_mem_below mem listed)
      rw [setValue, if_neg other, ihBelow nodupBelow mem, setValue_of_notMem cAway, mapBelow,
        if_neg otherAbove, mapBelow_of_notMem sAway]
    · obtain ⟨otherAbove, sAway⟩ := apart_of_mem_later nodup mem
      obtain ⟨other, cAway⟩ := apart_of_mem_later nodup (mem_nodes_of_mem_below mem listed)
      rw [setValue, if_neg other, ihLater nodupLater mem, setValue_of_notMem cAway, mapBelow,
        if_neg otherAbove, mapBelow_of_notMem sAway]

end PolicyTree.Forest
