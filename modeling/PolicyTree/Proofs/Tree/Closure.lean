import PolicyTree.Tree.Replace
import PolicyTree.Tree.Sort

/-!
What survives the elementary changes of a tree survives the edits made of them; the policy does.
-/

namespace PolicyTree.Tree

variable {α β γ : Type} {P : Tree α → Prop} {t : Tree α}

/-! ## Answers -/

theorem require_keeps (holds : P t) {check : Except TreeError γ} {next : γ → Reply α β}
    (goesOn : ∀ c, P (next c).tree) : P (t.require check next).tree := by
  cases check with
  | error e => exact holds
  | ok c => exact goesOn c

theorem andThen_keeps {r : Reply α β} (holds : P r.tree) {next : β → Tree α → Reply α γ}
    (goesOn : ∀ b t, P t → P (next b t).tree) : P (r.andThen next).tree := by
  obtain ⟨outcome, t⟩ := r
  cases outcome with
  | done b => exact goesOn b t holds
  | refused e => exact holds
  | halted => exact holds

@[simp] theorem tree_mapError (r : Reply α β) (f : TreeError → TreeError) :
    (r.mapError f).tree = r.tree := by
  obtain ⟨outcome, t⟩ := r
  cases outcome <;> rfl

/-! ## Building -/

/-- `P` stays true while nodes are stored and changed. -/
structure KeptByBuilding (P : Tree α → Prop) : Prop where
  allocate : ∀ {t : Tree α}, P t → ∀ n, P { t with arena := t.arena.allocate n }
  updateNode : ∀ {t : Tree α}, P t → ∀ h f, P (t.updateNode h f)

namespace KeptByBuilding

variable (kept : KeptByBuilding P)

include kept

theorem insert (holds : P t) (parent : Handle) (x : α) : P (t.insert parent x).tree := by
  apply require_keeps holds
  intro n
  cases t.policy.place (t.valuesAt n.children) x with
  | taken i => exact holds
  | before i => exact kept.updateNode (kept.allocate holds _) ..

theorem copyLevel (source : Tree α) (parent dest : Handle) (hs : List Handle) (holds : P t) :
    P (copyLevel source parent dest hs t).tree := by
  induction hs generalizing t with
  | nil => exact holds
  | cons h hs ih =>
    unfold Tree.copyLevel
    apply require_keeps holds
    intro x
    apply andThen_keeps
    · rw [tree_mapError]
      exact kept.insert holds dest x
    · intro copy t' holds'
      exact andThen_keeps (ih holds') fun _ _ => id

theorem copyPending (source : Tree α) (bound : Nat) (pending : List (Handle × Handle))
    (copied : Nat) (holds : P t) : P (copyPending source bound pending copied t).tree := by
  induction bound generalizing pending copied t with
  | zero => exact holds
  | succ bound ih =>
    cases pending with
    | nil => exact holds
    | cons next pending =>
      unfold Tree.copyPending
      apply require_keeps holds
      intro n
      apply andThen_keeps (kept.copyLevel source next.1 next.2 n.children holds)
      intro copies t' holds'
      exact ih _ _ holds'

theorem copyBelow (holds : P t) (source : Tree α) (h dest : Handle) :
    P (t.copyBelow source h dest).tree :=
  kept.copyPending source source.len _ 0 holds

end KeptByBuilding

/-! ## Changing and freeing -/

/-- `P` stays true while nodes are changed and freed, and wherever the root is. -/
structure KeptByPruning (P : Tree α → Prop) : Prop where
  updateNode : ∀ {t : Tree α}, P t → ∀ h f, P (t.updateNode h f)
  free : ∀ {t : Tree α}, P t → ∀ h, P { t with arena := t.arena.erase h }
  reroot : ∀ {t : Tree α}, P t → ∀ r, P { t with root := r }

namespace KeptByPruning

variable (kept : KeptByPruning P)

include kept

theorem foldl_free (hs : List Handle) (holds : P t) :
    P { t with arena := hs.foldl Arena.erase t.arena } := by
  induction hs generalizing t with
  | nil => exact holds
  | cons h hs ih => exact ih (kept.free holds h)

theorem release (holds : P t) (h : Handle) : P (t.release h) := kept.foldl_free _ holds

theorem foldl_release (hs : List Handle) (holds : P t) : P (hs.foldl Tree.release t) := by
  induction hs generalizing t with
  | nil => exact holds
  | cons h hs ih => exact ih (kept.release holds h)

theorem detach (holds : P t) (slot : Option (Handle × Nat)) : P (t.detach slot) := by
  cases slot with
  | none => exact kept.reroot holds none
  | some slot => exact kept.updateNode holds ..

theorem erase (holds : P t) (h : Handle) : P (t.erase h).tree :=
  require_keeps holds fun slot => require_keeps holds fun _ =>
    kept.release (kept.detach holds slot) h

theorem eraseChildren (holds : P t) (h : Handle) : P (t.eraseChildren h).tree :=
  require_keeps holds fun n => kept.foldl_release n.children (kept.updateNode holds ..)

theorem moveChild (holds : P t) (parent : Handle) (old new : Nat) (h : Handle) :
    P (t.moveChild parent old new h).tree := by
  have removed : P (t.updateChildren parent (·.eraseIdx old)) := kept.updateNode holds ..
  rw [Tree.moveChild]
  split
  · exact kept.updateNode removed ..
  · exact removed

theorem reposition (holds : P t) (h : Handle) (x : α) (slot : Option (Handle × Nat)) :
    P (t.reposition h x slot).tree := by
  unfold Tree.reposition
  split
  · exact holds
  · split
    · split
      · exact holds
      · split
        · exact holds
        · exact kept.moveChild holds ..
    · exact holds

theorem replaceValue (holds : P t) (h : Handle) (x : α) : P (t.replaceValue h x).tree :=
  require_keeps holds fun slot =>
    andThen_keeps (kept.reposition holds h x slot) fun _ _ holds' =>
      require_keeps holds' fun _ => kept.updateNode holds' ..

theorem substitute (holds : P t) (h new : Handle) (x : α) (slot : Option (Handle × Nat)) :
    P (t.substitute h new x slot).tree := by
  cases slot with
  | none => exact kept.release (kept.reroot holds (some new)) h
  | some slot =>
    obtain ⟨parent, old⟩ := slot
    rw [Tree.substitute]
    dsimp only
    generalize (if t.policy.keyed then _ else _) = placement
    cases placement with
    | taken i => exact kept.release holds new
    | before i =>
      refine andThen_keeps ?_ fun _ _ holds' => kept.release holds' h
      split
      · exact kept.updateNode holds ..
      · exact kept.moveChild holds ..

theorem sortRange (holds : P t) (parent : Handle) (first last : Nat)
    (cmp : α → α → Ordering) : P (t.sortRange parent first last cmp).tree := by
  rw [Tree.sortRange]
  split
  · exact holds
  · exact kept.updateNode holds ..

theorem sortBy (holds : P t) (first : Handle) (last : Option Handle)
    (cmp : α → α → Ordering) : P (t.sortBy first last cmp).tree := by
  apply require_keeps holds
  intro slot
  cases slot with
  | none => exact require_keeps holds fun _ => holds
  | some slot =>
    apply require_keeps holds
    intro j
    split
    · exact holds
    · split
      · exact holds
      · exact kept.sortRange holds ..

theorem sortChildrenBy (holds : P t) (h : Handle) (cmp : α → α → Ordering) :
    P (t.sortChildrenBy h cmp).tree := by
  apply require_keeps holds
  intro hs
  cases hs with
  | nil => exact holds
  | cons first hs => exact kept.sortBy holds ..

end KeptByPruning

/-! ## Replacement of a subtree -/

/-- The tree with the copy that a replacement builds beside it, whole or broken off. -/
def withCopy (t : Tree α) (h : Handle) (source : Tree α) (sourceNode : Handle) : Tree α :=
  match t.slotInParent h, source.value sourceNode with
  | .ok slot, .ok x =>
    let grown := { t with arena := t.arena.allocate ⟨x, slot.map Prod.fst, []⟩ }
    (grown.copyBelow source sourceNode t.arena.fresh).tree
  | _, _ => t

theorem KeptByBuilding.withCopy (kept : KeptByBuilding P) (holds : P t) (h : Handle)
    (source : Tree α) (k : Handle) : P (t.withCopy h source k) := by
  unfold Tree.withCopy
  split
  · exact kept.copyBelow (kept.allocate holds _) ..
  · exact holds

/-- A replacement first builds its copy. Then it stops, or frees the copy, or substitutes it. -/
theorem replaceWithSubtree_tree_cases (t : Tree α) (h : Handle) (source : Tree α) (k : Handle) :
    (t.replaceWithSubtree h source k).tree = t.withCopy h source k ∨
      (t.replaceWithSubtree h source k).tree = (t.withCopy h source k).release t.arena.fresh ∨
      ∃ x slot, (t.replaceWithSubtree h source k).tree =
        ((t.withCopy h source k).substitute h t.arena.fresh x slot).tree := by
  unfold Tree.replaceWithSubtree Tree.withCopy
  cases t.slotInParent h with
  | error e => exact .inl rfl
  | ok slot =>
    cases source.value k with
    | error e => exact .inl rfl
    | ok x =>
      rw [require_ok, require_ok]
      dsimp only
      split
      case h_1 => exact .inr (.inr ⟨x, slot, rfl⟩)
      case h_2 => exact .inr (.inl rfl)
      case h_3 => exact .inl rfl

/-- After the copy has been built, a replacement only changes and frees. -/
theorem KeptByPruning.replaceWithSubtree (kept : KeptByPruning P) {h k : Handle} {source : Tree α}
    (holds : P (t.withCopy h source k)) : P (t.replaceWithSubtree h source k).tree := by
  rcases t.replaceWithSubtree_tree_cases h source k with stopped | freed | ⟨x, slot, put⟩
  · rwa [stopped]
  · rw [freed]
    exact kept.release holds _
  · rw [put]
    exact kept.substitute holds ..

/-! ## The policy and the root -/

theorem keptByBuilding_policy (p : Policy α) : KeptByBuilding fun t : Tree α => t.policy = p where
  allocate same _ := same
  updateNode same _ _ := same

theorem keptByBuilding_root (r : Option Handle) : KeptByBuilding fun t : Tree α => t.root = r where
  allocate same _ := same
  updateNode same _ _ := same

theorem keptByPruning_policy (p : Policy α) : KeptByPruning fun t : Tree α => t.policy = p where
  updateNode same _ _ := same
  free same _ := same
  reroot same _ := same

@[simp] theorem policy_insert (t : Tree α) (parent : Handle) (x : α) :
    (t.insert parent x).tree.policy = t.policy :=
  (keptByBuilding_policy t.policy).insert rfl parent x

@[simp] theorem policy_copyBelow (t source : Tree α) (h dest : Handle) :
    (t.copyBelow source h dest).tree.policy = t.policy :=
  (keptByBuilding_policy t.policy).copyBelow rfl source h dest

@[simp] theorem policy_becomeCopy (t source : Tree α) (h : Handle) (x : α) :
    (t.becomeCopy source h x).tree.policy = t.policy :=
  policy_copyBelow ..

end PolicyTree.Tree
