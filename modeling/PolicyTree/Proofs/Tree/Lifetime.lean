import PolicyTree.Proofs.Forest.Stems
import PolicyTree.Proofs.Tree.Ascent
import PolicyTree.Proofs.Tree.Soundness
import PolicyTree.Proofs.Tree.Wear

/-! What one edit does to a live node: it goes with its subtree, or stays where it hangs. -/

namespace PolicyTree

open Forest

variable {α β : Type}

def Outcome.isDone : Outcome β → Bool
  | done _ => true
  | _ => false

@[simp] theorem Outcome.isDone_map {γ : Type} (o : Outcome β) (g : β → γ) :
    (o.map g).isDone = o.isDone := by
  cases o <;> rfl

namespace Tree

variable {t t' : Tree α} {f : Forest α} {s c : Sprig α} {h k p : Handle} {n : Node α}
  {e : Edit (Tree α) α}

/-! ## Ancestors -/

/-- `k` is an ancestor of `h`. -/
def Above (t : Tree α) (k h : Handle) : Prop := Relation.TransGen t.Lists k h

theorem Stores.lists_iff {q : Option Handle} {rest : List (Handle × Node α)}
    (stores : t.Stores q f rest) (mem : s ∈ f.nodes) :
    t.Lists s.handle h ↔ h ∈ s.below.roots := by
  obtain ⟨p, stored⟩ := stores.exists_node? mem
  simp [Lists, stored]

/-- The descendants of a node are the nodes below it. -/
theorem Stores.above_iff {q : Option Handle} {rest : List (Handle × Node α)}
    (stores : t.Stores q f rest) (mem : s ∈ f.nodes) :
    t.Above s.handle h ↔ h ∈ s.below.handles := by
  constructor
  · intro above
    induction above with
    | single link => exact mem_handles_of_mem_roots ((stores.lists_iff mem).mp link)
    | tail _ link ih =>
      obtain ⟨k, under, rfl⟩ := List.mem_map.mp ih
      have inside := mem_nodes_of_mem_below mem under
      obtain ⟨c, child, rfl⟩ := List.mem_map.mp ((stores.lists_iff inside).mp link)
      exact mem_handles (mem_nodes_of_child under child)
  · intro mem_below
    obtain ⟨k, under, rfl⟩ := List.mem_map.mp mem_below
    exact stores.reaches_below mem under

theorem Shows.above_iff (shows : t.Shows f) (mem : s ∈ f.nodes) :
    t.Above s.handle h ↔ h ∈ s.below.handles :=
  shows.stores.above_iff mem

theorem Shows.self_or_above_iff (shows : t.Shows f) (mem : s ∈ f.nodes) :
    s.handle = h ∨ t.Above s.handle h ↔ h ∈ s.handles := by
  rw [shows.above_iff mem, eq_comm]
  exact List.mem_cons.symm

theorem Shows.lists_parent (shows : t.Shows f) (live : t.node? h = some n)
    (parent : n.parent = some p) : t.Lists p h := by
  have other : t.root ≠ some h := by
    intro root
    obtain ⟨m, stored, top⟩ := shows.rooted.parentless h root
    rw [live] at stored
    cases stored
    rw [parent] at top
    cases top
  obtain ⟨p', m, parent', stored, once⟩ := shows.rooted.listed_once h n live other
  rw [parent] at parent'
  cases parent'
  exact ⟨m, stored, List.count_pos_iff.mp (by omega)⟩

/-! ## The nodes that an edit takes away -/

/-- Whether the edit takes the live node `h` away: it resets the tree, or it frees a subtree that `h`
is in. -/
def Fells (t : Tree α) (e : Edit (Tree α) α) (h : Handle) : Prop :=
  match e with
  | .setRoot _ | .clear => True
  | .erase k | .replaceSubtree k _ | .replaceWithSubtree k _ _ =>
    (t.perform e).outcome.isDone = true ∧ (k = h ∨ t.Above k h)
  | .eraseChildren k => t.Above k h
  | _ => False

/-- The value of `h` after the edit, if it was `x` before. -/
def valueAfter (t : Tree α) (e : Edit (Tree α) α) (h : Handle) (x : α) : α :=
  match e with
  | .replaceValue k y => if k = h ∧ (t.perform e).outcome.isDone = true then y else x
  | _ => x

theorem valueAfter_of_not_done (failed : (t.perform e).outcome.isDone = false) (h : Handle) (x : α) :
    t.valueAfter e h x = x := by
  cases e with
  | replaceValue k y =>
    rw [valueAfter, failed]
    simp
  | _ => rfl

theorem valueAfter_self {x y z : α} (done : (t.replaceValue k x).outcome = .done z) :
    t.valueAfter (.replaceValue k x) k y = x := by
  rw [valueAfter, Tree.perform, outcome_map, done]
  exact if_pos ⟨rfl, rfl⟩

theorem valueAfter_of_ne (other : h ≠ k) (x y : α) :
    t.valueAfter (.replaceValue k x) h y = y :=
  if_neg fun both => other both.1.symm

/-- What takes a node away takes its descendants away. -/
theorem Fells.of_parent (fells : t.Fells e p) (link : t.Lists p h) : t.Fells e h := by
  have under : ∀ k, k = p ∨ t.Above k p → t.Above k h := by
    rintro k (rfl | above)
    · exact .single link
    · exact above.tail link
  cases e with
  | setRoot x => trivial
  | clear => trivial
  | erase k => exact fells.imp_right fun upper => .inr (under k upper)
  | replaceSubtree k source => exact fells.imp_right fun upper => .inr (under k upper)
  | replaceWithSubtree k source m => exact fells.imp_right fun upper => .inr (under k upper)
  | eraseChildren k => exact under k (.inr fells)
  | _ => exact fells

/-! ## The nodes that stay -/

/-- `t'` shows a forest that comes from `f` by what the edit takes away and stores anew. -/
def TurnsInto (t : Tree α) (f : Forest α) (e : Edit (Tree α) α) (t' : Tree α) : Prop :=
  ∃ f', t'.Shows f' ∧ f.Turnover f' (t.Fells e) (t.valueAfter e)

theorem Shows.turnsInto_self (shows : t.Shows f) (same : t' = t) (none_fells : ∀ h, ¬t.Fells e h)
    (stays : ∀ h x, t.valueAfter e h x = x) : t.TurnsInto f e t' := by
  subst same
  exact ⟨f, shows, turnover_self shows.nodup none_fells stays⟩

theorem Shows.turnsInto_setRoot (shows : t.Shows f) (x : α) :
    t.TurnsInto f (.setRoot x) (t.setRoot x) := by
  refine ⟨_, shows_setRoot t x,
    turnover_of_apart shows.nodup (fun h new old => ?_) (fun _ _ => trivial) fun _ _ => rfl⟩
  have live : (t.setRoot x).contains h = true := (shows_setRoot t x).contains_iff.mpr new
  exact Arena.not_contains_allocate_clear (shows.contains_iff.mpr old) _ live

theorem Shows.turnsInto_insert (shows : t.Shows f) (parent : Handle) (x : α) :
    t.TurnsInto f (.insert parent x) (t.insert parent x).tree := by
  rcases shows.insert_cases parent x with
    ⟨-, dead⟩ | ⟨s, mem, rfl, ⟨i, -, refused⟩ | ⟨i, -, fresh, -, shown⟩⟩
  · exact shows.turnsInto_self (congrArg Reply.tree dead) (fun _ => id) fun _ _ => rfl
  · exact shows.turnsInto_self (congrArg Reply.tree refused) (fun _ => id) fun _ _ => rfl
  · exact ⟨_, shown, turnover_plantAt shows.nodup mem i fresh (fun _ => id) fun _ _ => rfl⟩

theorem Shows.turnsInto_replaceValue (shows : t.Shows f) (inRange : t.policy.InRange) (k : Handle)
    (x : α) : t.TurnsInto f (.replaceValue k x) (t.replaceValue k x).tree := by
  rcases shows.replaceValue_cases k x (.inl inRange) with ⟨-, dead⟩ | ⟨s, rfl, rfl, done, shown⟩ |
    ⟨s, mem, i, c, child, rfl, ⟨m, -, -, refused⟩ | ⟨j, -, done, shown⟩⟩
  · refine shows.turnsInto_self (congrArg Reply.tree dead) (fun _ => id)
      (valueAfter_of_not_done ?_)
    rw [Tree.perform, dead]
    rfl
  · exact ⟨_, shown, turnover_revalue_root shows.nodup (fun _ => id) (valueAfter_self done)
      fun h z other => valueAfter_of_ne other x z⟩
  · refine shows.turnsInto_self (congrArg Reply.tree refused) (fun _ => id)
      (valueAfter_of_not_done ?_)
    rw [Tree.perform, refused]
    rfl
  · exact ⟨_, shown, turnover_revalueAt shows.nodup mem child j (fun _ => id)
      (valueAfter_self done) fun h z other => valueAfter_of_ne other x z⟩

theorem Shows.turnsInto_erase (shows : t.Shows f) (k : Handle) :
    t.TurnsInto f (.erase k) (t.erase k).tree := by
  rcases shows.erase_cases k with ⟨-, dead⟩ | ⟨s, rfl, rfl, done, shown⟩ |
    ⟨s, mem, i, c, child, rfl, done, shown⟩
  · refine shows.turnsInto_self (congrArg Reply.tree dead) (fun h fells => ?_) fun _ _ => rfl
    have finished := fells.1
    rw [Tree.perform, dead] at finished
    cases finished
  · refine ⟨nil, shown, turnover_nil shows.nodup (fun h live => ?_) fun _ _ => rfl⟩
    rw [handles_single] at live
    rw [Fells, Tree.perform, outcome_map, done]
    exact ⟨rfl, (shows.self_or_above_iff (mem_nodes_single s)).mpr live⟩
  · have inside := mem_nodes_of_child mem (List.mem_of_getElem? child)
    refine ⟨_, shown, turnover_pluckAt shows.nodup mem child (fun h live => ?_) fun _ _ => rfl⟩
    rw [Fells, Tree.perform, outcome_map, done, shows.self_or_above_iff inside]
    exact and_iff_right rfl

theorem Shows.turnsInto_eraseChildren (shows : t.Shows f) (k : Handle) :
    t.TurnsInto f (.eraseChildren k) (t.eraseChildren k).tree := by
  rcases shows.eraseChildren_cases k with ⟨gone, dead⟩ | ⟨s, mem, rfl, -, shown⟩
  · refine shows.turnsInto_self (congrArg Reply.tree dead) (fun h fells => ?_) fun _ _ => rfl
    obtain ⟨m, ⟨n, stored, -⟩, -⟩ := Relation.TransGen.head'_iff.mp fells
    rw [gone] at stored
    cases stored
  · exact ⟨_, shown, turnover_bare shows.nodup mem (fun h _ => shows.above_iff mem) fun _ _ => rfl⟩

theorem Shows.turnover_replaceWithSubtree (shows : t.Shows f) (inRange : t.policy.InRange)
    {source : Tree α} {m : Handle} {dies : Handle → Prop}
    (dying : ∀ h, dies h ↔
      (t.replaceWithSubtree k source m).outcome.isDone = true ∧ (k = h ∨ t.Above k h)) :
    ∃ f', (t.replaceWithSubtree k source m).tree.Shows f' ∧
      f.Turnover f' dies fun _ x => x := by
  rcases shows.replaceWithSubtree_cases k source m (.inl inRange) with
    ⟨err, refused, shown⟩ | ⟨n, done, -, fresh, ⟨s, rfl, rfl, shown⟩ |
      ⟨s, mem, i, j, c, child, rfl, -, shown⟩⟩
  · refine ⟨f, shown, turnover_self shows.nodup (fun h dead => ?_) fun _ _ => rfl⟩
    have done := ((dying h).mp dead).1
    rw [refused] at done
    cases done
  · refine ⟨_, shown, turnover_of_apart shows.nodup (fun h new => ?_) (fun h live => ?_)
      fun _ _ => rfl⟩
    · rw [handles_single] at new
      exact fresh h new
    · rw [handles_single] at live
      rw [dying, done]
      exact ⟨rfl, (shows.self_or_above_iff (mem_nodes_single s)).mpr live⟩
  · have inside := mem_nodes_of_child mem (List.mem_of_getElem? child)
    refine ⟨_, shown, turnover_swapAt shows.nodup mem child j fresh (fun h live => ?_) fun _ _ => rfl⟩
    rw [dying, done, shows.self_or_above_iff inside]
    exact and_iff_right rfl

theorem Shows.turnsInto_replaceSubtree (shows : t.Shows f) (inRange : t.policy.InRange)
    (k : Handle) (source : Tree α) :
    t.TurnsInto f (.replaceSubtree k source) (t.replaceSubtree k source).tree := by
  cases root : source.root with
  | none =>
    have refused : t.replaceSubtree k source = t.refuse .emptyTree := by
      rw [replaceSubtree, root]
    refine shows.turnsInto_self (congrArg Reply.tree refused) (fun h fells => ?_) fun _ _ => rfl
    have finished := fells.1
    rw [Tree.perform, refused] at finished
    cases finished
  | some m =>
    have replaced : t.replaceSubtree k source = t.replaceWithSubtree k source m := by
      rw [replaceSubtree, root]
    rw [replaced]
    apply shows.turnover_replaceWithSubtree inRange
    intro h
    rw [Fells, Tree.perform, replaced, outcome_map, Outcome.isDone_map]

/-- A sort request moves siblings at most. -/
theorem Shows.turnsInto_sorted (shows : t.Shows f) {cmp : α → α → Ordering}
    (sorted : t' = t ∨ ∃ s ∈ f.nodes, ∃ i j, i ≤ j ∧ t.policy.keyed = false ∧
      t'.Shows (f.mapBelow s.handle (sortAt i j cmp)))
    (none_fells : ∀ h, ¬t.Fells e h) (stays : ∀ h x, t.valueAfter e h x = x) :
    t.TurnsInto f e t' := by
  rcases sorted with same | ⟨s, mem, i, j, le, -, shown⟩
  · exact shows.turnsInto_self same none_fells stays
  · exact ⟨_, shown, turnover_sortAt shows.nodup mem le cmp none_fells stays⟩

/-- An edit takes away the nodes that it fells. All others stay under their parents. -/
theorem Shows.turnsInto (shows : t.Shows f) (inRange : t.policy.InRange) (e : Edit (Tree α) α) :
    t.TurnsInto f e (t.perform e).tree := by
  cases e with
  | setRoot x => exact shows.turnsInto_setRoot x
  | clear =>
    exact ⟨nil, shows_clear t, turnover_nil shows.nodup (fun _ _ => trivial) fun _ _ => rfl⟩
  | insert parent x => exact shows.turnsInto_insert parent x
  | replaceValue k x => exact shows.turnsInto_replaceValue inRange k x
  | replaceSubtree k source => exact shows.turnsInto_replaceSubtree inRange k source
  | replaceWithSubtree k source m =>
    apply shows.turnover_replaceWithSubtree inRange
    intro h
    rw [Fells, Tree.perform, outcome_map, Outcome.isDone_map]
  | erase k => exact shows.turnsInto_erase k
  | eraseChildren k => exact shows.turnsInto_eraseChildren k
  | sortBy first last cmp =>
    exact shows.turnsInto_sorted (shows.sortBy_cases first last cmp) (fun _ => id) fun _ _ => rfl
  | sortChildrenBy k cmp =>
    exact shows.turnsInto_sorted (shows.sortChildrenBy_cases k cmp) (fun _ => id) fun _ _ => rfl
  | sortChildren k =>
    exact shows.turnsInto_sorted (shows.sortChildrenBy_cases k compare) (fun _ => id)
      fun _ _ => rfl

end Tree

end PolicyTree
