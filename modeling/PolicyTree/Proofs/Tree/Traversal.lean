import PolicyTree.Proofs.Tree.Picture
import PolicyTree.Tree.Find

/-! A pre-order traversal lists the stored forest. -/

namespace PolicyTree

variable {α : Type}

/-! ## Listings of forests -/

namespace Forest

variable {f : Forest α}

theorem map_entry_visits (f : Forest α) (depth : Nat) :
    (f.visits depth).map Visit.entry = f.nodes.map fun s => (s.handle, s.value) := by
  induction f generalizing depth with
  | nil => rfl
  | cons h x below later ihBelow ihLater =>
    simp [visits, nodes, ihBelow, ihLater, Visit.entry]

theorem map_handle_visits (f : Forest α) (depth : Nat) :
    (f.visits depth).map Visit.handle = f.handles := by
  have listed := congrArg (List.map Prod.fst) (map_entry_visits f depth)
  simpa [handles, Visit.entry, Function.comp_def] using listed

@[simp] theorem length_visits (f : Forest α) (depth : Nat) :
    (f.visits depth).length = f.handles.length := by
  rw [← map_handle_visits f depth, List.length_map]

/-- The first hit of a listing is the first node with such a value. -/
theorem find?_visits (f : Forest α) (depth : Nat) (p : α → Bool) :
    ((f.visits depth).find? (p ·.value)).map Visit.handle =
      (f.nodes.find? (p ·.value)).map Sprig.handle := by
  have listed := congrArg (fun es => (es.find? (p ·.2)).map Prod.fst) (map_entry_visits f depth)
  simpa [List.find?_map, Visit.entry, Function.comp_def] using listed

/-- What a traversal has still to list, the innermost level first. -/
def pendingVisits : List (Forest α) → List (Visit α)
  | [] => []
  | g :: outer => g.visits (outer.length + 1) ++ pendingVisits outer

/-- The levels of a traversal hold nothing more, or the next node with what follows it. -/
theorem takeNext_roots (levels : List (Forest α)) :
    (Walk.takeNext (levels.map roots) = (none, []) ∧ pendingVisits levels = []) ∨
      ∃ s later outer, Walk.takeNext (levels.map roots) =
          (some s.handle, (later :: outer).map roots) ∧
        pendingVisits levels = ⟨outer.length + 1, s.handle, s.value⟩ ::
          pendingVisits (s.below :: later :: outer) ∧
        ∃ g ∈ levels, g.sprigs = s :: later.sprigs ∧ ∀ k ∈ outer, k ∈ levels := by
  induction levels with
  | nil => exact .inl ⟨rfl, rfl⟩
  | cons g outer ih =>
    cases g with
    | nil =>
      rcases ih with ⟨ended, empty⟩ | ⟨s, later, outer', next, listed, g, mem, split, kept⟩
      · exact .inl ⟨ended, empty⟩
      · exact .inr ⟨s, later, outer', next, listed, g, List.mem_cons_of_mem _ mem, split,
          fun k inside => List.mem_cons_of_mem _ (kept k inside)⟩
    | cons h x below later =>
      refine .inr ⟨⟨h, x, below⟩, later, outer, rfl, ?_, _, List.mem_cons_self .., rfl,
        fun k inside => List.mem_cons_of_mem _ inside⟩
      simp [pendingVisits, visits]

end Forest

/-! ## Calls of a walk -/

namespace Walk

variable {w w' : Walk α} {v : Visit α} {vs : List (Visit α)}

/-- The walk after `n` calls. -/
def after (w : Walk α) : Nat → Walk α
  | 0 => w
  | n + 1 => w.next.2.after n

/-- The calls of `next` answer with `vs` one by one and with nothing from then on, and after each
call `depth` is that of the node met, or zero. -/
structure Meets (w : Walk α) (vs : List (Visit α)) : Prop where
  next_eq : ∀ n, (w.after n).next.1 = vs[n]?.map Visit.entry
  depth_eq : ∀ n, (w.after (n + 1)).depth = (vs[n]?.map Visit.depth).getD 0

theorem Meets.cons (next : w.next = (some v.entry, w')) (depth : w'.depth = v.depth)
    (onward : w'.Meets vs) : w.Meets (v :: vs) where
  next_eq
    | 0 => by simp [after, next]
    | n + 1 => by simpa [after, next] using onward.next_eq n
  depth_eq
    | 0 => by simp [after, next, depth]
    | n + 1 => by simpa [after, next] using onward.depth_eq n

/-- A walk without pending nodes stays at its end. -/
theorem meets_nil (noStart : w.start = none) (ended : takeNext w.levels = (none, [])) :
    w.Meets [] := by
  have next : w.next = (none, ⟨w.arena, none, []⟩) := by rw [Walk.next, noStart, ended]
  have stays : ∀ n, (Walk.mk w.arena none []).after n = ⟨w.arena, none, []⟩ := by
    intro n
    induction n with
    | zero => rfl
    | succ n ih => exact ih
  constructor
  · rintro (_ | n)
    · rw [after, next]
      rfl
    · rw [after, next, stays]
      rfl
  · intro n
    rw [after, next, stays]
    rfl

/-- A bound that is no less than the length cuts nothing off. -/
theorem Meets.visits_eq (meets : w.Meets vs) {bound : Nat} (enough : vs.length ≤ bound) :
    w.visits bound = vs := by
  induction bound generalizing w vs with
  | zero =>
    rw [List.eq_nil_of_length_eq_zero (Nat.le_zero.mp enough)]
    rfl
  | succ bound ih =>
    have first := meets.next_eq 0
    have depth := meets.depth_eq 0
    rw [Walk.visits]
    simp only [after] at first depth
    cases vs with
    | nil =>
      generalize w.next = step at first ⊢
      obtain ⟨_, w'⟩ := step
      subst first
      rfl
    | cons v vs =>
      have onward : w.next.2.Meets vs :=
        ⟨fun n => meets.next_eq (n + 1), fun n => meets.depth_eq (n + 1)⟩
      have later := ih onward (Nat.le_of_succ_le_succ enough)
      generalize w.next = step at first depth later ⊢
      obtain ⟨_, w'⟩ := step
      subst first
      exact congrArg₂ List.cons (congrArg (Visit.mk · v.handle v.value) depth) later

end Walk

/-! ## Traversals -/

namespace Tree

open Forest

variable {t : Tree α} {f : Forest α} {q : Option Handle} {rest : List (Handle × Node α)}
  {s : Sprig α}

/-- With levels that stand for stored forests, a walk meets the nodes of these forests. -/
theorem Stores.meets_levels (stores : t.Stores q f rest) {levels : List (Forest α)}
    (inside : ∀ g ∈ levels, ∀ s ∈ g.sprigs, s ∈ f.nodes) :
    (Walk.mk t.arena none (levels.map roots)).Meets (pendingVisits levels) := by
  -- By induction on what is pending: a call takes one visit off it and replaces the levels.
  generalize pending : pendingVisits levels = vs
  induction vs generalizing levels with
  | nil =>
    rcases takeNext_roots levels with ⟨ended, -⟩ | ⟨s, later, outer, -, listed, -⟩
    · exact Walk.meets_nil rfl ended
    · rw [pending] at listed
      cases listed
  | cons v vs ih =>
    rcases takeNext_roots levels with
      ⟨-, empty⟩ | ⟨s, later, outer, next, listed, g, mem, split, kept⟩
    · rw [pending] at empty
      cases empty
    · rw [pending] at listed
      obtain ⟨rfl, onward⟩ := List.cons.inj listed
      have here : s ∈ f.nodes := inside g mem s (split ▸ List.mem_cons_self ..)
      obtain ⟨p, stored⟩ := stores.exists_node? here
      rw [node?] at stored
      have met : (Walk.mk t.arena none (levels.map roots)).next =
          (some (s.handle, s.value), ⟨t.arena, none, (s.below :: later :: outer).map roots⟩) := by
        rw [Walk.next]
        simp only [next, Walk.visit, stored]
        rfl
      refine .cons met (by simp [Walk.depth]) (ih (fun k level c top => ?_) onward.symm)
      rcases List.mem_cons.mp level with rfl | level
      · exact mem_nodes_of_child here top
      · rcases List.mem_cons.mp level with rfl | level
        · exact inside g mem c (split ▸ List.mem_cons_of_mem _ top)
        · exact inside k (kept k level) c top

/-- From a stored node a walk meets its subtree. -/
theorem Stores.meets_from (stores : t.Stores q f rest) (mem : s ∈ f.nodes) :
    (Walk.ofStart t.arena (some s.handle)).Meets ((ofSprigs [s]).visits 0) := by
  obtain ⟨p, stored⟩ := stores.exists_node? mem
  rw [node?] at stored
  have children : ∀ g ∈ [s.below], ∀ c ∈ g.sprigs, c ∈ f.nodes := by
    intro g level c top
    obtain rfl := List.mem_singleton.mp level
    exact mem_nodes_of_child mem top
  have below := stores.meets_levels children
  have whole : (ofSprigs [s]).visits 0 = ⟨0, s.handle, s.value⟩ :: pendingVisits [s.below] := by
    simp [ofSprigs, visits, pendingVisits]
  rw [whole]
  refine .cons ?_ ?_ below
  · rw [Walk.next]
    simp only [Walk.ofStart, Walk.visit, stored]
    rfl
  · rfl

theorem Stores.visits_from (stores : t.Stores q f rest) (mem : s ∈ f.nodes) {bound : Nat}
    (enough : s.handles.length ≤ bound) :
    (Walk.ofStart t.arena (some s.handle)).visits bound = (ofSprigs [s]).visits 0 := by
  apply (stores.meets_from mem).visits_eq
  rwa [length_visits, handles_single]

theorem Shows.visits_walk (shows : t.Shows f) {bound : Nat} (enough : t.len ≤ bound) :
    t.walk.visits bound = f.visits 0 := by
  rw [shows.len_eq] at enough
  rcases shows.sprigs_eq with ⟨noRoot, rfl⟩ | ⟨s, isRoot, rfl⟩
  · rw [walk, noRoot]
    cases bound <;> rfl
  · have mem := mem_nodes_single s
    rw [walk, isRoot]
    apply shows.stores.visits_from mem
    simpa [handles_eq_flatMap] using enough

theorem Shows.preOrder_eq (shows : t.Shows f) : t.preOrder = f.visits 0 :=
  shows.visits_walk (Nat.le_refl _)

theorem Shows.handles_eq (shows : t.Shows f) : t.handles = f.handles := by
  rw [Tree.handles, shows.preOrder_eq, map_handle_visits]

/-- The full scan meets the first node in pre-order that satisfies the predicate. -/
theorem Shows.findBy_eq (shows : t.Shows f) (p : α → Bool) :
    t.findBy p = (f.nodes.find? (p ·.value)).map Sprig.handle := by
  rw [findBy, shows.preOrder_eq, find?_visits]

theorem Shows.findBy_eq_none_iff (shows : t.Shows f) {p : α → Bool} :
    t.findBy p = none ↔ ∀ h x, t.get? h = some x → ¬p x = true := by
  rw [shows.findBy_eq, Option.map_eq_none_iff, List.find?_eq_none]
  constructor
  · intro nowhere h x valued
    obtain ⟨n, live, rfl⟩ := Option.map_eq_some_iff.mp valued
    obtain ⟨s, mem, -, value, -⟩ := shows.exists_node live
    exact value ▸ nowhere s mem
  · intro nowhere s mem
    exact nowhere s.handle s.value (shows.stores.get?_eq mem)

theorem Shows.of_findBy_eq_some (shows : t.Shows f) {p : α → Bool} {h : Handle}
    (found : t.findBy p = some h) : ∃ x, t.get? h = some x ∧ p x = true := by
  rw [shows.findBy_eq] at found
  obtain ⟨s, first, rfl⟩ := Option.map_eq_some_iff.mp found
  refine ⟨s.value, shows.stores.get?_eq (List.mem_of_find?_eq_some first), ?_⟩
  simpa using List.find?_some first

end Tree

end PolicyTree
