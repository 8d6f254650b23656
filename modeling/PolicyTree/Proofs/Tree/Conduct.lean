import PolicyTree.Proofs.Tree.Extraction
import PolicyTree.Proofs.Tree.GuardsHold
import PolicyTree.Proofs.Tree.Validity

/-! How operations end on a tree that shows a forest: done, or refused for what they were asked. -/

namespace PolicyTree

variable {α β γ : Type}

/-- The tree that the edit copies from. -/
def Edit.source? {σ : Type} : Edit σ α → Option σ
  | replaceSubtree _ source | replaceWithSubtree _ source _ => some source
  | _ => none

/-- The handles that the edit is given are live, each in the tree that it is meant for. -/
def Edit.Live (t : Tree α) : Edit (Tree α) α → Prop
  | setRoot _ | clear => True
  | replaceWithSubtree h source sourceNode =>
    t.contains h = true ∧ source.contains sourceNode = true
  | sortBy first last _ => t.contains first = true ∧ ∀ h ∈ last, t.contains h = true
  | insert h _ | replaceValue h _ | replaceSubtree h _ | erase h | eraseChildren h
  | sortChildrenBy h _ => t.contains h = true
  | @sortChildren _ _ _ h => t.contains h = true

/-- Errors that the request accounts for: none is damage to the tree, and a handle is to blame only
if not all handles of the request are `live`. -/
def TreeError.Excused (live : Prop) : TreeError → Prop
  | invalidHandle _ => ¬live
  | corruptedTree _ => False
  | _ => True

/-- An operation that ends in order was done, or refused for what was asked of it. -/
def Outcome.Orderly (live : Prop) : Outcome β → Prop
  | done _ => True
  | refused e => e.Excused live
  | halted => False

theorem TreeError.Excused.mono {live live' : Prop} {e : TreeError} (excused : e.Excused live)
    (weaker : live' → live) : e.Excused live' := by
  cases e with
  | invalidHandle h => exact fun isLive => excused (weaker isLive)
  | corruptedTree details => exact excused
  | _ => trivial

/-- Errors of a copy are renamed after the source, not otherwise changed. -/
theorem TreeError.Excused.fromCopy {live : Prop} {e : TreeError} (excused : e.Excused live)
    (h : Handle) : (e.fromCopy h).Excused live := by
  cases e with
  | duplicateKey k => trivial
  | _ => exact excused

namespace Outcome.Orderly

variable {live live' : Prop} {o : Outcome β}

theorem mono (orderly : o.Orderly live) (weaker : live' → live) : o.Orderly live' := by
  cases o with
  | done b => trivial
  | refused e => exact TreeError.Excused.mono orderly weaker
  | halted => exact orderly

theorem map (orderly : o.Orderly live) (g : β → γ) : (o.map g).Orderly live := by
  cases o with
  | done b => trivial
  | refused e => exact orderly
  | halted => exact orderly

theorem ne_halted (orderly : o.Orderly live) : o ≠ halted := by
  rintro rfl
  exact orderly

theorem ne_corrupted (orderly : o.Orderly live) (details : String) :
    o ≠ refused (.corruptedTree details) := by
  rintro rfl
  exact orderly

theorem ne_invalidHandle (orderly : o.Orderly live) (isLive : live) (h : Handle) :
    o ≠ refused (.invalidHandle h) := by
  rintro rfl
  exact orderly isLive

end Outcome.Orderly

namespace Tree

open Forest

variable {t source : Tree α} {f g : Forest α} {live : Prop} {h k : Handle}

/-! ## Combinators -/

/-- The question fails only if `h` is dead, and names it then. -/
def Needs (t : Tree α) (h : Handle) (question : Except TreeError γ) : Prop :=
  ∀ e, question = .error e → e = .invalidHandle h ∧ ¬t.contains h = true

theorem needs_node (t : Tree α) (h : Handle) : t.Needs h (t.node h) := by
  intro e failed
  rw [node] at failed
  cases dead : t.node? h with
  | some n =>
    rw [dead] at failed
    cases failed
  | none =>
    rw [dead] at failed
    cases failed
    exact ⟨rfl, Arena.not_contains_iff.mpr dead⟩

theorem Needs.map {q : Except TreeError γ} (needs : t.Needs h q) (g : γ → β) :
    t.Needs h (q.map g) := by
  cases q with
  | ok c => exact nofun
  | error e =>
    rintro _ ⟨⟩
    exact needs e rfl

theorem Shows.needs_slotInParent (shows : t.Shows f) (h : Handle) :
    t.Needs h (t.slotInParent h) := by
  intro e failed
  rcases shows.locate h with ⟨dead, slot⟩ | ⟨s, -, -, -, slot⟩ | ⟨s, -, i, c, -, -, slot⟩
  · rw [slot] at failed
    cases failed
    exact ⟨rfl, Arena.not_contains_iff.mpr dead⟩
  · rw [slot] at failed
    cases failed
  · rw [slot] at failed
    cases failed

theorem orderly_require {u : Tree α} {q : Except TreeError γ} {next : γ → Reply α β}
    (needs : u.Needs h q) (given : live → u.contains h = true)
    (goesOn : ∀ c, q = .ok c → (next c).outcome.Orderly live) :
    (t.require q next).outcome.Orderly live := by
  cases q with
  | ok c => exact goesOn c rfl
  | error e =>
    obtain ⟨rfl, dead⟩ := needs e rfl
    exact fun isLive => dead (given isLive)

theorem orderly_andThen {r : Reply α β} {next : β → Tree α → Reply α γ}
    (first : r.outcome.Orderly live) (goesOn : ∀ b t, (next b t).outcome.Orderly live) :
    (r.andThen next).outcome.Orderly live := by
  obtain ⟨outcome, t⟩ := r
  cases outcome with
  | done b => exact goesOn b t
  | refused e => exact first
  | halted => exact first

/-! ## Copies -/

/-- An insertion into any tree at all can only miss its parent or meet an equal key. -/
theorem orderly_insert (t : Tree α) (parent : Handle) (x : α) :
    (t.insert parent x).outcome.Orderly (t.contains parent = true) := by
  apply orderly_require (t.needs_node parent) id
  intro n _
  cases t.policy.place (t.valuesAt n.children) x with
  | taken i => trivial
  | before i => trivial

theorem orderly_mapError_fromCopy {r : Reply α β} (orderly : r.outcome.Orderly live) :
    (r.mapError (.fromCopy h)).outcome.Orderly live := by
  obtain ⟨outcome, t⟩ := r
  cases outcome with
  | done b => trivial
  | refused e => exact TreeError.Excused.fromCopy orderly h
  | halted => exact orderly

/-- Copying from any tree at all can only miss a node or meet an equal key. -/
theorem orderly_copyLevel (source : Tree α) (parent dest : Handle) (hs : List Handle) (t : Tree α) :
    (copyLevel source parent dest hs t).outcome.Orderly False := by
  -- With `False` for the handles, which may all be dead, nothing is asked of the two trees.
  induction hs generalizing t with
  | nil => trivial
  | cons h hs ih =>
    rw [copyLevel]
    refine orderly_require ((source.needs_node h).map Node.value) False.elim fun x _ => ?_
    apply orderly_andThen
    · exact orderly_mapError_fromCopy ((t.orderly_insert dest x).mono False.elim)
    · exact fun copy t => orderly_andThen (ih t) fun _ _ => trivial

theorem orderly_copyPending (source : Tree α) (bound : Nat) (pending : List (Handle × Handle))
    (copied : Nat) (t : Tree α) :
    (copyPending source bound pending copied t).outcome.Orderly False := by
  induction bound generalizing pending copied t with
  | zero => trivial
  | succ bound ih =>
    cases pending with
    | nil => trivial
    | cons next pending =>
      rw [copyPending]
      refine orderly_require (source.needs_node next.1) False.elim fun n _ => ?_
      exact orderly_andThen (orderly_copyLevel ..) fun copies t => ih _ _ t

/-- A copy of a node of a forest misses nothing. -/
theorem Shows.orderly_copyBelow (shown : source.Shows g) {x : α}
    (valued : source.value k = .ok x) {dest : Handle} {q : Option Handle}
    {rest : List (Handle × Node α)} (held : t.arena.Holds ((dest, ⟨x, q, []⟩) :: rest)) :
    (t.copyBelow source k dest).outcome.Orderly True := by
  obtain ⟨n, live, rfl⟩ := exists_of_map_node valued
  obtain ⟨s, mem, rfl, same, -⟩ := shown.exists_node live
  rw [← same] at held
  rcases copyBelow_cases shown.stores mem held with ⟨c, -, refused⟩ | ⟨-, n, partner, done, -⟩
  · rw [refused]
    trivial
  · rw [done]
    trivial

/-- A copy built beside the forest can blame handles of the source only if that shows no forest. -/
theorem Shows.orderly_copy_beside (shows : t.Shows f) {x : α} (valued : source.value k = .ok x)
    (q : Option Handle) :
    (copyBelow { t with arena := t.arena.allocate ⟨x, q, []⟩ } source k
      t.arena.fresh).outcome.Orderly (∃ g, source.Shows g) := by
  by_cases sound : ∃ g, source.Shows g
  · obtain ⟨g, shown⟩ := sound
    have held : (t.arena.allocate ⟨x, q, []⟩).Holds
        ((t.arena.fresh, ⟨x, q, []⟩) :: f.records none) :=
      shows.holds.allocate _
    exact (shown.orderly_copyBelow valued held).mono fun _ => trivial
  · exact (orderly_copyPending ..).mono sound

theorem Shows.orderly_extract (shows : source.Shows g) (h : Handle) (policy : Policy α)
    (owners : Owners) :
    (source.extract h policy owners).1.Orderly (source.contains h = true) := by
  cases valued : source.value h with
  | error e =>
    obtain ⟨rfl, dead⟩ := (source.needs_node h).map Node.value e valued
    rw [extract, valued]
    exact dead
  | ok x =>
    obtain ⟨n, live, -⟩ := exists_of_map_node valued
    obtain ⟨s, mem, rfl, -⟩ := shows.exists_node live
    rcases shows.stores.extract_cases mem policy owners with ⟨c, -, refused⟩ | ⟨-, t, p, done, -⟩
    · rw [refused]
      trivial
    · rw [done]
      trivial

/-! ## Edits -/

theorem Shows.orderly_replaceValue (shows : t.Shows f) (inRange : t.policy.InRange) (h : Handle)
    (x : α) : (t.replaceValue h x).outcome.Orderly (t.contains h = true) := by
  rcases shows.replaceValue_cases h x (.inl inRange) with ⟨dead, missed⟩ | ⟨s, -, -, done, -⟩ |
    ⟨s, -, i, c, -, -, ⟨k, -, -, taken⟩ | ⟨j, -, done, -⟩⟩
  · rw [missed]
    exact Arena.not_contains_iff.mpr dead
  · rw [done]
    trivial
  · rw [taken]
    trivial
  · rw [done]
    trivial

theorem Shows.orderly_replaceWithSubtree (shows : t.Shows f) (inRange : t.policy.InRange)
    (h : Handle) (source : Tree α) (k : Handle) :
    (t.replaceWithSubtree h source k).outcome.Orderly
      ((t.contains h = true ∧ source.contains k = true) ∧ ∃ g, source.Shows g) := by
  rw [replaceWithSubtree]
  refine orderly_require (shows.needs_slotInParent h) (·.1.1) fun slot located => ?_
  refine orderly_require ((source.needs_node k).map Node.value) (·.1.2) fun x valued => ?_
  obtain ⟨below, -, -, root, stores⟩ := shows.stores.copy_beside x (slot.map Prod.fst) source k rfl
  have policy := policy_copyBelow
    { t with arena := t.arena.allocate ⟨x, slot.map Prod.fst, []⟩ } source k t.arena.fresh
  have copying := shows.orderly_copy_beside valued (slot.map Prod.fst)
  dsimp only at policy ⊢
  generalize copyBelow _ source k _ = copied at policy root stores copying ⊢
  obtain ⟨outcome, t₁⟩ := copied
  dsimp only at policy root stores copying ⊢
  cases outcome with
  | halted => exact copying
  | refused e => exact copying.mono And.right
  | done copied =>
    rcases shows.substitute_beside (.inl inRange) located root policy stores with
      ⟨s, -, i, c, k, -, -, -, -, t', refused, -⟩ | ⟨t', done, -⟩
    · dsimp only at refused ⊢
      rw [refused]
      trivial
    · dsimp only at done ⊢
      rw [done]
      trivial

theorem Shows.orderly_erase (shows : t.Shows f) (h : Handle) :
    (t.erase h).outcome.Orderly (t.contains h = true) := by
  rcases shows.erase_cases h with ⟨dead, missed⟩ | ⟨s, -, -, done, -⟩ | ⟨s, -, i, c, -, -, done, -⟩
  · rw [missed]
    exact Arena.not_contains_iff.mpr dead
  · rw [done]
    trivial
  · rw [done]
    trivial

theorem orderly_eraseChildren (t : Tree α) (h : Handle) :
    (t.eraseChildren h).outcome.Orderly (t.contains h = true) :=
  orderly_require (t.needs_node h) id fun _ _ => trivial

theorem Shows.orderly_sortBy (shows : t.Shows f) (first : Handle) (last : Option Handle)
    (cmp : α → α → Ordering) :
    (t.sortBy first last cmp).outcome.Orderly
      (t.contains first = true ∧ ∀ h ∈ last, t.contains h = true) := by
  rw [sortBy]
  refine orderly_require (shows.needs_slotInParent first) And.left fun slot located => ?_
  rcases shows.slot_cases located with ⟨s, -, -, rfl⟩ | ⟨s, mem, i, c, child, -, rfl⟩
  · dsimp only
    cases last with
    | none => trivial
    | some last =>
      rw [checkRootRange]
      split <;> trivial
  · dsimp only
    rcases shows.rangeEnd_cases s.handle first last with
      ⟨j, -, ends⟩ | ⟨k, given, ⟨dead, missed⟩ | apart⟩
    · rw [ends, require_ok]
      by_cases reversed : j < i
      · rw [if_pos reversed]
        trivial
      · obtain ⟨t', done, -⟩ := shows.stores.sortRange_eq mem (Nat.le_of_not_lt reversed) cmp
        rw [if_neg reversed, done]
        split <;> trivial
    · rw [missed]
      exact fun isLive => Arena.not_contains_iff.mpr dead (isLive.2 k given)
    · rw [apart]
      trivial

theorem Shows.orderly_sortChildrenBy (shows : t.Shows f) (h : Handle) (cmp : α → α → Ordering) :
    (t.sortChildrenBy h cmp).outcome.Orderly (t.contains h = true) := by
  rw [sortChildrenBy]
  refine orderly_require ((t.needs_node h).map Node.children) id fun hs listed => ?_
  cases hs with
  | nil => trivial
  | cons first hs =>
    refine (shows.orderly_sortBy first none cmp).mono fun _ => ⟨?_, by simp⟩
    obtain ⟨n, live, children⟩ := exists_of_map_node listed
    apply shows.allLive_children live
    rw [children]
    exact List.mem_cons_self ..

theorem Shows.orderly_perform (shows : t.Shows f) (inRange : t.policy.InRange)
    (e : Edit (Tree α) α) :
    (t.perform e).outcome.Orderly (e.Live t ∧ ∀ source ∈ e.source?, ∃ g, source.Shows g) := by
  cases e with
  | setRoot x => trivial
  | clear => trivial
  | insert parent x => exact ((t.orderly_insert parent x).mono And.left).map _
  | replaceValue h x => exact ((shows.orderly_replaceValue inRange h x).mono And.left).map _
  | replaceSubtree h source =>
    rw [Tree.perform, outcome_map, replaceSubtree]
    apply Outcome.Orderly.map
    cases root : source.root with
    | none => trivial
    | some k =>
      refine (shows.orderly_replaceWithSubtree inRange h source k).mono fun sound => ?_
      obtain ⟨g, shown⟩ := sound.2 source rfl
      obtain ⟨s, rfl, rfl⟩ := shown.eq_single root
      exact ⟨⟨sound.1, shown.stores.contains (mem_nodes_single s)⟩, _, shown⟩
  | replaceWithSubtree h source k =>
    refine ((shows.orderly_replaceWithSubtree inRange h source k).mono fun sound => ?_).map _
    exact ⟨sound.1, sound.2 source rfl⟩
  | erase h => exact ((shows.orderly_erase h).mono And.left).map _
  | eraseChildren h => exact ((t.orderly_eraseChildren h).mono And.left).map _
  | sortBy first last cmp => exact ((shows.orderly_sortBy first last cmp).mono And.left).map _
  | sortChildrenBy h cmp => exact ((shows.orderly_sortChildrenBy h cmp).mono And.left).map _
  | sortChildren h => exact ((shows.orderly_sortChildrenBy h compare).mono And.left).map _

end Tree

end PolicyTree
