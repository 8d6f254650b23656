import PolicyTree.Proofs.Session
import PolicyTree.Proofs.Tree.Twins

/-! Edits inside the nodes that two trees have in common are answered alike. -/

namespace PolicyTree

open Forest

variable {α β τ : Type}

/-- The same answer, where nodes of the edited trees match by `own`. -/
inductive Answer.Alike (own : Handle → Handle → Prop) : Answer α → Answer α → Prop where
  | nothing : Alike own .nothing .nothing
  | handle {h k : Handle} (here : own h k) : Alike own (.handle h) (.handle k)
  | value (x : α) : Alike own (.value x) (.value x)
  | count (n : Nat) : Alike own (.count n) (.count n)

theorem Answer.Alike.mono {own own' : Handle → Handle → Prop} {a a' : Answer α}
    (alike : Alike own a a') (weaker : ∀ h k, own h k → own' h k) : Alike own' a a' := by
  cases alike with
  | nothing => exact .nothing
  | handle here => exact .handle (weaker _ _ here)
  | value x => exact .value x
  | count n => exact .count n

/-- `k` is the name that `σ` gives to the node `h` of `f`. -/
def Forest.Names (f : Forest α) (σ : Handle → Handle) (h k : Handle) : Prop :=
  h ∈ f.handles ∧ k = σ h

namespace Forest

variable {b : Forest α} {i j : Nat} {x : α} {policy : Policy α}

theorem Resettled.unique {k : Nat} (first : Resettled policy b i x j)
    (second : Resettled policy b i x k) : j = k := by
  unfold Resettled at first second
  split at first
  case isTrue keyed =>
    rw [if_pos keyed, first] at second
    exact Placement.before.inj second
  case isFalse unkeyed =>
    rw [if_neg unkeyed] at second
    rw [first, second]

theorem Resettled.not_taken {k : Nat} (settled : Resettled policy b i x j)
    (keyed : policy.keyed = true) : policy.place (b.pluckAt i).rootValues x ≠ .taken k := by
  intro taken
  rw [settled.place_eq keyed] at taken
  cases taken

theorem rootValues_pluckAt_rename (σ : Handle → Handle) (b : Forest α) (i : Nat) :
    ((b.rename σ).pluckAt i).rootValues = (b.pluckAt i).rootValues := by
  rw [← rename_pluckAt, rootValues_rename]

theorem resettled_rename {σ : Handle → Handle} :
    Resettled policy (b.rename σ) i x j ↔ Resettled policy b i x j := by
  rw [Resettled, Resettled, rootValues_pluckAt_rename]

end Forest

namespace Tree

variable {t u : Tree α} {f : Forest α} {s c : Sprig α} {σ : Handle → Handle}
  {q q' : Option Handle} {rest rest' : List (Handle × Node α)} {foreign : Handle → Prop}
  {i : Nat} {x : α}

/-- What two replies to edits of twins have in common: twins are left, in which the old nodes keep
their names, the roots stay, and the outcomes match. -/
def Twins.Concur (_ : Twins t q rest u q' rest' f σ) (foreign : Handle → Prop)
    (r r' : Reply α (Answer α)) : Prop :=
  ∃ f' σ', r.tree.Stores q f' rest ∧ r'.tree.Stores q' (f'.rename σ') rest' ∧ f'.roots = f.roots ∧
    (∀ h ∈ f.handles, σ' h = σ h) ∧ r.tree.root = t.root ∧ r'.tree.root = u.root ∧
    Outcome.Alike (TreeError.Alike (f.Names σ) foreign) (Answer.Alike (f'.Names σ'))
      r.outcome r'.outcome

namespace Twins

variable {t' u' : Tree α} {k k' : Forest α → Forest α} {a a' : Answer α}

theorem concur_of_refused (twins : Twins t q rest u q' rest' f σ) (left : t'.Stores q f rest)
    (right : u'.Stores q' (f.rename σ) rest') (root : t'.root = t.root) (root' : u'.root = u.root)
    {e e' : TreeError} (same : TreeError.Alike (f.Names σ) foreign e e') :
    twins.Concur foreign (t'.refuse e) (u'.refuse e') :=
  ⟨f, σ, left, right, rfl, fun _ _ => rfl, root, root', .refused same⟩

theorem concur_refused (twins : Twins t q rest u q' rest' f σ) {e e' : TreeError}
    (same : TreeError.Alike (f.Names σ) foreign e e') :
    twins.Concur foreign (t.refuse e) (u.refuse e') :=
  twins.concur_of_refused twins.left twins.right rfl rfl same

theorem concur_unchanged (twins : Twins t q rest u q' rest' f σ)
    (same : ∀ own, Answer.Alike own a a') : twins.Concur foreign (t.answer a) (u.answer a') :=
  ⟨f, σ, twins.left, twins.right, rfl, fun _ _ => rfl, rfl, rfl, .done (same _)⟩

/-- A change of one sibling list that goes by places and values. -/
theorem concur_of_natural (twins : Twins t q rest u q' rest' f σ) (mem : s ∈ f.nodes)
    (left : t'.Stores q (f.mapBelow s.handle k) rest)
    (right : u'.Stores q' ((f.rename σ).mapBelow (σ s.handle) k') rest')
    (root : t'.root = t.root) (root' : u'.root = u.root)
    (natural : ∀ b : Forest α, (k b).rename σ = k' (b.rename σ))
    (same : ∀ own, Answer.Alike own a a') :
    twins.Concur foreign (t'.answer a) (u'.answer a') := by
  rw [← rename_mapBelow_of_natural (twins.single mem) natural] at right
  exact ⟨_, σ, left, right, roots_mapBelow .., fun _ _ => rfl, root, root', .done (same _)⟩

/-! ## One edit -/

theorem concur_insert (twins : Twins t q rest u q' rest' f σ) (mem : s ∈ f.nodes) (x : α) :
    twins.Concur foreign ((t.insert s.handle x).map .handle)
      ((u.insert (σ s.handle) x).map .handle) := by
  rcases twins.insert_cases mem x with
    ⟨refused, refused'⟩ | ⟨t', u', f', σ', grow, planted, named, done, done'⟩
  · rw [refused, refused']
    exact twins.concur_refused (.taken ⟨mem_handles mem, rfl⟩)
  · rw [done, done']
    exact ⟨f', σ', grow.left.stores, grow.right.stores, grow.left.grown.roots_eq, grow.agree,
      grow.left.root_eq, grow.right.root_eq, .done (.handle ⟨planted, named.symm⟩)⟩

theorem concur_erase (twins : Twins t q rest u q' rest' f σ) (mem : s ∈ f.nodes)
    (child : s.below.sprigs[i]? = some c) :
    twins.Concur foreign ((t.erase c.handle).map .value) ((u.erase (σ c.handle)).map .value) := by
  obtain ⟨t', done, left, root⟩ := twins.left.erase_eq mem child
  obtain ⟨u', done', right, root'⟩ :=
    twins.right.erase_eq (mem_rename mem σ) (child_rename child σ)
  rw [Sprig.handle_rename] at done'
  rw [done, done']
  exact twins.concur_of_natural mem left right root root' (rename_pluckAt σ i) fun _ => .value _

theorem concur_eraseChildren (twins : Twins t q rest u q' rest' f σ) (mem : s ∈ f.nodes) :
    twins.Concur foreign ((t.eraseChildren s.handle).map .count)
      ((u.eraseChildren (σ s.handle)).map .count) := by
  obtain ⟨t', done, left, root⟩ := twins.left.eraseChildren_eq mem
  obtain ⟨u', done', right, root'⟩ := twins.right.eraseChildren_eq (mem_rename mem σ)
  rw [Sprig.handle_rename, Sprig.below_rename, handles_rename, List.length_map] at done'
  rw [done, done']
  exact twins.concur_of_natural mem left right root root' (fun _ => rfl) fun _ => .count _

theorem concur_sortChildrenBy (twins : Twins t q rest u q' rest' f σ) (mem : s ∈ f.nodes)
    (cmp : α → α → Ordering) :
    twins.Concur foreign ((t.sortChildrenBy s.handle cmp).map fun _ => .nothing)
      ((u.sortChildrenBy (σ s.handle) cmp).map fun _ => .nothing) := by
  obtain ⟨t', done, left, root⟩ := twins.left.sortChildrenBy_eq mem cmp
  obtain ⟨u', done', right, root'⟩ := twins.right.sortChildrenBy_eq (mem_rename mem σ) cmp
  rw [Sprig.below_rename, sprigs_rename, List.length_map, twins.policy_eq] at right
  rw [Sprig.handle_rename] at done'
  rw [done, done']
  refine twins.concur_of_natural mem left right root root' (fun b => ?_) fun _ => .nothing
  split
  · rfl
  · exact rename_sortAt ..

theorem concur_replaceValue (twins : Twins t q rest u q' rest' f σ) (inRange : t.policy.InRange)
    (mem : s ∈ f.nodes) (child : s.below.sprigs[i]? = some c) (x : α) :
    twins.Concur foreign ((t.replaceValue c.handle x).map .value)
      ((u.replaceValue (σ c.handle) x).map .value) := by
  have cases := twins.left.replaceValue_cases inRange mem child x
  have cases' := twins.right.replaceValue_cases (twins.policy_eq ▸ inRange) (mem_rename mem σ)
    (child_rename child σ) x
  rw [Sprig.below_rename, Sprig.handle_rename, rootValues_pluckAt_rename, twins.policy_eq] at cases'
  simp only [resettled_rename] at cases'
  rcases cases with ⟨k, keyed, taken, refused⟩ | ⟨j, settled, t', done, left, root⟩
  · rcases cases' with ⟨-, -, -, refused'⟩ | ⟨j, settled, -⟩
    · rw [refused, refused']
      exact twins.concur_refused (.taken ⟨mem_handles mem, rfl⟩)
    · exact absurd taken (settled.not_taken keyed)
  · rcases cases' with ⟨k, keyed, taken, -⟩ | ⟨j', settled', u', done', right, root'⟩
    · exact absurd taken (settled.not_taken keyed)
    · obtain rfl := settled.unique settled'
      rw [done, done']
      exact twins.concur_of_natural mem left right root root'
        (rename_swapAt σ i j ⟨c.handle, x, c.below⟩) fun _ => .value _

/-- A sprig stored beside both takes the place of the same child, unless another child has its
key. -/
theorem concur_substitute (twins : Twins t q rest u q' rest' f σ) (inRange : t.policy.InRange)
    (mem : s ∈ f.nodes) (child : s.below.sprigs[i]? = some c) {n : Sprig α} {ρ : Handle → Handle}
    (left : t'.Stores q f (n.records (some s.handle) ++ rest))
    (right : u'.Stores q' (f.rename σ) ((n.rename ρ).records (some (σ s.handle)) ++ rest'))
    (root : t'.root = t.root) (root' : u'.root = u.root) (policy : t'.policy = t.policy)
    (policy' : u'.policy = t.policy) (x : α) :
    twins.Concur foreign ((t'.substitute c.handle n.handle x (some (s.handle, i))).map .handle)
      ((u'.substitute (σ c.handle) (ρ n.handle) x (some (σ s.handle, i))).map .handle) := by
  have child' := child_rename child σ
  have cases := left.substitute_cases mem child (fits_of_inRange (policy.symm ▸ inRange) child x)
  have cases' := Stores.substitute_cases (s := s.rename σ) (n := n.rename ρ) right
    (mem_rename mem σ) child' (fits_of_inRange (policy'.symm ▸ inRange) child' x)
  rw [Sprig.below_rename, rootValues_pluckAt_rename, policy'] at cases'
  rw [policy] at cases
  simp only [resettled_rename, Sprig.handle_rename] at cases'
  rcases cases with
    ⟨k, keyed, taken, t'', refused, left'', kept⟩ | ⟨j, settled, t'', done, left'', kept⟩
  · rcases cases' with ⟨-, -, -, u'', refused', right'', kept'⟩ | ⟨j, settled, -⟩
    · rw [refused, refused']
      exact twins.concur_of_refused left'' right'' (kept.trans root) (kept'.trans root')
        (.taken ⟨mem_handles mem, rfl⟩)
    · exact absurd taken (settled.not_taken keyed)
  · rcases cases' with ⟨k, keyed, taken, -⟩ | ⟨j', settled', u'', done', right'', kept'⟩
    · exact absurd taken (settled.not_taken keyed)
    · obtain rfl := settled.unique settled'
      have fresh := left.apart
      have moved := rename_mapBelow_graft (k := swapAt i j) ρ (twins.single mem) fresh
        fun τ b => rename_swapAt τ i j n b
      have named : graft σ ρ n n.handle = ρ n.handle := graft_of_mem (List.mem_cons_self ..)
      rw [done, done']
      refine ⟨_, _, left'', ?_, roots_mapBelow .., fun h live => ?_, kept.trans root,
        kept'.trans root', .done (.handle ⟨?_, named.symm⟩)⟩
      · rw [moved]
        exact right''
      · exact graft_of_notMem fun new => fresh h new live
      · exact mem_handles_mapBelow (mem_handles mem) fun b => mem_handles_plantAt ..

theorem concur_replaceWithSubtree (twins : Twins t q rest u q' rest' f σ)
    (inRange : t.policy.InRange) (mem : s ∈ f.nodes) (child : s.below.sprigs[i]? = some c)
    (source : Tree α) (k : Handle) :
    twins.Concur (· ∈ source.subtree k) ((t.replaceWithSubtree c.handle source k).map .handle)
      ((u.replaceWithSubtree (σ c.handle) source k).map .handle) := by
  have slot := twins.left.slotInParent_of_child mem child
  have slot' : u.slotInParent (σ c.handle) = .ok (some (σ s.handle, i)) :=
    twins.right.slotInParent_of_child (mem_rename mem σ) (child_rename child σ)
  rw [replaceWithSubtree, slot, require_ok, replaceWithSubtree, slot', require_ok]
  cases live : source.node? k with
  | none =>
    rw [value, node, live]
    exact twins.concur_refused (.deadSource .refl)
  | some n =>
    rw [value, node, live, Except.map, require_ok, require_ok]
    obtain ⟨under, ρ, head, left, right, root, root', alike⟩ :=
      twins.copy_beside_alike (f.Names σ) n.value (some s.handle) (some (σ s.handle)) source k rfl
        rfl
    have policy := policy_copyBelow
      { t with arena := t.arena.allocate ⟨n.value, some s.handle, []⟩ } source k t.arena.fresh
    have policy' := policy_copyBelow
      { u with arena := u.arena.allocate ⟨n.value, some (σ s.handle), []⟩ } source k u.arena.fresh
    dsimp only [Option.map] at policy policy' ⊢
    generalize copyBelow _ source k t.arena.fresh = copied at left root alike policy ⊢
    generalize copyBelow _ source k u.arena.fresh = copied' at right root' alike policy' ⊢
    obtain ⟨outcome, t₁⟩ := copied
    obtain ⟨outcome', u₁⟩ := copied'
    cases alike with
    | refused same =>
      have freed := right.release_beside
      rw [Sprig.rename, head] at freed
      exact twins.concur_of_refused left.release_beside freed root root' same
    | done same =>
      rw [← head]
      exact twins.concur_substitute inRange mem child left right root root' policy
        (policy'.trans twins.policy_eq) n.value

end Twins

end Tree

/-! ## Edits inside a part of the tree -/

/-- The edit asked for at the renamed handles. -/
def Edit.rename (σ : Handle → Handle) : Edit τ α → Edit τ α
  | setRoot x => setRoot x
  | clear => clear
  | insert parent x => insert (σ parent) x
  | replaceValue h x => replaceValue (σ h) x
  | replaceSubtree h source => replaceSubtree (σ h) source
  | replaceWithSubtree h source sourceNode => replaceWithSubtree (σ h) source sourceNode
  | erase h => erase (σ h)
  | eraseChildren h => eraseChildren (σ h)
  | sortBy first last cmp => sortBy (σ first) (last.map σ) cmp
  | sortChildrenBy h cmp => sortChildrenBy (σ h) cmp
  | sortChildren h => sortChildren (σ h)

/-- The nodes that the edit copies from another tree. -/
def Edit.copied : Edit (Tree α) α → Set Handle
  | replaceSubtree _ source => {h | ∃ r ∈ source.root, h ∈ source.subtree r}
  | replaceWithSubtree _ source sourceNode => source.subtree sourceNode
  | _ => ∅

theorem Edit.copied_replaceSubtree {source : Tree α} {r : Handle} (h : Handle)
    (root : source.root = some r) : (replaceSubtree h source).copied = source.subtree r := by
  ext k
  simp [copied, root]

/-- The edit is about nodes of `f` alone: what changes children is asked for at any node, what moves
a node or takes it away, at a node below another. -/
def Edit.Within (f : Forest α) : Edit τ α → Prop
  | insert h _ | eraseChildren h | sortChildrenBy h _ | sortChildren h => h ∈ f.handles
  | replaceValue h _ | replaceSubtree h _ | replaceWithSubtree h _ _ | erase h =>
    ∃ s ∈ f.nodes, h ∈ s.below.roots
  | setRoot _ | clear | sortBy .. => False

namespace Tree

variable {t u : Tree α} {f : Forest α} {σ : Handle → Handle} {q q' : Option Handle}
  {rest rest' : List (Handle × Node α)} {e : Edit (Tree α) α}

/-- An edit inside the nodes that twins have in common is answered alike by both. -/
theorem Twins.concur (twins : Twins t q rest u q' rest' f σ) (inRange : t.policy.InRange)
    (within : e.Within f) :
    twins.Concur (· ∈ e.copied) (t.perform e) (u.perform (e.rename σ)) := by
  have child : ∀ {h}, (∃ s ∈ f.nodes, h ∈ s.below.roots) →
      ∃ s ∈ f.nodes, ∃ (i : Nat) (c : Sprig α), s.below.sprigs[i]? = some c ∧ c.handle = h := by
    rintro h ⟨s, mem, listed⟩
    obtain ⟨c, under, rfl⟩ := List.mem_map.mp listed
    obtain ⟨i, place⟩ := List.mem_iff_getElem?.mp under
    exact ⟨s, mem, i, c, place, rfl⟩
  cases e with
  | setRoot | clear | sortBy => exact within.elim
  | insert h x =>
    obtain ⟨s, mem, rfl⟩ := List.mem_map.mp within
    exact twins.concur_insert mem x
  | eraseChildren h =>
    obtain ⟨s, mem, rfl⟩ := List.mem_map.mp within
    exact twins.concur_eraseChildren mem
  | sortChildrenBy h cmp =>
    obtain ⟨s, mem, rfl⟩ := List.mem_map.mp within
    exact twins.concur_sortChildrenBy mem cmp
  | sortChildren h =>
    obtain ⟨s, mem, rfl⟩ := List.mem_map.mp within
    exact twins.concur_sortChildrenBy mem compare
  | replaceValue h x =>
    obtain ⟨s, mem, i, c, place, rfl⟩ := child within
    exact twins.concur_replaceValue inRange mem place x
  | erase h =>
    obtain ⟨s, mem, i, c, place, rfl⟩ := child within
    exact twins.concur_erase mem place
  | replaceWithSubtree h source k =>
    obtain ⟨s, mem, i, c, place, rfl⟩ := child within
    exact twins.concur_replaceWithSubtree inRange mem place source k
  | replaceSubtree h source =>
    obtain ⟨s, mem, i, c, place, rfl⟩ := child within
    rw [Edit.rename, Tree.perform, Tree.perform, replaceSubtree, replaceSubtree]
    cases root : source.root with
    | none => exact twins.concur_refused .emptySource
    | some r =>
      rw [Edit.copied_replaceSubtree _ root]
      exact twins.concur_replaceWithSubtree inRange mem place source r

end Tree

end PolicyTree
