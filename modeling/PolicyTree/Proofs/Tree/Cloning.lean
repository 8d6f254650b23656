import Mathlib.Data.List.Permutation
import PolicyTree.Proofs.Names
import PolicyTree.Proofs.Tree.Extraction
import PolicyTree.Proofs.Tree.Validity
import PolicyTree.Tree.Listing

/-! Clones: the same policy places every sibling list again, in an arena with another name. -/

namespace PolicyTree

open Forest

variable {α : Type}

namespace Tree

variable {t : Tree α} {f : Forest α} {q : Option Handle} {rest : List (Handle × Node α)}
  {s : Sprig α} {policy : Policy α} {order : List Handle → Option (List Handle)} {owners : Owners}

/-! ## Outcomes -/

theorem copies_empty {u : Tree α} (noRoot : t.root = none) (empty : ∀ h, ¬t.contains h = true)
    (noRoot' : u.root = none) (empty' : ∀ h, ¬u.contains h = true)
    (order : List Handle → Option (List Handle)) :
    u.Copies t {h | t.contains h = true} t.root order id where
  root_eq := by rw [noRoot, noRoot']; rfl
  bijOn := ⟨fun h live => absurd live (empty h), fun h live => absurd live (empty h),
    fun h live => absurd live (empty' h)⟩
  node?_eq h live := absurd live (empty h)

/-- A clone is empty, or has become a copy of all below the root. -/
theorem Shows.clone_cases (shows : t.Shows f) (owners : Owners) :
    (t.root = none ∧ f = nil ∧ (t.clone owners).1 = (withCapacity t.policy t.len owners).1) ∨
      ∃ k, t.root = some k.handle ∧ f = ofSprigs [k] ∧ t.get? k.handle = some k.value ∧
        (t.clone owners).1 =
          ((withCapacity t.policy t.len owners).1.becomeCopy t k.handle k.value).tree := by
  rcases shows.sprigs_eq with ⟨noRoot, rfl⟩ | ⟨k, root, rfl⟩
  · refine .inl ⟨noRoot, rfl, ?_⟩
    rw [clone, noRoot]
    rfl
  · have valued := shows.stores.get?_eq (mem_nodes_single k)
    refine .inr ⟨k, root, rfl, valued, ?_⟩
    rw [clone, root]
    dsimp only
    rw [Option.bind_some, valued]
    rfl

/-- A clone that is never refused a child copies every node, with siblings in the order in which the
policy arranges them. Where it leaves all as they are, the clone is listed as the tree is. -/
theorem Shows.clone_copies (shows : t.Shows f)
    (follows : ∀ s ∈ f.nodes, Follows order t.policy s) (owners : Owners) :
    ∃ partner, (t.clone owners).1.Copies t {h | t.contains h = true} t.root order partner ∧
      ((∀ s ∈ f.nodes, t.policy.arrange Sprig.value s.below.sprigs = some s.below.sprigs) →
        (t.clone owners).1.preOrder = t.preOrder.map (·.rename partner)) := by
  have whole : {h | t.contains h = true} = {h | h ∈ f.handles} :=
    Set.ext fun _ => shows.contains_iff
  rcases shows.clone_cases owners with ⟨noRoot, rfl, made⟩ | ⟨k, root, rfl, -, made⟩
  · have blank := shows_withCapacity t.policy t.len owners
    rw [made]
    refine ⟨id, copies_empty noRoot (fun h live => ?_) rfl (fun h live => ?_) order, fun _ => ?_⟩
    · exact absurd (shows.contains_iff.mp live) List.not_mem_nil
    · exact absurd (blank.contains_iff.mp live) List.not_mem_nil
    · rw [shows.preOrder_eq, blank.preOrder_eq]
      rfl
  · have mem := mem_nodes_single k
    rw [nodes_single] at follows
    rw [made, whole, handles_single, root]
    rcases becomeCopy_cases shows.stores mem (withCapacity t.policy t.len owners).1 with
      ⟨c, first, -⟩ | ⟨-, n, partner, -, shown⟩
    · exact absurd first (Follows.not_first_clash follows)
    · refine ⟨partner, shows.copies mem shown follows, fun settled => ?_⟩
      rw [nodes_single] at settled
      rw [shown.preOrder_replica settled, shows.preOrder_eq]

/-! ## What else is true of a clone -/

@[simp] theorem policy_clone (t : Tree α) (owners : Owners) :
    (t.clone owners).1.policy = t.policy := by
  unfold clone
  dsimp only
  split
  · rfl
  · exact policy_becomeCopy ..

/-- New nodes are stored in new slots while no slot is free. -/
theorem keptByBuilding_full : KeptByBuilding fun t : Tree α => t.arena.free = [] where
  allocate full _ := by
    unfold Arena.allocate
    rw [full]
  updateNode full h f := by
    unfold updateNode Arena.modify
    split <;> exact full

theorem freeCount_clone (t : Tree α) (owners : Owners) :
    (t.clone owners).1.arena.freeCount = 0 := by
  apply List.length_eq_zero_iff.mpr
  unfold clone
  dsimp only
  split
  · rfl
  · exact keptByBuilding_full.copyBelow rfl t _ _

theorem Shows.length_preOrder (shows : t.Shows f) : t.preOrder.length = t.len := by
  rw [shows.preOrder_eq, length_visits, shows.len_eq]

theorem beq_self_iff [BEq α] {xs : List α} :
    (xs == xs) = true ↔ ∀ x ∈ xs, (x == x) = true := by
  induction xs with
  | nil => exact iff_of_true rfl (List.forall_mem_nil _)
  | cons x xs ih => rw [List.cons_beq_cons, Bool.and_eq_true, ih, List.forall_mem_cons]

/-- Trees with the same listing up to handles are equal just if the values are equal to
themselves. -/
theorem Shows.beq_iff_of_preOrder [BEq α] {u : Tree α} {g : Forest α} (shows : t.Shows f)
    (shown : u.Shows g) {partner : Handle → Handle}
    (listed : u.preOrder = t.preOrder.map (·.rename partner)) :
    (u == t) = true ↔ ∀ x ∈ t.values, (x == x) = true := by
  have values : u.values = t.values := by
    rw [Tree.values, listed, map_value_rename]
    rfl
  have len : u.len = t.len := by
    rw [← shown.length_preOrder, listed, List.length_map, shows.length_preOrder]
  have parts : (u == t) = (u.len == t.len && u.values == t.values) := rfl
  rw [parts, values, len, beq_self_eq_true, Bool.true_and, beq_self_iff]

/-- A built-in policy leaves the sibling lists that it made as they are. -/
theorem arrange_of_builtIn (builtIn : t.policy.BuiltIn)
    (ordered : ∀ cmp, t.policy.SortsBy cmp → f.Ordered cmp) (mem : s ∈ f.nodes) :
    t.policy.arrange Sprig.value s.below.sprigs = some s.below.sprigs := by
  cases keyed : t.policy.keyed with
  | false => exact Policy.arrange_of_append (builtIn.place_eq_append keyed) _
  | true =>
    obtain ⟨cmp, sorting⟩ := builtIn.exists_keyed keyed
    exact Policy.arrange_of_ascending sorting.sortsBy (ordered cmp sorting.sortsBy s mem)

end Tree

/-! ## Runs -/

namespace Session

variable {t : Tree α} {requests : List (Request α)}

theorem reachable_clone (mem : t ∈ (run requests).trees) :
    (t.clone (run requests).owners).1.Reachable := by
  obtain ⟨i, place⟩ := List.mem_iff_getElem?.mp mem
  refine ⟨requests ++ [.clone i], ?_⟩
  rw [run_concat, step, place]
  exact List.mem_append_right _ (List.mem_singleton_self _)

/-- The next name is of no arena made so far, so a clone shares no live handle. -/
theorem not_contains_clone (mem : t ∈ (run requests).trees) (few : arenasMade requests < 2 ^ 32)
    (h : Handle) :
    ¬(t.contains h = true ∧ (t.clone (run requests).owners).1.contains h = true) := by
  rintro ⟨live, copied⟩
  apply (named_run requests).next_ne few mem
  rw [← Arena.owner_of_contains live, Arena.owner_of_contains copied, Tree.owner_clone]

/-- Under a built-in policy a clone is a copy of the whole tree with siblings in the same order at
every level, and it is equal to the tree just if all values are equal to themselves. It passes the
check, has no free slot, and shares no live handle with the tree as long as arena names last. -/
theorem clone_faithful (mem : t ∈ (run requests).trees) (builtIn : t.policy.BuiltIn)
    {copy : Tree α} (copied : (t.clone (run requests).owners).1 = copy) :
    (∃ partner, copy.Copies t {h | t.contains h = true} t.root some partner ∧
        copy.preOrder = t.preOrder.map (·.rename partner)) ∧
      copy.values = t.values ∧
      (∀ [BEq α], (copy == t) = true ↔ ∀ x ∈ t.values, (x == x) = true) ∧
      copy.check = .ok () ∧ copy.arena.freeCount = 0 ∧
      (arenasMade requests < 2 ^ 32 → ∀ h, ¬(t.contains h = true ∧ copy.contains h = true)) := by
  subst copied
  have reached : t.Reachable := ⟨requests, mem⟩
  obtain ⟨f, shows, ordered⟩ := reached.exists_forest builtIn.inRange
  have copyBuiltIn : (t.clone (run requests).owners).1.policy.BuiltIn := by rwa [Tree.policy_clone]
  obtain ⟨g, shown, sorted⟩ := (reachable_clone mem).exists_forest copyBuiltIn.inRange
  have settled := fun (s : Sprig α) (inside : s ∈ f.nodes) =>
    Tree.arrange_of_builtIn builtIn ordered inside
  obtain ⟨partner, copies, listed⟩ := shows.clone_copies
    (fun s inside => Tree.follows_some (settled s inside)) (run requests).owners
  refine ⟨⟨partner, copies, listed settled⟩, ?_, ?_, ?_, t.freeCount_clone _,
    not_contains_clone mem⟩
  · rw [Tree.values, listed settled, Tree.map_value_rename]
    rfl
  · exact shows.beq_iff_of_preOrder shown (listed settled)
  · exact shown.check_eq_ok fun h n live => shown.siblingFault_eq_none copyBuiltIn sorted live

/-- Below the child 7 of the root stand 13 and 9, which are then sorted. -/
def sortedRun : List (Request Nat) :=
  [.withRoot 5 .insertionOrder, .edit 0 (.insert ⟨1, 0, 0⟩ 7), .edit 0 (.insert ⟨1, 0, 0⟩ 2),
    .edit 0 (.insert ⟨1, 1, 0⟩ 13), .edit 0 (.insert ⟨1, 1, 0⟩ 9),
    .edit 0 (.sortChildren ⟨1, 1, 0⟩)]

theorem clone_faithful_sample :
    ∃ t ∈ (run sortedRun).trees, t.policy.BuiltIn ∧ t.values = [5, 7, 9, 13, 2] ∧
      (t.clone (run sortedRun).owners).1.values = [5, 7, 9, 13, 2] ∧
      ((t.clone (run sortedRun).owners).1 == t) = true ∧
      (t.clone (run sortedRun).owners).1.check = .ok () ∧
      ∀ h, ¬(t.contains h = true ∧ (t.clone (run sortedRun).owners).1.contains h = true) := by
  have mem : ((Tree.sampleDeep .insertionOrder).sortChildren ⟨1, 1, 0⟩).tree ∈
      (run sortedRun).trees := List.mem_singleton.mpr rfl
  have policy : ((Tree.sampleDeep .insertionOrder).sortChildren ⟨1, 1, 0⟩).tree.policy =
      .insertionOrder :=
    (Tree.policy_perform _ (.sortChildren ⟨1, 1, 0⟩)).trans (Tree.policy_sampleDeep _)
  have builtIn : ((Tree.sampleDeep .insertionOrder).sortChildren
      ⟨1, 1, 0⟩).tree.policy.BuiltIn := by
    rw [policy]
    exact .insertionOrder
  have values : ((Tree.sampleDeep .insertionOrder).sortChildren ⟨1, 1, 0⟩).tree.values =
      [5, 7, 9, 13, 2] := by cbv
  obtain ⟨-, same, equal, passed, -, apart⟩ := clone_faithful mem builtIn rfl
  have few : arenasMade sortedRun < 2 ^ 32 := by decide +kernel
  exact ⟨_, mem, builtIn, values, same.trans values, equal.mpr fun x _ => beq_self_eq_true x,
    passed, apart few⟩

/-- A number, or a failure to read one, which is equal to nothing: `NaN` among numbers. -/
inductive Reading where
  | number (n : Nat)
  | failed

instance : BEq Reading where
  beq
    | .number m, .number n => m == n
    | _, _ => false

/-- A root with a number, and a child without one. -/
def gappedRun : List (Request Reading) :=
  [.withRoot (.number 5) .insertionOrder, .edit 0 (.insert ⟨1, 0, 0⟩ .failed)]

/-- The clone has the same values, one of which is not equal to itself. -/
theorem clone_unequal :
    ∃ t ∈ (run gappedRun).trees, t.policy.BuiltIn ∧ t.values = [.number 5, .failed] ∧
      (t.clone (run gappedRun).owners).1.values = [.number 5, .failed] ∧
      ((t.clone (run gappedRun).owners).1 == t) = false := by
  have mem : ((Tree.withRoot (.number 5) .insertionOrder .start).1.insert ⟨1, 0, 0⟩ .failed).tree ∈
      (run gappedRun).trees := List.mem_singleton.mpr rfl
  refine ⟨_, mem, ?_, by cbv, by cbv, by decide +kernel⟩
  rw [Tree.policy_insert]
  exact .insertionOrder

end Session

/-! ## Any policy -/

/-- Places every value before its siblings. -/
def Policy.newestFirst : Policy Nat where
  name := "NewestFirst"
  keyed := false
  place _ _ := .before 0
  agrees := (· == ·)
  descend _ _ := .scan

namespace Tree

variable {t : Tree α} {f : Forest α} {q : Option Handle} {rest : List (Handle × Node α)}
  {s : Sprig α} {policy : Policy α}

/-- The handles as the policy arranges them if it places their values in this order; nothing if one
is not live or is refused. -/
def rearranged (t : Tree α) (policy : Policy α) (hs : List Handle) : Option (List Handle) := do
  let entries ← hs.mapM fun h => (t.get? h).map fun x => (x, h)
  (policy.arrange Prod.fst entries).map (List.map Prod.snd)

theorem Stores.rearranged_map (stores : t.Stores q f rest) {ss : List (Sprig α)}
    (inside : ∀ c ∈ ss, c ∈ f.nodes) (policy : Policy α) :
    t.rearranged policy (ss.map Sprig.handle) =
      (policy.arrange Sprig.value ss).map (List.map Sprig.handle) := by
  have entries : t.rearranged policy (ss.map Sprig.handle) =
      (policy.arrange Prod.fst (ss.map fun c => (c.value, c.handle))).map (List.map Prod.snd) := by
    rw [rearranged, stores.mapM_entries inside]
    rfl
  rw [entries, Policy.arrange_map, Option.map_map]
  congr 1
  funext out
  rw [Function.comp_apply, List.map_map]
  rfl

theorem Stores.rearranged_roots (stores : t.Stores q f rest) (mem : s ∈ f.nodes)
    (policy : Policy α) : t.rearranged policy s.below.roots =
      (policy.arrange Sprig.value s.below.sprigs).map (List.map Sprig.handle) :=
  stores.rearranged_map (fun _ child => mem_nodes_of_child mem child) policy

theorem Stores.follows_rearranged (stores : t.Stores q f rest) (mem : s ∈ f.nodes)
    (free : s.clashes policy = false) : Follows (t.rearranged policy) policy s := by
  obtain ⟨out, arranged⟩ := Sprig.exists_arrangement free
  refine ⟨out, arranged, ?_⟩
  rw [stores.rearranged_roots mem, arranged]
  rfl

/-- Under a policy that never refuses a child, a clone copies every node and rearranges every
sibling list. The siblings keep their order if the policy would place each list as it stands. -/
theorem Reachable.clone_rearranges (reached : t.Reachable) (inRange : t.policy.InRange)
    (admits : ∀ siblings x i, t.policy.place siblings x ≠ .taken i) (owners : Owners) :
    (∃ partner, (t.clone owners).1.Copies t {h | t.contains h = true} t.root
        (t.rearranged t.policy) partner) ∧
      ((∀ h n, t.node? h = some n → t.rearranged t.policy n.children = some n.children) →
        ∃ partner, (t.clone owners).1.Copies t {h | t.contains h = true} t.root some partner) := by
  obtain ⟨f, shows, -⟩ := reached.exists_forest inRange
  have arranges := fun (s : Sprig α) =>
    Policy.exists_arrange_of_admits admits Sprig.value s.below.sprigs
  constructor
  · have follows : ∀ s ∈ f.nodes, Follows (t.rearranged t.policy) t.policy s := by
      intro s mem
      obtain ⟨out, arranged⟩ := arranges s
      apply shows.stores.follows_rearranged mem
      rw [Sprig.clashes, arranged]
      rfl
    obtain ⟨partner, copies, -⟩ := shows.clone_copies follows owners
    exact ⟨partner, copies⟩
  · intro same
    have follows : ∀ s ∈ f.nodes, Follows some t.policy s := by
      intro s mem
      obtain ⟨out, arranged⟩ := arranges s
      obtain ⟨p, stored⟩ := shows.stores.exists_node? mem
      have kept := same s.handle _ stored
      rw [shows.stores.rearranged_roots mem, arranged] at kept
      exact ⟨out, arranged, kept.symm⟩
    obtain ⟨partner, copies, -⟩ := shows.clone_copies follows owners
    exact ⟨partner, copies⟩

theorem newestFirst_sample :
    (Tree.sample .newestFirst).policy.InRange ∧
      ∀ siblings x i, (Tree.sample .newestFirst).policy.place siblings x ≠ .taken i := by
  rw [policy_sample]
  exact ⟨nofun, nofun⟩

theorem clone_rearranges_sample :
    (Tree.sample .newestFirst).rearranged .newestFirst [⟨1, 2, 0⟩, ⟨1, 1, 0⟩] =
        some [⟨1, 1, 0⟩, ⟨1, 2, 0⟩] ∧
      ∃ partner, ((Tree.sample .newestFirst).clone ⟨2⟩).1.Copies (Tree.sample .newestFirst)
        {h | (Tree.sample .newestFirst).contains h = true} (Tree.sample .newestFirst).root
        ((Tree.sample .newestFirst).rearranged (Tree.sample .newestFirst).policy) partner := by
  obtain ⟨inRange, admits⟩ := newestFirst_sample
  have spec := (reachable_sample .newestFirst).clone_rearranges inRange admits ⟨2⟩
  exact ⟨by decide +kernel, spec.1⟩

/-- The children 2 and 7 stand last inserted first, and are inserted again in that order. -/
theorem clone_reverses :
    (Tree.sample .newestFirst).Reachable ∧ (Tree.sample .newestFirst).policy.InRange ∧
      (∀ siblings x i, (Tree.sample .newestFirst).policy.place siblings x ≠ .taken i) ∧
      (Tree.sample .newestFirst).values = [5, 2, 7] ∧
      ((Tree.sample .newestFirst).clone ⟨2⟩).1.values = [5, 7, 2] ∧
      (((Tree.sample .newestFirst).clone ⟨2⟩).1 == Tree.sample .newestFirst) = false := by
  exact ⟨reachable_sample _, newestFirst_sample.1, newestFirst_sample.2, by decide +kernel,
    by decide +kernel, by decide +kernel⟩

end Tree

end PolicyTree
