import Mathlib.Data.List.Flatten
import PolicyTree.Proofs.Tree.Traversal

/-! A search works off a stack of nodes, and finds what a recursion over the stored forest finds. -/

namespace PolicyTree

variable {α : Type} (policy : Policy α) (target : α)

/-! ## Recursion over a forest -/

namespace Forest

/-- What a search among the given siblings comes to, when it comes to `below` under each of them. It
ends with an answer, or goes on elsewhere. -/
def judge (b : Forest α) (below : List (Option (Option Handle))) : Option (Option Handle) :=
  match policy.descend b.rootValues target with
  | .found i => some b.roots[i]?
  | .into i => below[i]?.join
  | .miss => none
  | .each => below.findSome? id
  | .scan => (b.nodes.find? (policy.agrees ·.value target)).map fun s => some s.handle

/-- What the search comes to under each sibling. -/
def verdictsBelow : Forest α → List (Option (Option Handle))
  | nil => []
  | cons _ _ below later =>
    below.judge policy target below.verdictsBelow :: later.verdictsBelow

def verdict (b : Forest α) : Option (Option Handle) :=
  b.judge policy target (b.verdictsBelow policy target)

theorem verdictsBelow_eq (b : Forest α) :
    b.verdictsBelow policy target = b.sprigs.map (·.below.verdict policy target) := by
  induction b with
  | nil => rfl
  | cons h x below later _ ih => simp [verdictsBelow, verdict, ih]

end Forest

/-! ## The stack -/

namespace Tree

open Forest

variable {policy target} {t : Tree α} {f : Forest α} {q : Option Handle}
  {rest : List (Handle × Node α)} {s : Sprig α}

/-- Below a stored node a scan meets the first match in pre-order. -/
theorem Stores.scanBelow_eq (stores : t.Stores q f rest) (mem : s ∈ f.nodes) (target : α) :
    t.scanBelow target s.handle =
      .ok ((s.below.nodes.find? (t.policy.agrees ·.value target)).map Sprig.handle) := by
  obtain ⟨p, stored⟩ := stores.exists_node? mem
  have listed := stores.visits_from mem (stores.length_handles_le mem)
  rw [scanBelow, preOrderFrom, walkFrom, node, stored]
  simp only [Except.map, listed]
  simpa [ofSprigs, visits] using find?_visits s.below 1 (t.policy.agrees · target)

/-- One round below a stored node ends the search with the verdict there, or goes on below some of
the children, whose first verdict it is. -/
theorem Stores.searchRound_cases (stores : t.Stores q f rest) (mem : s ∈ f.nodes) (target : α)
    (pending : List Handle) :
    (∃ answer, t.searchRound target s.handle pending = .ended answer ∧
        s.below.verdict t.policy target = some answer) ∨
      ∃ cs : List (Sprig α), cs.Sublist s.below.sprigs ∧
        t.searchRound target s.handle pending = .going (cs.map Sprig.handle ++ pending) ∧
        s.below.verdict t.policy target = cs.findSome? (·.below.verdict t.policy target) := by
  rw [searchRound, stores.childrenAt_eq mem, stores.valuesAt_roots mem, verdict, judge,
    verdictsBelow_eq]
  cases t.policy.descend s.below.rootValues target with
  | found i => exact .inl ⟨_, rfl, rfl⟩
  | into i =>
    dsimp only
    rw [getElem?_roots, List.getElem?_map]
    cases child : s.below.sprigs[i]? with
    | none => exact .inr ⟨[], List.nil_sublist _, rfl, rfl⟩
    | some c =>
      refine .inr ⟨[c], List.singleton_sublist.mpr (List.mem_of_getElem? child), rfl, ?_⟩
      rw [List.findSome?_singleton]
      rfl
  | miss => exact .inr ⟨[], List.nil_sublist _, rfl, rfl⟩
  | each =>
    refine .inr ⟨s.below.sprigs, List.Sublist.refl _, rfl, ?_⟩
    rw [List.findSome?_map]
    rfl
  | scan =>
    dsimp only
    rw [stores.scanBelow_eq mem]
    cases s.below.nodes.find? (t.policy.agrees ·.value target) with
    | none => exact .inr ⟨[], List.nil_sublist _, rfl, rfl⟩
    | some k => exact .inl ⟨_, rfl, rfl⟩

/-- The rounds of a search below the pending nodes, as many as it takes: `asked` are the nodes about
whose children the policy is asked, one in each round. -/
inductive Hunts (t : Tree α) (target : α) : List Handle → List Handle → Option Handle → Prop where
  | spent : Hunts t target [] [] none
  | ended {h : Handle} {pending : List Handle} {answer : Option Handle}
      (round : t.searchRound target h pending = .ended answer) :
      Hunts t target (h :: pending) [h] answer
  | going {h : Handle} {pending next asked : List Handle} {answer : Option Handle}
      (round : t.searchRound target h pending = .going next)
      (onward : Hunts t target next asked answer) : Hunts t target (h :: pending) (h :: asked) answer

/-- A bound on the rounds that is not reached changes nothing. -/
theorem Hunts.search_eq {pending asked : List Handle} {answer : Option Handle}
    (hunts : t.Hunts target pending asked answer) {bound : Nat} (enough : asked.length ≤ bound) :
    t.search target bound pending = answer := by
  induction hunts generalizing bound with
  | spent => cases bound <;> rfl
  | ended round =>
    cases bound with
    | zero => simp at enough
    | succ bound => rw [search, round]
  | going round _ ih =>
    cases bound with
    | zero => simp at enough
    | succ bound =>
      rw [search, round]
      exact ih (Nat.le_of_succ_le_succ enough)

/-- A search below the pending nodes ends, with the first verdict that ends it, and asks about none
of the nodes more often than they are listed. -/
theorem Stores.hunts (stores : t.Stores q f rest) (target : α) (pending : List (Sprig α))
    (inside : ∀ s ∈ pending, s ∈ f.nodes) :
    ∃ asked : List Handle, asked.Sublist (pending.flatMap Sprig.handles) ∧
      t.Hunts target (pending.map Sprig.handle) asked
        (pending.findSome? (·.below.verdict t.policy target)).join := by
  -- A round takes one node away for good from those at and below the pending ones.
  generalize count : (pending.flatMap Sprig.handles).length = m
  induction m using Nat.strongRecOn generalizing pending with
  | _ m ih =>
    cases pending with
    | nil => exact ⟨[], List.nil_sublist _, .spent⟩
    | cons s pending =>
      have here := inside s (List.mem_cons_self ..)
      have listed : (s :: pending).flatMap Sprig.handles =
          s.handle :: (s.below.sprigs ++ pending).flatMap Sprig.handles := by
        rw [List.flatMap_append, ← handles_eq_flatMap]
        rfl
      rw [listed] at count ⊢
      rw [List.map_cons, List.findSome?_cons]
      rcases stores.searchRound_cases here target (pending.map Sprig.handle) with
        ⟨answer, round, ended⟩ | ⟨cs, among, round, goesOn⟩
      · rw [ended]
        exact ⟨[s.handle], (List.nil_sublist _).cons_cons _, .ended round⟩
      · have fewer : ((cs ++ pending).flatMap Sprig.handles).Sublist
            ((s.below.sprigs ++ pending).flatMap Sprig.handles) :=
          (among.append_right pending).flatMap Sprig.handles
        have stillInside : ∀ c ∈ cs ++ pending, c ∈ f.nodes := by
          intro c mem
          rcases List.mem_append.mp mem with child | later
          · exact mem_nodes_of_child here (among.subset child)
          · exact inside c (List.mem_cons_of_mem _ later)
        have less : ((cs ++ pending).flatMap Sprig.handles).length < m := by
          rw [← count, List.length_cons]
          exact Nat.lt_succ_of_le fewer.length_le
        obtain ⟨asked, sublist, onward⟩ := ih _ less (cs ++ pending) stillInside rfl
        refine ⟨s.handle :: asked, (sublist.trans fewer).cons_cons _, .going round ?_⟩
        rw [← List.map_append]
        rw [List.findSome?_append] at onward
        rw [goesOn]
        cases first : cs.findSome? (·.below.verdict t.policy target) with
        | none => rwa [first] at onward
        | some answer => rwa [first] at onward

/-- Below a stored node every node is asked about once at most, and there are rounds enough. -/
theorem Stores.hunts_below (stores : t.Stores q f rest) (mem : s ∈ f.nodes) (target : α) :
    ∃ asked : List Handle, asked.Nodup ∧
      t.Hunts target [s.handle] asked (s.below.verdict t.policy target).join ∧
      t.search target t.len [s.handle] = (s.below.verdict t.policy target).join := by
  obtain ⟨asked, sublist, hunts⟩ := stores.hunts target [s] fun c inside => by
    rwa [List.mem_singleton.mp inside]
  rw [List.flatMap_singleton] at sublist
  rw [List.map_singleton, List.findSome?_singleton] at hunts
  have distinct := stores.nodup.sublist (handles_sublist mem)
  exact ⟨asked, distinct.sublist sublist, hunts,
    hunts.search_eq (Nat.le_trans sublist.length_le (stores.length_handles_le mem))⟩

/-- A lookup answers with the root if it matches, and else with the verdict below it. -/
theorem Stores.find_eq (stores : t.Stores none (ofSprigs [s]) rest) (root : t.root = some s.handle)
    (target : α) :
    t.find target = if t.policy.agrees s.value target then some s.handle
      else (s.below.verdict t.policy target).join := by
  have stored := stores.node?_of_mem_sprigs (s := s) (by simp)
  obtain ⟨asked, -, -, searched⟩ := stores.hunts_below (mem_nodes_single s) target
  simp [find, root, stored, searched]

theorem Shows.find_eq (shows : t.Shows f) (target : α) :
    t.find target = (f.sprigs.head?).bind fun s =>
      if t.policy.agrees s.value target then some s.handle
      else (s.below.verdict t.policy target).join := by
  rcases shows.sprigs_eq with ⟨noRoot, rfl⟩ | ⟨s, isRoot, rfl⟩
  · simp [find, noRoot]
  · rw [shows.stores.find_eq isRoot, sprigs_ofSprigs]
    rfl

end Tree

end PolicyTree
