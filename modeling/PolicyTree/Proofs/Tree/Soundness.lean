import PolicyTree.Proofs.Tree.Edits
import PolicyTree.Proofs.Tree.Traversal

/-!
Every reachable tree is one rooted tree, and built-in keyed policies keep its siblings in order.
-/

namespace PolicyTree.Tree

open Forest

variable {α : Type} {t : Tree α} {f : Forest α} {q : Option Handle} {rest : List (Handle × Node α)}
  {s : Sprig α}

/-! ## Links -/

/-- `c` stands in the child list of `p`. -/
def Lists (t : Tree α) (p c : Handle) : Prop := ∃ n, t.node? p = some n ∧ c ∈ n.children

/-- The stored links make one tree: nothing is stored without a root, parents and child lists agree,
and child lists lead from the root to every node. -/
structure Rooted (t : Tree α) : Prop where
  vacant : t.root = none → ∀ s ∈ t.arena.slots, s.occupied = false
  parentless : ∀ r, t.root = some r → ∃ n, t.node? r = some n ∧ n.parent = none
  listed_once : ∀ h n, t.node? h = some n → t.root ≠ some h →
    ∃ p m, n.parent = some p ∧ t.node? p = some m ∧ m.children.count h = 1
  points_back : ∀ p c, t.Lists p c → ∃ n, t.node? c = some n ∧ n.parent = some p
  reached : ∀ r h, t.root = some r → t.contains h = true → Relation.ReflTransGen t.Lists r h

theorem Rooted.ne_root_of_lists (rooted : t.Rooted) {p c : Handle} (link : t.Lists p c) :
    t.root ≠ some c := by
  intro root
  obtain ⟨n, stored, parent⟩ := rooted.points_back p c link
  obtain ⟨m, stored', top⟩ := rooted.parentless c root
  rw [stored] at stored'
  cases stored'
  rw [parent] at top
  cases top

theorem Stores.lists_child (stores : t.Stores q f rest) (mem : s ∈ f.nodes) {c : Sprig α}
    (child : c ∈ s.below.sprigs) : t.Lists s.handle c.handle := by
  obtain ⟨p, stored⟩ := stores.exists_node? mem
  exact ⟨_, stored, List.mem_map.mpr ⟨c, child, rfl⟩⟩

theorem Shows.mem_of_lists (shows : t.Shows f) {p c : Handle} (link : t.Lists p c) :
    p ∈ t.handles ∧ c ∈ t.childrenAt p := by
  obtain ⟨n, live, child⟩ := link
  rw [shows.handles_eq, childrenAt, live]
  exact ⟨shows.contains_iff.mp (Arena.contains_iff.mpr ⟨n, live⟩), child⟩

/-- Child lists lead from a node to all that stands below it. -/
theorem Stores.reaches_below (stores : t.Stores q f rest) (mem : s ∈ f.nodes) {k : Sprig α}
    (under : k ∈ s.below.nodes) : Relation.TransGen t.Lists s.handle k.handle := by
  have listed : ∀ c ∈ s.below.sprigs, c ∈ f.nodes ∧ t.Lists s.handle c.handle := by
    intro c child
    exact ⟨mem_nodes_of_child mem child, stores.lists_child mem child⟩
  generalize s.handle = p at listed ⊢
  generalize s.below = b at under listed
  induction b generalizing p with
  | nil => simp at under
  | cons h x below later ihBelow ihLater =>
    simp only [nodes, List.mem_cons, List.mem_append] at under
    obtain ⟨here, link⟩ := listed ⟨h, x, below⟩ (List.mem_cons_self ..)
    rcases under with rfl | under | under
    · exact .single link
    · apply Relation.TransGen.head link
      apply ihBelow h under
      intro c child
      exact ⟨mem_nodes_of_child here child, stores.lists_child here child⟩
    · exact ihLater p under fun c child => listed c (List.mem_cons_of_mem _ child)

theorem Stores.reaches (stores : t.Stores q f rest) (mem : s ∈ f.nodes) {k : Sprig α}
    (inside : k ∈ s.nodes) : Relation.ReflTransGen t.Lists s.handle k.handle := by
  rcases List.mem_cons.mp inside with rfl | under
  · exact .refl
  · exact (stores.reaches_below mem under).to_reflTransGen

theorem Shows.rooted (shows : t.Shows f) : t.Rooted where
  vacant noRoot s mem := by
    rcases shows.sprigs_eq with ⟨-, rfl⟩ | ⟨s, isRoot, -⟩
    · exact shows.holds.not_occupied mem
    · rw [noRoot] at isRoot
      cases isRoot
  parentless r root := by
    obtain ⟨s, rfl, rfl⟩ := shows.eq_single root
    exact ⟨_, shows.stores.node?_of_mem_sprigs (by simp), rfl⟩
  listed_once h n live other := by
    obtain ⟨k, here, rfl, -⟩ := shows.exists_node live
    rcases shows.root_or_child (mem_handles here) with root | ⟨s, mem, i, c, child, e⟩
    · exact absurd root other
    · have listed := List.mem_of_getElem? child
      have stored := shows.stores.node?_of_child mem listed
      obtain ⟨p, above⟩ := shows.stores.exists_node? mem
      rw [e, live] at stored
      obtain rfl := Option.some.inj stored
      refine ⟨s.handle, _, rfl, above, ?_⟩
      apply List.count_eq_one_of_mem (nodup_roots_below shows.nodup mem)
      exact List.mem_map.mpr ⟨c, listed, e⟩
  points_back p c := by
    rintro ⟨n, live, listed⟩
    obtain ⟨s, mem, rfl, -, children⟩ := shows.exists_node live
    rw [← children] at listed
    obtain ⟨k, child, rfl⟩ := List.mem_map.mp listed
    exact ⟨_, shows.stores.node?_of_child mem child, rfl⟩
  reached r h root live := by
    obtain ⟨s, rfl, rfl⟩ := shows.eq_single root
    obtain ⟨k, mem, rfl⟩ := List.mem_map.mp (shows.contains_iff.mp live)
    rw [nodes_single] at mem
    exact shows.stores.reaches (mem_nodes_single s) mem

theorem Shows.isEmpty_iff (shows : t.Shows f) : t.isEmpty = true ↔ t.len = 0 := by
  rw [shows.len_eq]
  rcases shows.sprigs_eq with ⟨noRoot, rfl⟩ | ⟨s, isRoot, rfl⟩
  · simp [isEmpty, noRoot]
  · simp [isEmpty, isRoot, ofSprigs]

/-! ## Reachable trees -/

/-- Under a built-in policy, or any that keeps in range, every reachable tree is one rooted tree. A
traversal lists as many nodes as are stored, and stops there by itself. -/
theorem Reachable.one_rooted_tree (reached : t.Reachable)
    (allowed : t.policy.BuiltIn ∨ t.policy.InRange) :
    t.Rooted ∧ t.preOrder.length = t.len ∧
      (∀ bound, t.len ≤ bound → t.walk.visits bound = t.preOrder) ∧
      (t.isEmpty = true ↔ t.len = 0) := by
  have inRange := allowed.elim Policy.BuiltIn.inRange id
  obtain ⟨f, shows, -⟩ := reached.exists_forest inRange
  refine ⟨shows.rooted, ?_, fun bound enough => ?_, shows.isEmpty_iff⟩
  · rw [shows.preOrder_eq, length_visits, shows.len_eq]
  · rw [shows.visits_walk enough, shows.preOrder_eq]

theorem one_rooted_tree_sample :
    (Tree.sample .naturalOrder).len = 3 ∧ (Tree.sample .naturalOrder).Rooted ∧
      (Tree.sample .naturalOrder).preOrder.length = 3 := by
  have builtIn : (Tree.sample .naturalOrder).policy.BuiltIn := by
    rw [policy_sample]
    exact .keyed (.searching .naturalOrder)
  have sound := (reachable_sample .naturalOrder).one_rooted_tree (.inl builtIn)
  have counted : (Tree.sample .naturalOrder).len = 3 := by decide +kernel
  exact ⟨counted, sound.1, sound.2.1.trans counted⟩

/-! ## Sibling order -/

/-- Under a built-in keyed policy the children of every node of every reachable tree are live and
strictly increasing, so no two of them have the same key. -/
theorem Reachable.siblings_ascending (reached : t.Reachable) {cmp : α → α → Ordering}
    (builtIn : t.policy.BuiltInKeyed cmp) {h : Handle} {n : Node α} (live : t.node? h = some n) :
    ∃ values, n.children.map t.get? = values.map some ∧ Ascending cmp values ∧
      ∀ (i j : Nat) x y, i ≠ j → values[i]? = some x → values[j]? = some y → cmp x y ≠ .eq := by
  have sorts := builtIn.sortsBy
  have := sorts.trans
  obtain ⟨f, shows, ordered⟩ := reached.exists_ordered_forest sorts
  obtain ⟨s, mem, rfl, -, children⟩ := shows.exists_node live
  have asc := ordered s mem
  rw [← children]
  exact ⟨s.below.rootValues, shows.stores.map_get?_roots mem, asc,
    fun _ _ _ _ other => asc.ne_eq other⟩

theorem siblings_ascending_sample :
    ∃ n, (Tree.sample .pathOrder).node? ⟨1, 0, 0⟩ = some n ∧
      n.children = [⟨1, 2, 0⟩, ⟨1, 1, 0⟩] ∧
      ∃ values, n.children.map (Tree.sample .pathOrder).get? = values.map some ∧
        Ascending compare values ∧
        ∀ (i j : Nat) x y, i ≠ j → values[i]? = some x → values[j]? = some y →
          compare x y ≠ .eq := by
  have builtIn : (Tree.sample .pathOrder).policy.BuiltInKeyed compare := by
    rw [policy_sample]
    exact .pathOrder
  have listed : ((Tree.sample .pathOrder).node? ⟨1, 0, 0⟩).map Node.children =
      some [⟨1, 2, 0⟩, ⟨1, 1, 0⟩] := by decide +kernel
  obtain ⟨n, live, children⟩ := Option.map_eq_some_iff.mp listed
  exact ⟨n, live, children, (reachable_sample .pathOrder).siblings_ascending builtIn live⟩

end PolicyTree.Tree
