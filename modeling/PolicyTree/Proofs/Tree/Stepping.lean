import PolicyTree.Proofs.Tree.Ascent
import PolicyTree.Proofs.Tree.Fragments
import PolicyTree.Proofs.Tree.Lifetime
import PolicyTree.Proofs.Tree.Overrun
import PolicyTree.Proofs.Tree.Unrolling
import PolicyTree.Tree.Listing

/-! Stepping through a subtree in pre-order: what each call answers, and the depth it reports. -/

namespace PolicyTree

open Forest

variable {α : Type}

/-- No node stands after one of its descendants. -/
theorem Forest.pairwise_nodes_of_nodup {f : Forest α} (nodup : f.handles.Nodup) :
    f.nodes.Pairwise fun s k => s.handle ∉ k.below.handles := by
  induction f with
  | nil => exact .nil
  | cons h x below later ihBelow ihLater =>
    obtain ⟨⟨notBelow, notLater⟩, nodupBelow, nodupLater, apart⟩ := nodup_cons_iff.mp nodup
    rw [nodes, List.pairwise_cons, List.pairwise_append]
    refine ⟨fun k mem under => ?_, ihBelow nodupBelow, ihLater nodupLater,
      fun s here k there under => ?_⟩
    · rcases List.mem_append.mp mem with inside | inside
      · exact notBelow ((handles_below_sublist inside).subset under)
      · exact notLater ((handles_below_sublist inside).subset under)
    · exact apart s.handle (mem_handles here) ((handles_below_sublist there).subset under)

namespace Tree

variable {t : Tree α} {f : Forest α} {q : Option Handle} {rest : List (Handle × Node α)}
  {s : Sprig α} {h k p : Handle} {d e : Nat} {w : Walk α} {es : List (Handle × α)}

/-! ## Depth by way of the parents -/

/-- From `k` up, `d` parent links lead to `h`. -/
inductive Hangs (t : Tree α) (h : Handle) : Nat → Handle → Prop where
  | top : Hangs t h 0 h
  | step {k p : Handle} {n : Node α} {d : Nat} (above : Hangs t h d p) (stored : t.node? k = some n)
      (parent : n.parent = some p) : Hangs t h (d + 1) k

/-- The way to the top leads over `h`. -/
theorem Hangs.climbs (hangs : t.Hangs h d k) {n : Node α} (stored : t.node? h = some n)
    (onward : t.Climbs n.parent e) : ∃ m, t.node? k = some m ∧ t.Climbs m.parent (e + d) := by
  induction hangs with
  | top => exact ⟨n, stored, onward⟩
  | step _ live parent ih =>
    obtain ⟨m, above, climbs⟩ := ih
    exact ⟨_, live, parent ▸ .step above climbs⟩

/-- The depth that a listing shows is the number of links up to the node that its top hangs from. -/
theorem Stores.hangs_visits (stores : t.Stores q f rest) (above : t.Hangs h d p) {b : Forest α}
    (inside : ∀ c ∈ b.sprigs, c ∈ f.nodes ∧ ∃ n, t.node? c.handle = some n ∧ n.parent = some p) :
    ∀ v ∈ b.visits (d + 1), t.Hangs h v.depth v.handle := by
  induction b generalizing d p with
  | nil => exact List.forall_mem_nil _
  | cons k x below later ihBelow ihLater =>
    obtain ⟨here, n, stored, parent⟩ := inside ⟨k, x, below⟩ (List.mem_cons_self ..)
    have next : t.Hangs h (d + 1) k := .step above stored parent
    have children : ∀ c ∈ below.sprigs, c ∈ f.nodes ∧
        ∃ n, t.node? c.handle = some n ∧ n.parent = some k := fun c child =>
      ⟨mem_nodes_of_child here child, _, stores.node?_of_child here child, rfl⟩
    rw [visits, List.forall_mem_cons, List.forall_mem_append]
    exact ⟨next, ihBelow next children, ihLater above fun c top =>
      inside c (List.mem_cons_of_mem _ top)⟩

theorem Stores.hangs_from (stores : t.Stores q f rest) (mem : s ∈ f.nodes) :
    ∀ v ∈ (ofSprigs [s]).visits 0, t.Hangs s.handle v.depth v.handle := by
  have below := stores.hangs_visits (.top (h := s.handle)) (b := s.below) fun c child =>
    ⟨mem_nodes_of_child mem child, _, stores.node?_of_child mem child, rfl⟩
  have whole : (ofSprigs [s]).visits 0 = ⟨0, s.handle, s.value⟩ :: s.below.visits 1 := by
    simp [ofSprigs, visits]
  rw [whole, List.forall_mem_cons]
  exact ⟨.top, below⟩

theorem exists_of_depth (depth : t.depth h = .ok d) : ∃ n, t.node? h = some n := by
  cases stored : t.node? h with
  | some n => exact ⟨n, rfl⟩
  | none =>
    rw [Tree.depth, ancestors, parent, node, stored] at depth
    cases depth

theorem Shows.depth_of_hangs (shows : t.Shows f) (hangs : t.Hangs h d k)
    (depth : t.depth h = .ok e) : t.depth k = .ok (e + d) := by
  obtain ⟨n, stored⟩ := exists_of_depth depth
  obtain ⟨e', climbs, same⟩ := shows.depth_eq stored
  obtain rfl := Except.ok.inj (same.symm.trans depth)
  obtain ⟨m, below, onward⟩ := hangs.climbs stored climbs
  obtain ⟨d', climbs', depth'⟩ := shows.depth_eq below
  rw [depth', onward.unique climbs']

/-! ## One start node -/

/-- Called again and again, `w` goes through `es`, the recursive listing of the subtree at `h`, and
is at its end from then on. -/
structure WalksFrom (t : Tree α) (h : Handle) (w : Walk α) (es : List (Handle × α)) : Prop where
  unrolls_iff : ∀ es', t.Unrolls id [h] es' ↔ es' = es
  nodup : (es.map Prod.fst).Nodup
  descends : es.Pairwise fun a b => ¬t.Above b.1 a.1
  next_eq : ∀ n, (w.after n).next.1 = es[n]?
  depth_hangs : ∀ n k x, es[n]? = some (k, x) → t.Hangs h (w.after (n + 1)).depth k
  depth_ended : ∀ n, es.length ≤ n → (w.after (n + 1)).depth = 0

theorem Stores.walkFrom_eq (stores : t.Stores q f rest) (mem : s ∈ f.nodes) :
    t.walkFrom s.handle = .ok (.ofStart t.arena (some s.handle)) := by
  obtain ⟨p, stored⟩ := stores.exists_node? mem
  rw [walkFrom, node, stored]
  rfl

theorem Stores.walksFrom (stores : t.Stores q f rest) (mem : s ∈ f.nodes) :
    t.WalksFrom s.handle (.ofStart t.arena (some s.handle)) (s.nodes.map Sprig.entry) := by
  have meets := stores.meets_from mem
  have entries : ((ofSprigs [s]).visits 0).map Visit.entry = s.nodes.map Sprig.entry := by
    rw [map_entry_visits, nodes_single]
    rfl
  have listed := nodes_sublist mem
  constructor
  · exact fun es' => ⟨fun other => other.unique (stores.unrolls_node mem), fun same =>
      same ▸ stores.unrolls_node mem⟩
  · rw [List.map_map]
    exact stores.nodup.sublist (listed.map Sprig.handle)
  · rw [List.pairwise_map]
    apply ((pairwise_nodes_of_nodup stores.nodup).sublist listed).imp_of_mem
    intro a b _ inside apart
    exact fun above => apart ((stores.above_iff (listed.subset inside)).mp above)
  · intro n
    rw [meets.next_eq, ← entries, List.getElem?_map]
  · intro n k x listed
    rw [← entries, List.getElem?_map] at listed
    obtain ⟨v, visited, entry⟩ := Option.map_eq_some_iff.mp listed
    cases entry
    rw [meets.depth_eq, visited]
    exact stores.hangs_from mem v (List.mem_of_getElem? visited)
  · intro n past
    rw [← entries, List.length_map] at past
    rw [meets.depth_eq, List.getElem?_eq_none past]
    rfl

/-! ## The whole tree -/

/-- Depths counted by walks agree with those counted up to the root, a walk from the root goes
through all nodes, and the height is one more than the greatest depth. -/
structure Measured (t : Tree α) : Prop where
  depth_eq : ∀ h w n k x, t.walkFrom h = .ok w → (w.after n).next.1 = some (k, x) →
    ∃ a b, t.depth k = .ok a ∧ t.depth h = .ok b ∧ b ≤ a ∧ (w.after (n + 1)).depth = a - b
  walkFrom_root : ∀ r, t.root = some r → t.walkFrom r = .ok t.walk
  length_eq : ∃ es : List (Handle × α), es.length = t.len ∧ ∀ n, (t.walk.after n).next.1 = es[n]?
  height_of_empty : t.root = none → t.height = 0
  height_eq : ∀ r, t.root = some r → ∃ k a, t.depth k = .ok a ∧ t.height = a + 1 ∧
    ∀ k' a', t.depth k' = .ok a' → a' ≤ a

theorem Shows.depth_walk (shows : t.Shows f) {n : Nat} {x : α} (walks : t.walkFrom h = .ok w)
    (answer : (w.after n).next.1 = some (k, x)) :
    ∃ a b, t.depth k = .ok a ∧ t.depth h = .ok b ∧ b ≤ a ∧ (w.after (n + 1)).depth = a - b := by
  obtain ⟨m, live, -⟩ := exists_of_map_node walks
  obtain ⟨s, mem, rfl, -⟩ := shows.exists_node live
  rw [shows.stores.walkFrom_eq mem] at walks
  cases walks
  have goes := shows.stores.walksFrom mem
  rw [goes.next_eq] at answer
  obtain ⟨p, stored⟩ := shows.stores.exists_node? mem
  obtain ⟨b, -, depth⟩ := shows.depth_eq stored
  exact ⟨_, b, shows.depth_of_hangs (goes.depth_hangs n k x answer) depth, depth,
    Nat.le_add_right .., (Nat.add_sub_cancel_left ..).symm⟩

/-- Every node is listed with its depth. -/
theorem Shows.depth_of_mem (shows : t.Shows f) :
    ∀ v ∈ t.preOrder, t.depth v.handle = .ok v.depth := by
  rw [shows.preOrder_eq]
  rcases shows.sprigs_eq with ⟨-, rfl⟩ | ⟨s, root, rfl⟩
  · exact List.forall_mem_nil _
  · intro v mem
    have top : t.depth s.handle = .ok 0 := by
      obtain ⟨d, climbs, depth⟩ :=
        shows.depth_eq (shows.stores.node?_of_mem_sprigs (s := s) (by simp))
      rw [depth, climbs.unique .top]
    have below := shows.depth_of_hangs (shows.stores.hangs_from (mem_nodes_single s) v mem) top
    rwa [Nat.zero_add] at below

theorem height_eq_of_ne_nil {m : Nat} (greatest : (t.preOrder.map (·.depth + 1)).max? = some m) :
    t.height = m := by
  rw [height, List.foldl_max, greatest]
  exact Nat.zero_max m

theorem Shows.measured (shows : t.Shows f) : t.Measured where
  depth_eq h w n k x walks answer := shows.depth_walk walks answer
  walkFrom_root r root := by
    obtain ⟨s, rfl, rfl⟩ := shows.eq_single root
    rw [shows.stores.walkFrom_eq (mem_nodes_single s), walk, root]
  length_eq := by
    rcases shows.sprigs_eq with ⟨noRoot, rfl⟩ | ⟨s, root, rfl⟩
    · refine ⟨[], shows.len_eq.symm, fun n => ?_⟩
      have meets : t.walk.Meets [] := Walk.meets_nil noRoot rfl
      rw [meets.next_eq]
      rfl
    · have goes := shows.stores.walksFrom (mem_nodes_single s)
      refine ⟨s.nodes.map Sprig.entry, ?_, fun n => ?_⟩
      · rw [shows.len_eq, List.length_map, handles_single, Sprig.handles, List.length_map]
      · rw [walk, root, goes.next_eq]
  height_of_empty noRoot := by
    rcases shows.sprigs_eq with ⟨-, rfl⟩ | ⟨s, root, -⟩
    · rw [height, shows.preOrder_eq]
      rfl
    · rw [noRoot] at root
      cases root
  height_eq r root := by
    have listed : t.preOrder.map (·.depth + 1) ≠ [] := by
      obtain ⟨s, rfl, rfl⟩ := shows.eq_single root
      rw [shows.preOrder_eq]
      simp [ofSprigs, visits]
    obtain ⟨m, greatest⟩ : ∃ m, (t.preOrder.map (·.depth + 1)).max? = some m :=
      Option.ne_none_iff_exists'.mp (by simpa using listed)
    obtain ⟨attained, most⟩ := List.max?_eq_some_iff.mp greatest
    obtain ⟨v, mem, rfl⟩ := List.mem_map.mp attained
    refine ⟨v.handle, v.depth, shows.depth_of_mem v mem, height_eq_of_ne_nil greatest, ?_⟩
    intro k a depth
    obtain ⟨n, stored⟩ := exists_of_depth depth
    have live : k ∈ t.handles := by
      rw [shows.handles_eq]
      exact shows.contains_iff.mp (Arena.contains_iff.mpr ⟨n, stored⟩)
    obtain ⟨u, visited, rfl⟩ := List.mem_map.mp live
    have same := (shows.depth_of_mem u visited).symm.trans depth
    cases same
    exact Nat.le_of_succ_le_succ (most _ (List.mem_map_of_mem visited))

/-- From every live node a walk goes through the recursive pre-order listing of its subtree, each
node once and before its descendants, and then stands still. On a tree on which no edit halted, such
as any under a policy in range (`Reachable.unhalted`), the depths it reports are differences of
depths in the tree, and a walk from the root meets all nodes. On the others a child may have been
dropped: it is live and names its parent, but no walk from the root comes to it. -/
theorem Reachable.walkFrom_unrolls (reached : t.Reachable) :
    (∀ h, t.contains h = true → ∃ w es, t.walkFrom h = .ok w ∧ t.WalksFrom h w es) ∧
      (t.ReachableUnhalted → t.Measured) := by
  refine ⟨fun h live => ?_, fun unhalted => ?_⟩
  · obtain ⟨q, f, rest, stores, s, mem, rfl⟩ := reached.exists_stored live
    exact ⟨_, _, stores.walkFrom_eq mem, stores.walksFrom mem⟩
  · obtain ⟨f, shows⟩ := unhalted.exists_forest
    exact shows.measured

theorem walkFrom_unrolls_sample :
    (∃ w es, (Tree.sample .insertionOrder).walkFrom ⟨1, 0, 0⟩ = .ok w ∧
      (Tree.sample .insertionOrder).WalksFrom ⟨1, 0, 0⟩ w es) ∧
    (Tree.sample .insertionOrder).Measured := by
  have both := (reachable_sample .insertionOrder).walkFrom_unrolls
  exact ⟨both.1 ⟨1, 0, 0⟩ (by decide +kernel),
    both.2 (reachableUnhalted_sample .insertionOrder)⟩

end Tree

end PolicyTree
