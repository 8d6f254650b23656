import PolicyTree.Proofs.Tree.Erasure
import PolicyTree.Proofs.Tree.Stepping
import PolicyTree.Proofs.Tree.Substitution

/-! Ways up and ways down: the parents that nodes name and the lists they stand in lead between the
same nodes. -/

namespace PolicyTree

open Forest

variable {α : Type}

/-- Some call after the first is answered with the node `h`. -/
def Walk.MeetsLater (w : Walk α) (h : Handle) : Prop :=
  ∃ n, (w.after (n + 1)).next.1.map Prod.fst = some h

namespace Tree

variable {t : Tree α} {f : Forest α} {q o : Option Handle} {rest : List (Handle × Node α)}
  {s : Sprig α} {a b h : Handle} {n : Node α} {d : Nat} {es : List (Handle × α)}

/-! ## The nodes on the way up -/

/-- Going up from `o`, which may be past the root, `es` are met one by one, and then nothing. -/
inductive Rises (t : Tree α) : Option Handle → List (Handle × α) → Prop where
  | top : Rises t none []
  | step {h : Handle} {n : Node α} {es : List (Handle × α)} (stored : t.node? h = some n)
      (above : Rises t n.parent es) : Rises t (some h) ((h, n.value) :: es)

theorem Climbs.exists_rises (climbs : t.Climbs o d) : ∃ es, t.Rises o es := by
  induction climbs with
  | top => exact ⟨[], .top⟩
  | step stored _ ih =>
    obtain ⟨es, above⟩ := ih
    exact ⟨_, .step stored above⟩

namespace Rises

theorem climbs (rises : t.Rises o es) : t.Climbs o es.length := by
  induction rises with
  | top => exact .top
  | step stored _ ih => exact .step stored ih

theorem eq_nil_iff (rises : t.Rises o es) : es = [] ↔ o = none := by
  cases rises <;> simp

/-- However long one goes on, nothing more is met. -/
theorem ascend_eq (rises : t.Rises o es) (bound : Nat) : t.ascend bound o = es.take bound := by
  induction rises generalizing bound with
  | top => cases bound <;> rfl
  | step stored _ ih =>
    cases bound with
    | zero => rfl
    | succ bound => simp [ascend, stored, ih]

theorem climbs_of_mem (rises : t.Rises o es) (met : h ∈ es.map Prod.fst) :
    ∃ d ≤ es.length, t.Climbs (some h) d := by
  induction rises with
  | top => simp at met
  | step stored above ih =>
    rcases List.mem_cons.mp met with rfl | later
    · exact ⟨_, Nat.le_refl _, .step stored above.climbs⟩
    · obtain ⟨d, less, climbs⟩ := ih later
      exact ⟨d, Nat.le_succ_of_le less, climbs⟩

/-- A node met twice would have two ways to the top, of different lengths. -/
theorem nodup (rises : t.Rises o es) : (es.map Prod.fst).Nodup := by
  induction rises with
  | top => exact .nil
  | @step h n es stored above ih =>
    rw [List.map_cons, List.nodup_cons]
    refine ⟨fun again => ?_, ih⟩
    obtain ⟨d, less, climbs⟩ := above.climbs_of_mem again
    have same := climbs.unique (.step stored above.climbs)
    omega

end Rises

/-- What is met above a node are its ancestors. -/
theorem Shows.above_of_rises (shows : t.Shows f) (live : t.node? b = some n)
    (rises : t.Rises n.parent es) (met : a ∈ es.map Prod.fst) : t.Above a b := by
  generalize parent : n.parent = p at rises
  induction rises generalizing b n with
  | top => simp at met
  | step stored above ih =>
    have link := shows.lists_parent live parent
    rcases List.mem_cons.mp met with rfl | later
    · exact .single link
    · exact .tail (ih stored later rfl) link

/-- The way up ends with the root. -/
theorem Shows.getLast?_rises (shows : t.Shows f) (live : t.node? b = some n)
    (rises : t.Rises n.parent es) (other : t.root ≠ some b) :
    es.getLast?.map Prod.fst = t.root := by
  generalize parent : n.parent = p at rises
  induction rises generalizing b n with
  | top => exact absurd ((shows.parent_eq_none_iff live).mp parent) other
  | @step h m es stored above ih =>
    by_cases root : t.root = some h
    · have last := above.eq_nil_iff.mpr ((shows.parent_eq_none_iff stored).mpr root)
      simp [last, root]
    · have goesOn : es ≠ [] := fun ended =>
        root ((shows.parent_eq_none_iff stored).mp (above.eq_nil_iff.mp ended))
      rw [List.getLast?_cons_of_ne_nil goesOn]
      exact ih stored root rfl

/-- Going up from the live node `b`, each of its ancestors is met once, the root last; nothing is
met above the root. -/
structure Ascends (t : Tree α) (b : Handle) (es : List (Handle × α)) : Prop where
  ancestors_eq : t.ancestors b = .ok es
  ascend_eq : ∀ p, t.parent b = .ok p → ∀ bound, t.ascend bound p = es.take bound
  nodup : (es.map Prod.fst).Nodup
  eq_nil_iff : es = [] ↔ t.root = some b
  getLast?_eq : t.root ≠ some b → es.getLast?.map Prod.fst = t.root

theorem Shows.ascends (shows : t.Shows f) (live : t.node? b = some n) :
    ∃ es, t.Ascends b es ∧ t.Rises n.parent es := by
  obtain ⟨d, climbs, depth⟩ := shows.depth_eq live
  obtain ⟨es, rises⟩ := climbs.exists_rises
  have above := parent_of_node? live
  refine ⟨es, ⟨?_, fun p parent => ?_, rises.nodup, ?_, shows.getLast?_rises live rises⟩, rises⟩
  · -- The bound of a listing is as good as none: fewer nodes are on the way than the tree has.
    have counted : (t.ascend t.len n.parent).length = d := by
      simpa [Tree.depth, ancestors, above, Except.map] using depth
    have whole : es.length ≤ t.len := by
      have same := climbs.unique rises.climbs
      rw [rises.ascend_eq, List.length_take] at counted
      omega
    rw [ancestors, above, Except.map, rises.ascend_eq, List.take_of_length_le whole]
  · rw [above] at parent
    cases parent
    exact rises.ascend_eq
  · rw [rises.eq_nil_iff, shows.parent_eq_none_iff live]

/-! ## The way down -/

theorem Stores.meetsLater_iff (stores : t.Stores q f rest) (mem : s ∈ f.nodes) :
    (Walk.ofStart t.arena (some s.handle)).MeetsLater h ↔ t.Above s.handle h := by
  have answers : ∀ n, ((Walk.ofStart t.arena (some s.handle)).after (n + 1)).next.1.map Prod.fst =
      s.below.handles[n]? := by
    intro n
    rw [(stores.walksFrom mem).next_eq, Sprig.nodes, List.map_cons, List.getElem?_cons_succ,
      List.getElem?_map, Forest.handles, List.getElem?_map, Option.map_map]
    rfl
  rw [stores.above_iff mem, List.mem_iff_getElem?]
  simp only [Walk.MeetsLater, answers]

/-- A listed node names its lister as its parent and its index as its position. -/
theorem Stores.listed (stores : t.Stores q f rest) (mem : s ∈ f.nodes) (child : h ∈ s.below.roots) :
    t.parent h = .ok (some s.handle) ∧
      ∃ i, t.position? h = some i ∧ ∀ j, s.below.roots[j]? = some h ↔ j = i := by
  obtain ⟨i, listed⟩ := List.mem_iff_getElem?.mp child
  rw [getElem?_roots] at listed
  obtain ⟨c, entry, rfl⟩ := Option.map_eq_some_iff.mp listed
  refine ⟨stores.parent_of_child mem entry, i, stores.position?_of_child mem entry, fun j => ?_⟩
  have inside := lt_length_roots entry
  have here : s.below.roots[i]? = some c.handle := by rw [getElem?_roots, entry]; rfl
  rw [← here, eq_comm, List.getElem?_inj inside (nodup_roots_below stores.nodup mem)]
  exact eq_comm

theorem Reachable.points_back (reached : t.Reachable) {p c : Handle} (link : t.Lists p c) :
    ∃ n, t.node? c = some n ∧ n.parent = some p := by
  obtain ⟨m, live, -⟩ := id link
  obtain ⟨q, f, rest, stores, s, mem, rfl⟩ :=
    reached.exists_stored (Arena.contains_iff.mpr ⟨m, live⟩)
  obtain ⟨c, child, rfl⟩ := List.mem_map.mp ((stores.lists_iff mem).mp link)
  exact ⟨_, stores.node?_of_child mem child, rfl⟩

/-- Every ancestor is met on the way up. -/
theorem Reachable.exists_ascend (reached : t.Reachable) (above : t.Above a b) :
    ∃ n, t.node? b = some n ∧ ∃ bound, a ∈ (t.ascend bound n.parent).map Prod.fst := by
  induction above with
  | single link =>
    obtain ⟨n, live, parent⟩ := reached.points_back link
    obtain ⟨m, stored, -⟩ := link
    exact ⟨n, live, 1, by simp [parent, ascend, stored]⟩
  | tail _ link ih =>
    obtain ⟨m, stored, bound, met⟩ := ih
    obtain ⟨n, live, parent⟩ := reached.points_back link
    refine ⟨n, live, bound + 1, ?_⟩
    rw [parent, ascend, stored]
    exact List.mem_cons_of_mem _ met

/-! ## Both ways -/

/-- What child lists lead to leads back: a listed child names its lister, and has one index there,
its position; a node that a walk from `a` meets later has `a` above it. On a tree on which no edit
halted, such as any under a policy in range (`Reachable.unhalted`), this is so the other way round
too, and the way up from every node ends with the root. On the others a dropped child still names
the parent that lists it no more. -/
theorem Reachable.ways_agree (reached : t.Reachable) (live : t.contains a = true)
    (live' : t.contains b = true) :
    ∃ w hs p, t.walkFrom a = .ok w ∧ t.children a = .ok hs ∧ t.parent b = .ok p ∧
      (b ∈ hs → p = some a ∧ ∃ i, t.position? b = some i ∧ ∀ j, hs[j]? = some b ↔ j = i) ∧
      (w.MeetsLater b → ∃ bound, a ∈ (t.ascend bound p).map Prod.fst) ∧
      (t.ReachableUnhalted → ∃ es, t.Ascends b es ∧
        (a ∈ es.map Prod.fst ↔ w.MeetsLater b) ∧ (p = some a → b ∈ hs)) := by
  obtain ⟨q, f, rest, stores, s, mem, rfl⟩ := reached.exists_stored live
  obtain ⟨n, stored⟩ := Arena.contains_iff.mp live'
  have parent : t.parent b = .ok n.parent := parent_of_node? stored
  have children : t.children s.handle = .ok s.below.roots := by
    obtain ⟨m, here⟩ := stores.exists_node? mem
    rw [Tree.children, node, here]
    rfl
  have down := stores.meetsLater_iff (h := b) mem
  have up : t.Above s.handle b → ∃ bound, s.handle ∈ (t.ascend bound n.parent).map Prod.fst := by
    intro above
    obtain ⟨m, again, met⟩ := reached.exists_ascend above
    rw [show m = n from Option.some.inj (again.symm.trans stored)] at met
    exact met
  refine ⟨_, _, _, stores.walkFrom_eq mem, children, parent, fun child => ?_, fun later =>
    up (down.mp later), fun unhalted => ?_⟩
  · obtain ⟨named, index⟩ := stores.listed mem child
    rw [parent] at named
    exact ⟨Except.ok.inj named, index⟩
  · obtain ⟨g, shows⟩ := unhalted.exists_forest
    obtain ⟨es, ascends, rises⟩ := shows.ascends stored
    refine ⟨es, ascends, ?_, fun named => ?_⟩
    · rw [down]
      constructor
      · exact shows.above_of_rises stored rises
      · intro above
        obtain ⟨bound, met⟩ := up above
        rw [rises.ascend_eq] at met
        exact (List.map_subset _ (List.take_subset ..)) met
    · exact (stores.lists_iff mem).mp (shows.lists_parent stored named)

/-- The node 9 hangs under the child 7 of the root. -/
theorem ways_agree_sample :
    sampleBranch.contains ⟨1, 0, 0⟩ = true ∧ sampleBranch.contains ⟨1, 3, 0⟩ = true ∧
      sampleBranch.policy.InRange ∧
      ∃ w es, sampleBranch.walkFrom ⟨1, 0, 0⟩ = .ok w ∧ sampleBranch.Ascends ⟨1, 3, 0⟩ es ∧
        es.map Prod.fst = [⟨1, 1, 0⟩, ⟨1, 0, 0⟩] ∧ w.MeetsLater ⟨1, 3, 0⟩ := by
  have root : sampleBranch.contains ⟨1, 0, 0⟩ = true := by decide +kernel
  have leaf : sampleBranch.contains ⟨1, 3, 0⟩ = true := by decide +kernel
  have inRange : sampleBranch.policy.InRange := by
    rw [sampleBranch, policy_insert, policy_sample]
    exact Policy.inRange_of_unkeyed rfl
  have listed : (sampleBranch.ancestors ⟨1, 3, 0⟩).map (List.map Prod.fst) =
      .ok [⟨1, 1, 0⟩, ⟨1, 0, 0⟩] := by decide +kernel
  obtain ⟨w, hs, p, walks, -, -, -, -, sound⟩ := reachable_sampleBranch.ways_agree root leaf
  obtain ⟨es, ascends, met, -⟩ := sound (reachable_sampleBranch.unhalted inRange)
  rw [ascends.ancestors_eq] at listed
  have way : es.map Prod.fst = [⟨1, 1, 0⟩, ⟨1, 0, 0⟩] := Except.ok.inj listed
  refine ⟨root, leaf, inRange, w, es, walks, ascends, way, met.mp ?_⟩
  rw [way]
  decide

end Tree

end PolicyTree
