import Mathlib.Data.List.Nodup
import Mathlib.Logic.Function.Basic
import PolicyTree.Proofs.Forest.Replica
import PolicyTree.Proofs.Tree.Growth
import PolicyTree.Proofs.Tree.Pruning

/-! What copying comes to: replicas of all nodes, or the first node whose children clash. -/

namespace PolicyTree

open Forest
open scoped List

variable {α : Type}

/-- A node of the source that is stored already as `dest`, under `parent`, while all below it is
still to be copied. -/
structure Graft (α : Type) where
  sprig : Sprig α
  dest : Handle
  parent : Option Handle

namespace Graft

def value (g : Graft α) : α := g.sprig.value

def pending (g : Graft α) : Handle × Handle := (g.sprig.handle, g.dest)

/-- The stored node while nothing is below it. -/
def leaf (g : Graft α) : Sprig α := ⟨g.dest, g.value, nil⟩

def stub (g : Graft α) : Handle × Node α := g.leaf.record g.parent

/-- The stored node with the given children. -/
def filled (g : Graft α) (children : List (Graft α)) : Handle × Node α :=
  (g.dest, ⟨g.value, g.parent, children.map dest⟩)

/-- What is stored once all below the node has been copied. -/
def records (policy : Policy α) (partner : Handle → Handle) (g : Graft α) :
    List (Handle × Node α) :=
  (g.sprig.replica policy partner).records g.parent

end Graft

namespace Forest

theorem mapBelow_single (s : Sprig α) (g : Forest α → Forest α) :
    (ofSprigs [s]).mapBelow s.handle g = ofSprigs [⟨s.handle, s.value, g s.below⟩] := by
  simp [ofSprigs, mapBelow]

theorem plantAt_leaves (i : Nat) (g : Graft α) (placed : List (Graft α)) :
    plantAt i g.leaf (ofSprigs (placed.map Graft.leaf)) =
      ofSprigs ((placed.insertIdx (min i placed.length) g).map Graft.leaf) := by
  rw [plantAt, sprigs_ofSprigs, List.map_insertIdx, List.length_map]

end Forest

namespace Tree

variable {source t : Tree α} {f : Forest α} {p q : Option Handle}
  {rest sourceRest : List (Handle × Node α)} {k : Sprig α}

/-! ## One level -/

/-- The children of one node are copied, and stand where the policy arranges them, or one of them is
refused. -/
theorem copyLevel_cases (stored : source.Stores p f sourceRest) (parent dest : Handle) (x : α)
    (ss : List (Sprig α)) (inside : ∀ s ∈ ss, s ∈ f.nodes) {placed : List (Graft α)} {t : Tree α}
    (stores : t.Stores q (ofSprigs [⟨dest, x, ofSprigs (placed.map Graft.leaf)⟩]) rest) :
    (t.policy.arrangeAfter Sprig.value (placed.map Graft.sprig) ss = none ∧
        (copyLevel source parent dest (ss.map Sprig.handle) t).outcome =
          .refused (.duplicateKey parent)) ∨
      ∃ new out, new.map Graft.sprig = ss ∧ (∀ g ∈ new, g.parent = some dest) ∧
        t.policy.arrangeAfter Graft.value placed new = some out ∧
        (copyLevel source parent dest (ss.map Sprig.handle) t).outcome =
          .done (new.map Graft.pending) ∧
        (copyLevel source parent dest (ss.map Sprig.handle) t).tree.Stores q
          (ofSprigs [⟨dest, x, ofSprigs (out.map Graft.leaf)⟩]) rest := by
  induction ss generalizing placed t with
  | nil => exact .inr ⟨[], placed, rfl, nofun, rfl, rfl, stores⟩
  | cons s ss ih =>
    obtain ⟨here, others⟩ := List.forall_mem_cons.mp inside
    have only := mem_nodes_single (Sprig.mk dest x (ofSprigs (placed.map Graft.leaf)))
    have shown : (ofSprigs (placed.map Graft.leaf)).rootValues = placed.map Graft.value := by
      rw [rootValues_ofSprigs, List.map_map]
      rfl
    have values : (placed.map Graft.sprig).map Sprig.value = placed.map Graft.value := by
      rw [List.map_map]
      rfl
    rw [List.map_cons, copyLevel, stored.value_eq here, require_ok]
    rcases stores.insert_cases only s.value with ⟨i, place, refused⟩ | ⟨i, place, done⟩
    · left
      rw [shown, ← values] at place
      rw [Policy.arrangeAfter_of_taken place, refused]
      exact ⟨rfl, rfl⟩
    · rw [shown] at place
      have planted := stores.attach only i s.value
      have moved := plantAt_leaves i ⟨s, t.arena.fresh, some dest⟩ placed
      rw [mapBelow_single] at planted
      dsimp only [Graft.leaf, Graft.value] at moved planted
      rw [moved] at planted
      rw [done, mapError_answer, andThen_answer, andThen_restate, Policy.arrangeAfter_of_before
        (values ▸ place)]
      have listed : (placed.map Graft.sprig).insertIdx (min i (placed.map Graft.sprig).length) s =
          (placed.insertIdx (min i placed.length) ⟨s, t.arena.fresh, some dest⟩).map
            Graft.sprig := by
        rw [List.map_insertIdx, List.length_map]
      rw [listed]
      rcases ih others planted with ⟨refused, ended⟩ | ⟨new, out, rfl, under, arranged, ended, last⟩
      · exact .inl ⟨refused, Outcome.map_eq_refused.mpr ended⟩
      · refine .inr ⟨⟨s, t.arena.fresh, some dest⟩ :: new, out, rfl,
          List.forall_mem_cons.mpr ⟨rfl, under⟩, ?_,
          Outcome.map_eq_done.mpr ⟨_, ended, rfl⟩, last⟩
        rwa [Policy.arrangeAfter_of_before place]

/-! ## All levels -/

/-- What the nodes to be copied next are, in the order in which the stack holds them. -/
theorem backward_grafts {new : List (Graft α)} (listed : new.map Graft.sprig = k.below.sprigs) :
    new.reverse.flatMap (·.sprig.backward) = k.below.backward := by
  rw [backward_eq_flatMap, ← listed, ← List.map_reverse, List.flatMap_map]

theorem nodes_grafts_perm {new : List (Graft α)} (listed : new.map Graft.sprig = k.below.sprigs) :
    (new.reverse.flatMap (·.sprig.nodes)).Perm k.below.nodes := by
  rw [nodes_eq_flatMap, ← listed, List.flatMap_map]
  exact (List.reverse_perm new).flatMap_right _

theorem records_leaves {g : Graft α} {out : List (Graft α)}
    (under : ∀ c ∈ out, c.parent = some g.dest) :
    (ofSprigs [⟨g.dest, g.value, ofSprigs (out.map Graft.leaf)⟩]).records g.parent =
      g.filled out :: out.map Graft.stub := by
  have leaves : (out.map Graft.leaf).flatMap (Sprig.records · (some g.dest)) =
      out.map Graft.stub := by
    rw [List.flatMap_map, List.map_eq_flatMap]
    apply List.flatMap_congr
    intro c mem
    rw [Graft.stub, under c mem]
    rfl
  rw [records_eq_flatMap, sprigs_ofSprigs, List.flatMap_singleton, Sprig.records,
    records_eq_flatMap, sprigs_ofSprigs, leaves, Sprig.record, roots_ofSprigs, List.map_map]
  rfl

/-- The children of a graft are arranged as their copies are. -/
theorem arrange_grafts {policy : Policy α} {new out : List (Graft α)}
    (listed : new.map Graft.sprig = k.below.sprigs)
    (arranged : policy.arrange Graft.value new = some out) :
    policy.arrange Sprig.value k.below.sprigs = some (out.map Graft.sprig) := by
  rw [← listed, Policy.arrange_map]
  exact congrArg (Option.map (List.map Graft.sprig)) arranged

/-- A whole copy is its topmost node with the copies of the children. -/
theorem records_graft_perm {policy : Policy α} {partner : Handle → Handle} {g : Graft α}
    {new out : List (Graft α)} (listed : new.map Graft.sprig = g.sprig.below.sprigs)
    (under : ∀ c ∈ new, c.parent = some g.dest)
    (arranged : policy.arrange Graft.value new = some out)
    (here : partner g.sprig.handle = g.dest) (named : ∀ c ∈ new, partner c.sprig.handle = c.dest) :
    (g.records policy partner).Perm
      (g.filled out :: new.flatMap (Graft.records policy partner)) := by
  have same := Policy.perm_of_arrange arranged
  have below : (g.sprig.replica policy partner).below =
      ofSprigs ((out.map Graft.sprig).map (Sprig.replica policy partner)) :=
    Sprig.below_replica (arrange_grafts listed arranged)
  have roots : (g.sprig.replica policy partner).below.roots = out.map Graft.dest := by
    rw [below, roots_ofSprigs, List.map_map, List.map_map]
    exact List.map_congr_left fun c mem => named c (same.mem_iff.mp mem)
  have children : (g.sprig.replica policy partner).below.records (some g.dest) =
      out.flatMap (Graft.records policy partner) := by
    rw [below, records_eq_flatMap, sprigs_ofSprigs, List.flatMap_map, List.flatMap_map]
    apply List.flatMap_congr
    intro c mem
    rw [Graft.records, under c (same.mem_iff.mp mem)]
  rw [Graft.records, Sprig.records, Sprig.handle_replica, here, children, Sprig.record, roots,
    Sprig.handle_replica, here]
  exact (same.flatMap_right _).cons _

theorem records_graft_congr {policy : Policy α} {partner partner' : Handle → Handle} {g : Graft α}
    (agree : ∀ h ∈ g.sprig.handles, partner h = partner' h) :
    g.records policy partner = g.records policy partner' := by
  rw [Graft.records, Graft.records, Sprig.replica_congr agree]

/-- The grafts stand for different nodes of the source, possibly with other values, and are stored
with nothing below them. -/
structure Grafting (f : Forest α) (t : Tree α) (grafts : List (Graft α))
    (rest : List (Handle × Node α)) : Prop where
  inside : ∀ g ∈ grafts, ∃ s ∈ f.nodes, s.handle = g.sprig.handle ∧ s.below = g.sprig.below
  distinct : (grafts.flatMap (·.sprig.handles)).Nodup
  held : t.arena.Holds (grafts.map Graft.stub ++ rest)

namespace Grafting

variable {policy : Policy α} {partner : Handle → Handle} {g : Graft α}
  {grafts new out : List (Graft α)}

theorem nodes_perm (grafts : List (Graft α))
    (listed : new.map Graft.sprig = g.sprig.below.sprigs) :
    ((g :: grafts).flatMap (·.sprig.nodes)).Perm
      (g.sprig :: (new.reverse ++ grafts).flatMap (·.sprig.nodes)) := by
  rw [List.flatMap_cons, List.flatMap_append]
  exact ((nodes_grafts_perm listed).symm.append_right _).cons _

theorem handles_perm (grafts : List (Graft α))
    (listed : new.map Graft.sprig = g.sprig.below.sprigs) :
    ((g :: grafts).flatMap (·.sprig.handles)).Perm
      (g.sprig.handle :: (new.reverse ++ grafts).flatMap (·.sprig.handles)) := by
  have moved := (nodes_perm grafts listed).map Sprig.handle
  rwa [List.map_cons, List.map_flatMap, List.map_flatMap] at moved

/-- Once the children of the first graft have been copied, they are the next grafts. -/
theorem next (grafting : Grafting f t (g :: grafts) rest)
    (listed : new.map Graft.sprig = g.sprig.below.sprigs)
    (under : ∀ c ∈ new, c.parent = some g.dest)
    (arranged : policy.arrange Graft.value new = some out) {t' : Tree α}
    (stores : t'.Stores g.parent (ofSprigs [⟨g.dest, g.value, ofSprigs (out.map Graft.leaf)⟩])
      (grafts.map Graft.stub ++ rest)) :
    Grafting f t' (new.reverse ++ grafts) (g.filled out :: rest) where
  inside := by
    intro c mem
    rcases List.mem_append.mp mem with child | later
    · obtain ⟨s, here, -, below⟩ := grafting.inside g (List.mem_cons_self ..)
      refine ⟨c.sprig, mem_nodes_of_child here ?_, rfl, rfl⟩
      rw [below, ← listed]
      exact List.mem_map_of_mem (List.mem_reverse.mp child)
    · exact grafting.inside c (List.mem_cons_of_mem _ later)
  distinct := (List.nodup_cons.mp ((handles_perm grafts listed).nodup_iff.mp grafting.distinct)).2
  held := by
    have same := Policy.perm_of_arrange arranged
    have leaves := records_leaves fun c mem => under c (same.mem_iff.mp mem)
    apply Arena.Holds.perm stores
    rw [leaves]
    calc g.filled out :: out.map Graft.stub ++ (grafts.map Graft.stub ++ rest)
        ~ g.filled out :: new.reverse.map Graft.stub ++ (grafts.map Graft.stub ++ rest) :=
          (((same.trans (List.reverse_perm new).symm).map Graft.stub).cons _).append_right _
      _ ~ (new.reverse ++ grafts).map Graft.stub ++ g.filled out :: rest := by
          rw [List.map_append, List.cons_append, ← List.append_assoc]
          exact List.perm_middle.symm

/-- The copies below the first graft make it whole. -/
theorem gather (grafting : Grafting f t (g :: grafts) rest)
    (listed : new.map Graft.sprig = g.sprig.below.sprigs)
    (under : ∀ c ∈ new, c.parent = some g.dest)
    (arranged : policy.arrange Graft.value new = some out)
    (named : ∀ c ∈ new.reverse ++ grafts, partner c.sprig.handle = c.dest)
    {a : Arena (Node α)}
    (holds : a.Holds ((new.reverse ++ grafts).flatMap (Graft.records policy partner) ++
      (g.filled out :: rest))) :
    ∃ partner', (∀ c ∈ g :: grafts, partner' c.sprig.handle = c.dest) ∧
      a.Holds ((g :: grafts).flatMap (Graft.records policy partner') ++ rest) := by
  have apart := (List.nodup_cons.mp ((handles_perm grafts listed).nodup_iff.mp grafting.distinct)).1
  have kept : ∀ c ∈ new.reverse ++ grafts, ∀ h ∈ c.sprig.handles,
      Function.update partner g.sprig.handle g.dest h = partner h := by
    intro c mem h inside
    apply Function.update_of_ne
    rintro rfl
    exact apart (List.mem_flatMap.mpr ⟨c, mem, inside⟩)
  have here := Function.update_self g.sprig.handle g.dest partner
  -- The handle of the first graft is no other node's, so its name can still be chosen.
  generalize Function.update partner g.sprig.handle g.dest = partner' at kept here
  have renamed : ∀ c ∈ new.reverse ++ grafts, partner' c.sprig.handle = c.dest := by
    intro c mem
    rw [kept c mem c.sprig.handle (List.mem_cons_self ..), named c mem]
  refine ⟨partner', fun c mem => ?_, holds.perm ?_⟩
  · rcases List.mem_cons.mp mem with rfl | later
    · exact here
    · exact renamed c (List.mem_append_right _ later)
  · have whole : (g.records policy partner').Perm
        (g.filled out :: new.flatMap (Graft.records policy partner')) :=
      records_graft_perm listed under arranged here fun c mem =>
        renamed c (List.mem_append_left _ (List.mem_reverse.mpr mem))
    have same : (new.reverse ++ grafts).flatMap (Graft.records policy partner) =
        (new.reverse ++ grafts).flatMap (Graft.records policy partner') :=
      List.flatMap_congr fun c mem => records_graft_congr fun h inside => (kept c mem h inside).symm
    have turned : (new.reverse.flatMap (Graft.records policy partner')).Perm
        (new.flatMap (Graft.records policy partner')) := (List.reverse_perm new).flatMap_right _
    rw [same, List.flatMap_append]
    calc new.reverse.flatMap (Graft.records policy partner') ++
          grafts.flatMap (Graft.records policy partner') ++ g.filled out :: rest
        ~ g.filled out :: (new.flatMap (Graft.records policy partner') ++
            grafts.flatMap (Graft.records policy partner') ++ rest) :=
          List.perm_middle.trans (((turned.append_right _).append_right _).cons _)
      _ ~ (g :: grafts).flatMap (Graft.records policy partner') ++ rest :=
          ((whole.append_right _).append_right _).symm

end Grafting

/-- Copying goes on until the first node, in the order of the stack, whose children clash. If there
is none, all below the grafts is copied and counted. -/
theorem copyPending_cases (stored : source.Stores p f sourceRest) (bound : Nat)
    {grafts : List (Graft α)} (copied : Nat) {t : Tree α} (grafting : Grafting f t grafts rest)
    (enough : (grafts.flatMap (·.sprig.nodes)).length ≤ bound) :
    (∃ k, (grafts.flatMap (·.sprig.backward)).find? (Sprig.clashes t.policy) = some k ∧
        (copyPending source bound (grafts.map Graft.pending) copied t).outcome =
          .refused (.duplicateKey k.handle)) ∨
      (grafts.flatMap (·.sprig.backward)).find? (Sprig.clashes t.policy) = none ∧
        ∃ n partner,
          (copyPending source bound (grafts.map Graft.pending) copied t).outcome = .done n ∧
          n + grafts.length = copied + (grafts.flatMap (·.sprig.nodes)).length ∧
          (∀ g ∈ grafts, partner g.sprig.handle = g.dest) ∧
          (copyPending source bound (grafts.map Graft.pending) copied t).tree.arena.Holds
            (grafts.flatMap (Graft.records t.policy partner) ++ rest) := by
  induction bound generalizing grafts copied t rest with
  | zero =>
    obtain _ | ⟨g, grafts⟩ := grafts
    · exact .inr ⟨rfl, copied, id, rfl, rfl, List.forall_mem_nil _, grafting.held⟩
    · simp [Sprig.nodes] at enough
  | succ bound ih =>
    obtain _ | ⟨g, grafts⟩ := grafts
    · exact .inr ⟨rfl, copied, id, rfl, rfl, List.forall_mem_nil _, grafting.held⟩
    obtain ⟨s, here, same, below⟩ := grafting.inside g (List.mem_cons_self ..)
    obtain ⟨up, node⟩ := stored.exists_node? here
    rw [same, below] at node
    have start : t.Stores g.parent (ofSprigs [⟨g.dest, g.value, ofSprigs (List.map Graft.leaf [])⟩])
        (grafts.map Graft.stub ++ rest) := grafting.held
    have backward : (g :: grafts).flatMap (·.sprig.backward) =
        g.sprig :: (g.sprig.below.backward ++ grafts.flatMap (·.sprig.backward)) := rfl
    rw [backward, List.map_cons, Graft.pending, copyPending, Tree.node, node, require_ok]
    dsimp only
    rw [roots]
    rcases copyLevel_cases stored g.sprig.handle g.dest g.value g.sprig.below.sprigs
      (fun c child => mem_nodes_of_child here (below ▸ child)) start with
      ⟨refused, ended⟩ | ⟨new, out, listed, under, arranged, ended, last⟩
    · have clash : g.sprig.clashes t.policy = true := Option.isNone_iff_eq_none.mpr refused
      refine .inl ⟨g.sprig, List.find?_cons_of_pos clash, ?_⟩
      rw [andThen_of_refused ended, refuse_outcome]
    · have free : ¬g.sprig.clashes t.policy = true := by
        rw [Sprig.clashes, arrange_grafts listed arranged]
        exact Bool.false_ne_true
      have policy := (keptByBuilding_policy t.policy).copyLevel source g.sprig.handle g.dest
        (g.sprig.below.sprigs.map Sprig.handle) rfl
      have counted := (Grafting.nodes_perm grafts listed).length_eq
      rw [List.length_cons] at counted
      have fewer : ((new.reverse ++ grafts).flatMap (·.sprig.nodes)).length ≤ bound := by omega
      have stack : (new.map Graft.pending).reverse ++ grafts.map Graft.pending =
          (new.reverse ++ grafts).map Graft.pending := by
        rw [List.map_append, List.map_reverse]
      rw [List.find?_cons_of_neg free, andThen_of_done ended, stack, ← backward_grafts listed,
        ← List.flatMap_append, ← policy]
      rcases ih (copied + (new.map Graft.pending).length)
        (grafting.next listed under arranged last) fewer with
        refused | ⟨clear, n, partner, done, total, named, holds⟩
      · exact .inl refused
      · obtain ⟨partner', named', whole⟩ :=
          grafting.gather listed under (policy ▸ arranged) named holds
        rw [List.length_append, List.length_reverse, List.length_map] at total
        exact .inr ⟨clear, n, partner', done, by rw [counted, List.length_cons]; omega, named',
          whole⟩

/-! ## Copies of a subtree -/

/-- All below `k` is copied below a bare node, whatever the value there, unless the children of `k` or
of a node below clash. -/
theorem copyBelow_cases_under (stored : source.Stores p f sourceRest) (mem : k ∈ f.nodes)
    {dest : Handle} {x : α} (held : t.arena.Holds ((dest, ⟨x, q, []⟩) :: rest)) :
    (∃ c, k.backward.find? (Sprig.clashes t.policy) = some c ∧
        (t.copyBelow source k.handle dest).outcome = .refused (.duplicateKey c.handle)) ∨
      k.backward.find? (Sprig.clashes t.policy) = none ∧ ∃ partner,
        (t.copyBelow source k.handle dest).outcome = .done k.below.handles.length ∧
        partner k.handle = dest ∧
        (t.copyBelow source k.handle dest).tree.arena.Holds
          (({ k with value := x }.replica t.policy partner).records q ++ rest) := by
  have inside : k.handles.Sublist f.handles := handles_sublist mem
  have grafting : Grafting f t [⟨{ k with value := x }, dest, q⟩] rest := by
    refine ⟨fun g only => ?_, ?_, held⟩
    · rw [List.mem_singleton.mp only]
      exact ⟨k, mem, rfl, rfl⟩
    · rw [List.flatMap_singleton]
      exact stored.nodup.sublist inside
  have enough : (List.flatMap (·.sprig.nodes) [Graft.mk { k with value := x } dest q]).length ≤
      source.len := by
    rw [List.flatMap_singleton, ← List.length_map Sprig.handle]
    exact Nat.le_trans inside.length_le stored.length_le_len
  have cases := copyPending_cases stored source.len 0 grafting enough
  rw [List.flatMap_singleton, List.flatMap_singleton] at cases
  -- Whether the children of `k` clash does not hang on its own value.
  by_cases clash : k.clashes t.policy = true
  · have first : k.backward.find? (Sprig.clashes t.policy) = some k := List.find?_cons_of_pos clash
    have found : ({ k with value := x } : Sprig α).backward.find? (Sprig.clashes t.policy) =
        some { k with value := x } := List.find?_cons_of_pos clash
    rw [found] at cases
    rcases cases with ⟨c, here, refused⟩ | ⟨none, -⟩
    · cases here
      exact .inl ⟨k, first, refused⟩
    · cases none
  · have first : k.backward.find? (Sprig.clashes t.policy) =
        k.below.backward.find? (Sprig.clashes t.policy) := List.find?_cons_of_neg clash
    have found : ({ k with value := x } : Sprig α).backward.find? (Sprig.clashes t.policy) =
        k.below.backward.find? (Sprig.clashes t.policy) := List.find?_cons_of_neg clash
    rw [found, ← first] at cases
    rcases cases with refused | ⟨clear, n, partner, done, total, named, holds⟩
    · exact .inl refused
    · have counted : n = k.below.handles.length := by
        rw [Sprig.nodes, List.length_cons, ← List.length_map Sprig.handle] at total
        exact Nat.succ.inj (total.trans (Nat.zero_add _))
      subst counted
      rw [List.flatMap_singleton] at holds
      exact .inr ⟨clear, partner, done, named _ (List.mem_singleton_self _), holds⟩

theorem copyBelow_cases (stored : source.Stores p f sourceRest) (mem : k ∈ f.nodes) {dest : Handle}
    (held : t.arena.Holds ((dest, ⟨k.value, q, []⟩) :: rest)) :
    (∃ c, k.backward.find? (Sprig.clashes t.policy) = some c ∧
        (t.copyBelow source k.handle dest).outcome = .refused (.duplicateKey c.handle)) ∨
      k.backward.find? (Sprig.clashes t.policy) = none ∧ ∃ n partner,
        (t.copyBelow source k.handle dest).outcome = .done n ∧ partner k.handle = dest ∧
        (t.copyBelow source k.handle dest).tree.arena.Holds
          ((k.replica t.policy partner).records q ++ rest) :=
  (copyBelow_cases_under stored mem held).imp_right (And.imp_right fun copied => ⟨_, copied⟩)

/-- A tree becomes a copy of the subtree at `k`, unless the children of some node there clash. -/
theorem becomeCopy_cases (stored : source.Stores p f sourceRest) (mem : k ∈ f.nodes)
    (t : Tree α) :
    (∃ c, k.backward.find? (Sprig.clashes t.policy) = some c ∧
        (t.becomeCopy source k.handle k.value).outcome = .refused (.duplicateKey c.handle)) ∨
      k.backward.find? (Sprig.clashes t.policy) = none ∧ ∃ n partner,
        (t.becomeCopy source k.handle k.value).outcome = .done n ∧
        (t.becomeCopy source k.handle k.value).tree.Shows
          (ofSprigs [k.replica t.policy partner]) := by
  have held : (t.setRoot k.value).arena.Holds ((t.freshRoot, ⟨k.value, none, []⟩) :: []) :=
    (Arena.Holds.clear t.arena).allocate _
  rcases copyBelow_cases stored mem held with refused | ⟨clear, n, partner, done, named, holds⟩
  · exact .inl refused
  · refine .inr ⟨clear, n, partner, done, ?_, ?_⟩
    · have root := (keptByBuilding_root (some t.freshRoot)).copyBelow (t := t.setRoot k.value) rfl
        source k.handle t.freshRoot
      rw [becomeCopy, root, roots_ofSprigs, List.map_singleton, Sprig.handle_replica, named]
      rfl
    · rw [stores_nil_iff, records_eq_flatMap, sprigs_ofSprigs, List.flatMap_singleton]
      rwa [List.append_nil] at holds

end Tree

end PolicyTree
