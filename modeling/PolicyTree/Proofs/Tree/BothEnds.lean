import PolicyTree.Proofs.Tree.Fragments
import PolicyTree.Proofs.Tree.Unrolling

/-! The children of a node, taken from both ends in turn: the ends meet where all are taken. -/

namespace PolicyTree

variable {α β : Type}

/-- The end of a list that a call takes from. -/
inductive Side where
  | front
  | back
deriving DecidableEq

namespace Side

def first? : Side → List β → Option β
  | front => List.head?
  | back => List.getLast?

def others : Side → List β → List β
  | front => List.tail
  | back => List.dropLast

theorem first?_eq_none_iff (side : Side) (l : List β) : side.first? l = none ↔ l = [] := by
  cases side with
  | front => exact List.head?_eq_none_iff
  | back => exact List.getLast?_eq_none_iff

theorem mem_of_first? (side : Side) {x : β} {l : List β} (first : side.first? l = some x) :
    x ∈ l := by
  cases side with
  | front => exact List.mem_of_head? first
  | back => exact List.mem_of_getLast? first

theorem first?_map (side : Side) (f : α → β) (l : List α) :
    side.first? (l.map f) = (side.first? l).map f := by
  cases side with
  | front => exact List.head?_map
  | back => exact List.getLast?_map

theorem others_subset (side : Side) (l : List β) : side.others l ⊆ l := by
  cases side with
  | front => exact fun _ => List.mem_of_mem_tail
  | back => exact List.dropLast_subset l

theorem map_others (side : Side) (f : α → β) (l : List α) :
    (side.others l).map f = side.others (l.map f) := by
  cases side with
  | front => exact List.map_tail
  | back => exact List.map_dropLast

end Side

namespace ChildCursor

variable {c : ChildCursor α} {es : List (Handle × α)}

/-! ## One call -/

def call (c : ChildCursor α) : Side → Option (Handle × α) × ChildCursor α
  | .front => c.next
  | .back => c.nextBack

theorem call_fst (c : ChildCursor α) (side : Side) :
    (c.call side).1 = (side.first? c.handles).bind c.resolve := by
  cases side <;> rfl

theorem call_snd (c : ChildCursor α) (side : Side) :
    (c.call side).2 = ⟨c.arena, side.others c.handles⟩ := by
  cases side <;> rfl

/-- Each of the nodes `es` is live, and they are still to come. -/
structure Offers (c : ChildCursor α) (es : List (Handle × α)) : Prop where
  handles_eq : c.handles = es.map Prod.fst
  resolve_eq : ∀ e ∈ es, c.resolve e.1 = some e

namespace Offers

theorem len_eq (offers : c.Offers es) : c.len = es.length := by
  rw [len, offers.handles_eq, List.length_map]

theorem entries_eq (offers : c.Offers es) : c.entries = es := by
  rw [entries, offers.handles_eq, List.filterMap_map]
  calc es.filterMap (c.resolve ∘ Prod.fst)
      = es.filterMap some := List.filterMap_congr offers.resolve_eq
    _ = es := List.filterMap_some

theorem call_fst (offers : c.Offers es) (side : Side) : (c.call side).1 = side.first? es := by
  rw [ChildCursor.call_fst, offers.handles_eq, side.first?_map]
  cases first : side.first? es with
  | none => rfl
  | some e => exact offers.resolve_eq e (side.mem_of_first? first)

theorem call_snd (offers : c.Offers es) (side : Side) :
    (c.call side).2.Offers (side.others es) := by
  rw [ChildCursor.call_snd, offers.handles_eq, ← side.map_others]
  exact ⟨rfl, fun e mem => offers.resolve_eq e (side.others_subset es mem)⟩

theorem call_eq_none_iff (offers : c.Offers es) (side : Side) :
    (c.call side).1 = none ↔ c.len = 0 := by
  rw [offers.call_fst, side.first?_eq_none_iff, offers.len_eq, List.length_eq_zero_iff]

end Offers

/-! ## All calls -/

def after (c : ChildCursor α) (calls : List Side) : ChildCursor α :=
  calls.foldl (fun c side => (c.call side).2) c

theorem after_append (c : ChildCursor α) (calls later : List Side) :
    c.after (calls ++ later) = (c.after calls).after later :=
  List.foldl_append

/-- What the calls on one side answered, one after the other. -/
def yielded (side : Side) : ChildCursor α → List Side → List (Handle × α)
  | _, [] => []
  | c, s :: calls =>
    (if s = side then (c.call s).1.toList else []) ++ yielded side (c.call s).2 calls

/-- Between what the front has answered and what the back has answered, the rest is still offered. -/
theorem Offers.after (offers : c.Offers es) (calls : List Side) :
    ∃ rest, (c.after calls).Offers rest ∧
      es = yielded .front c calls ++ rest ++ (yielded .back c calls).reverse := by
  induction calls generalizing c es with
  | nil => exact ⟨es, offers, by simp [yielded]⟩
  | cons side calls ih =>
    -- The first call takes one node off its end, and the later calls share out what it leaves.
    obtain ⟨rest, onward, split⟩ := ih (offers.call_snd side)
    refine ⟨rest, onward, ?_⟩
    simp only [yielded, offers.call_fst]
    cases side with
    | front =>
      have whole : es = es.head?.toList ++ es.tail := by cases es <;> rfl
      rw [Side.others, List.append_assoc] at split
      simp only [if_pos, reduceCtorEq, if_false, List.nil_append, List.append_assoc, ← split]
      exact whole
    | back =>
      have whole : es = es.dropLast ++ es.getLast?.toList.reverse := by
        rcases es.eq_nil_or_concat with rfl | ⟨front, e, rfl⟩ <;> simp
      rw [Side.others] at split
      simp only [if_pos, reduceCtorEq, if_false, List.nil_append, List.reverse_append]
      rw [← List.append_assoc, ← split]
      exact whole

theorem Offers.call_after_eq_none (offers : c.Offers es) (spent : c.len = 0) (later : List Side)
    (side : Side) : ((c.after later).call side).1 = none := by
  obtain ⟨rest, onward, split⟩ := offers.after later
  rw [onward.call_eq_none_iff, onward.len_eq]
  have count := congrArg List.length split
  rw [← offers.len_eq, spent, List.length_append, List.length_append] at count
  omega

/-! ## Main result -/

/-- After the calls, `es` is what the front has answered, what is still to come and what the back
has answered, and only where nothing is to come a call answers nothing. -/
structure Shares (c : ChildCursor α) (es : List (Handle × α)) (calls : List Side) : Prop where
  covers : yielded .front c calls ++ (c.after calls).entries ++ (yielded .back c calls).reverse = es
  len_eq : (c.after calls).len = (c.after calls).entries.length
  len_add : (c.after calls).len + (yielded .front c calls).length + (yielded .back c calls).length =
    es.length
  distinct : ((yielded .front c calls ++ (c.after calls).entries ++ yielded .back c calls).map
    Prod.fst).Nodup
  call_eq_none_iff : ∀ side, ((c.after calls).call side).1 = none ↔ (c.after calls).len = 0
  spent : (c.after calls).len = 0 → ∀ later side, ((c.after (calls ++ later)).call side).1 = none

theorem Offers.shares (offers : c.Offers es) (distinct : (es.map Prod.fst).Nodup)
    (calls : List Side) : c.Shares es calls := by
  obtain ⟨rest, onward, split⟩ := offers.after calls
  have count := congrArg List.length split
  rw [List.length_append, List.length_append, List.length_reverse] at count
  constructor
  case covers => rw [onward.entries_eq, ← split]
  case len_eq => rw [onward.entries_eq, onward.len_eq]
  case len_add =>
    rw [onward.len_eq]
    omega
  case distinct =>
    have same := List.Perm.append_left (yielded .front c calls ++ rest)
      (List.reverse_perm (yielded .back c calls))
    rw [← split] at same
    rw [onward.entries_eq]
    exact (same.map Prod.fst).nodup distinct
  case call_eq_none_iff => exact onward.call_eq_none_iff
  case spent =>
    intro spent later side
    rw [after_append]
    exact onward.call_after_eq_none spent later side

end ChildCursor

namespace Tree

open Forest

variable {t : Tree α} {f : Forest α} {q : Option Handle} {rest : List (Handle × Node α)}
  {s : Sprig α} {h : Handle} {n : Node α}

theorem Stores.offers (stores : t.Stores q f rest) (mem : s ∈ f.nodes) :
    ChildCursor.Offers ⟨t.arena, s.below.roots⟩ (s.below.sprigs.map Sprig.entry) where
  handles_eq := by
    rw [List.map_map]
    rfl
  resolve_eq := by
    intro e listed
    obtain ⟨c, child, rfl⟩ := List.mem_map.mp listed
    have stored : t.arena.get? c.handle = _ := stores.node?_of_child mem child
    rw [ChildCursor.resolve, Sprig.entry, stored]
    rfl

/-- Whatever the policy answers: however calls at the front and at the back follow each other, they
go through the children of a live node once, and the ends meet where none is left. -/
theorem Reachable.children_from_both_ends (reached : t.Reachable) (live : t.node? h = some n) :
    ∃ c es, t.childrenOf h = .ok c ∧ es.map Prod.fst = n.children ∧
      (∀ e ∈ es, t.get? e.1 = some e.2) ∧ ∀ calls, c.Shares es calls := by
  obtain ⟨q, f, rest, stores, s, mem, rfl⟩ :=
    reached.exists_stored (Arena.contains_iff.mpr ⟨n, live⟩)
  obtain ⟨p, stored⟩ := stores.exists_node? mem
  rw [stored] at live
  cases live
  have offers := stores.offers mem
  have listed : s.below.roots = (s.below.sprigs.map Sprig.entry).map Prod.fst := offers.handles_eq
  refine ⟨_, _, ?_, listed.symm, fun e child => ?_, fun calls => offers.shares ?_ calls⟩
  · rw [childrenOf, children, node, stored]
    rfl
  · obtain ⟨c, below, rfl⟩ := List.mem_map.mp child
    rw [Sprig.entry, get?, stores.node?_of_child mem below]
    rfl
  · rw [← listed]
    exact nodup_roots_below stores.nodup mem

/-- The back takes the last of two children, the front the other, and there is no third. -/
theorem children_from_both_ends_sample :
    (∃ n, (Tree.sample .insertionOrder).node? ⟨1, 0, 0⟩ = some n ∧
      n.children = [⟨1, 1, 0⟩, ⟨1, 2, 0⟩] ∧
      ∃ c es, (Tree.sample .insertionOrder).childrenOf ⟨1, 0, 0⟩ = .ok c ∧
        es.map Prod.fst = n.children ∧
        (∀ e ∈ es, (Tree.sample .insertionOrder).get? e.1 = some e.2) ∧
        ∀ calls, c.Shares es calls) ∧
      ((Tree.sample .insertionOrder).childrenOf ⟨1, 0, 0⟩).toOption.map (fun c =>
        (c.yielded .front [.back, .front, .back], c.yielded .back [.back, .front, .back])) =
          some ([(⟨1, 1, 0⟩, 7)], [(⟨1, 2, 0⟩, 2)]) := by
  have listed : ((Tree.sample .insertionOrder).node? ⟨1, 0, 0⟩).map Node.children =
      some [⟨1, 1, 0⟩, ⟨1, 2, 0⟩] := by decide +kernel
  obtain ⟨n, live, children⟩ := Option.map_eq_some_iff.mp listed
  refine ⟨⟨n, live, children, ?_⟩, by decide +kernel⟩
  exact (reachable_sample .insertionOrder).children_from_both_ends live

end Tree

end PolicyTree
