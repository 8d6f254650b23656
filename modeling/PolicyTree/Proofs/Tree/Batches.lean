import PolicyTree.Proofs.Arrangement
import PolicyTree.Proofs.Tree.Insertion

/-! Values inserted one by one under one node: their sequence does not matter to the keys there. -/

namespace PolicyTree

open Forest

variable {α : Type} {cmp : α → α → Ordering} {xs ys zs out out' : List α} {x y : α}

/-! ## Lists in order with the same keys -/

/-- Every entry of `xs` has the key of an entry of `ys`. -/
def KeysIn (cmp : α → α → Ordering) (xs ys : List α) : Prop := ∀ x ∈ xs, ∃ y ∈ ys, cmp x y = .eq

section Keys

variable [Std.TransCmp cmp]

theorem KeysIn.trans (first : KeysIn cmp xs ys) (second : KeysIn cmp ys zs) : KeysIn cmp xs zs := by
  intro x mem
  obtain ⟨y, inside, same⟩ := first x mem
  obtain ⟨z, last, equal⟩ := second y inside
  exact ⟨z, last, Std.TransCmp.eq_trans same equal⟩

/-- What is less than the first entry of a list in order has the key of none. -/
theorem not_exists_key_of_lt (above : ∀ z ∈ ys, cmp y z = .lt) (less : cmp x y = .lt) :
    ¬∃ z ∈ y :: ys, cmp x z = .eq := by
  rintro ⟨z, mem, same⟩
  rcases List.mem_cons.mp mem with rfl | later
  · rw [same] at less
    cases less
  · rw [Std.TransCmp.lt_trans less (above z later)] at same
    cases same

/-- Where the first keys agree, so do those after them. -/
theorem KeysIn.tail (above : ∀ z ∈ xs, cmp x z = .lt) (keys : KeysIn cmp (x :: xs) (y :: ys))
    (same : cmp x y = .eq) : KeysIn cmp xs ys := by
  intro z mem
  obtain ⟨w, inside, equal⟩ := keys z (List.mem_cons_of_mem _ mem)
  rcases List.mem_cons.mp inside with rfl | later
  · have less := above z mem
    rw [Std.TransCmp.eq_trans same (Std.OrientedCmp.eq_symm equal)] at less
    cases less
  · exact ⟨w, later, equal⟩

/-- Lists in order with the same keys have them in the same places. -/
theorem Ascending.forall₂_of_keysIn (first : Ascending cmp xs) (second : Ascending cmp ys)
    (into : KeysIn cmp xs ys) (back : KeysIn cmp ys xs) :
    List.Forall₂ (fun x y => cmp x y = .eq) xs ys := by
  induction xs generalizing ys with
  | nil =>
    cases ys with
    | nil => exact .nil
    | cons y ys =>
      obtain ⟨z, mem, -⟩ := back y (List.mem_cons_self ..)
      cases mem
  | cons x xs ih =>
    cases ys with
    | nil =>
      obtain ⟨z, mem, -⟩ := into x (List.mem_cons_self ..)
      cases mem
    | cons y ys =>
      obtain ⟨aboveX, restX⟩ := List.pairwise_cons.mp first
      obtain ⟨aboveY, restY⟩ := List.pairwise_cons.mp second
      -- The lesser of the first two entries would have no counterpart in the other list.
      have same : cmp x y = .eq := by
        cases relation : cmp x y with
        | eq => rfl
        | lt =>
          exact absurd (into x (List.mem_cons_self ..)) (not_exists_key_of_lt aboveY relation)
        | gt =>
          have less := Std.OrientedCmp.lt_of_gt relation
          exact absurd (back y (List.mem_cons_self ..)) (not_exists_key_of_lt aboveX less)
      exact .cons same (ih restX restY (into.tail aboveX same)
        (back.tail aboveY (Std.OrientedCmp.eq_symm same)))

/-- Lists in order with the same entries are equal. -/
theorem Ascending.eq_of_perm (first : Ascending cmp xs) (second : Ascending cmp ys)
    (same : xs.Perm ys) : xs = ys := by
  refine same.eq_of_pairwise (fun a b _ _ less greater => ?_) first second
  rw [Std.OrientedCmp.gt_of_lt less] at greater
  cases greater

end Keys

/-! ## Values let in and left out -/

/-- From `xs` and the values `ys`, those let in are in order in `zs`, and those of `out` were left
out because a value with their key is in. -/
structure Merges (cmp : α → α → Ordering) (xs ys zs out : List α) : Prop where
  perm : (zs ++ out).Perm (xs ++ ys)
  ascending : Ascending cmp zs
  covered : KeysIn cmp out zs

namespace Merges

theorem nil (asc : Ascending cmp xs) : Merges cmp xs [] xs [] where
  perm := .refl _
  ascending := asc
  covered := List.forall_mem_nil _

variable [Std.TransCmp cmp]

theorem keysIn (merges : Merges cmp xs ys zs out) : KeysIn cmp (xs ++ ys) zs := by
  intro x mem
  rcases List.mem_append.mp (merges.perm.mem_iff.mpr mem) with inside | left
  · exact ⟨x, inside, Std.ReflCmp.compare_self⟩
  · exact merges.covered x left

theorem keysIn_of_perm (merges : Merges cmp xs ys zs out) {all : List α}
    (same : (xs ++ ys).Perm all) : KeysIn cmp zs all := fun x mem =>
  ⟨x, (merges.perm.trans same).mem_iff.mp (List.mem_append_left _ mem), Std.ReflCmp.compare_self⟩

/-- One more value, left out because its key was there from the start. -/
theorem skip (merges : Merges cmp xs ys zs out) (mem : y ∈ xs) (same : cmp x y = .eq) :
    Merges cmp xs (x :: ys) zs (x :: out) where
  perm := (List.perm_middle.trans (merges.perm.cons x)).trans List.perm_middle.symm
  ascending := merges.ascending
  covered := by
    obtain ⟨z, inside, equal⟩ := merges.keysIn y (List.mem_append_left _ mem)
    exact List.forall_mem_cons.mpr
      ⟨⟨z, inside, Std.TransCmp.eq_trans same equal⟩, merges.covered⟩

omit [Std.TransCmp cmp] in
/-- One more value, let in from the start. -/
theorem accept {xs' : List α} (merges : Merges cmp xs' ys zs out) (grown : xs'.Perm (x :: xs)) :
    Merges cmp xs (x :: ys) zs out where
  perm := merges.perm.trans ((grown.append_right ys).trans List.perm_middle.symm)
  ascending := merges.ascending
  covered := merges.covered

/-- The keys that are in at the end do not hang on the sequence. -/
theorem forall₂ {ys' zs' : List α} (first : Merges cmp xs ys zs out)
    (second : Merges cmp xs ys' zs' out') (same : ys.Perm ys') :
    List.Forall₂ (fun x y => cmp x y = .eq) zs zs' := by
  have turned := same.append_left xs
  apply first.ascending.forall₂_of_keysIn second.ascending
  · exact (first.keysIn_of_perm turned).trans second.keysIn
  · exact (second.keysIn_of_perm turned.symm).trans first.keysIn

theorem length_out_eq {ys' zs' : List α} (first : Merges cmp xs ys zs out)
    (second : Merges cmp xs ys' zs' out') (same : ys.Perm ys') : out.length = out'.length := by
  have before := first.perm.length_eq
  have after := second.perm.length_eq
  have kept := (first.forall₂ second same).length_eq
  have given := same.length_eq
  simp only [List.length_append] at before after
  omega

/-- Among values with different keys none is left out. -/
theorem out_eq_nil (merges : Merges cmp xs ys zs out)
    (differ : Policy.Unalike cmp id (xs ++ ys)) : out = [] := by
  apply List.eq_nil_iff_forall_not_mem.mpr
  intro x left
  obtain ⟨y, inside, same⟩ := merges.covered x left
  have apart := (List.pairwise_append.mp ((Policy.unalike_perm merges.perm).mpr differ)).2.2
  exact apart y inside x left (Std.OrientedCmp.eq_symm same)

end Merges

namespace Tree

variable {t : Tree α} {f : Forest α} {s : Sprig α} {p : Handle}

/-- The values of the children listed at `p`. -/
def childValues (t : Tree α) (p : Handle) : List α := t.valuesAt (t.childrenAt p)

/-- Inserts values under `p` one by one, whatever becomes of each, and answers the outcomes. -/
def insertAll (t : Tree α) (p : Handle) : List α → List (Outcome Handle) × Tree α
  | [] => ([], t)
  | x :: xs =>
    let rest := (t.insert p x).tree.insertAll p xs
    ((t.insert p x).outcome :: rest.1, rest.2)

theorem insertAll_of_refused {e : TreeError} (refused : t.insert p x = t.refuse e) (xs : List α) :
    t.insertAll p (x :: xs) = (.refused e :: (t.insertAll p xs).1, (t.insertAll p xs).2) := by
  rw [insertAll, refused]
  rfl

theorem insertAll_of_done {t' : Tree α} {h : Handle} (done : t.insert p x = t'.answer h)
    (xs : List α) :
    t.insertAll p (x :: xs) = (.done h :: (t'.insertAll p xs).1, (t'.insertAll p xs).2) := by
  rw [insertAll, done]
  rfl

theorem Stores.childValues_eq {q : Option Handle} {rest : List (Handle × Node α)}
    (stores : t.Stores q f rest) (mem : s ∈ f.nodes) :
    t.childValues s.handle = s.below.rootValues := by
  rw [childValues, stores.childrenAt_eq mem, stores.valuesAt_roots mem]

/-- Insertions one by one merge the values into those of the children, and are refused for those
left out. -/
theorem Shows.insertAll_merges (shows : t.Shows f) (mem : s ∈ f.nodes)
    (sorts : t.policy.SortsBy cmp) (asc : Ascending cmp s.below.rootValues) (xs : List α) :
    (∀ o ∈ (t.insertAll s.handle xs).1,
        o.isDone = true ∨ o = .refused (.duplicateKey s.handle)) ∧
      ∃ out, Merges cmp s.below.rootValues xs ((t.insertAll s.handle xs).2.childValues s.handle)
          out ∧
        (t.insertAll s.handle xs).1.count (.refused (.duplicateKey s.handle)) = out.length := by
  have := sorts.trans
  -- The tree changes with every value let in, so the induction leaves it and its forest open.
  induction xs generalizing t f s with
  | nil =>
    refine ⟨List.forall_mem_nil _, [], ?_, rfl⟩
    rw [insertAll, shows.stores.childValues_eq mem]
    exact .nil asc
  | cons x xs ih =>
    rcases shows.stores.insert_cases mem x with ⟨i, place, refused⟩ | ⟨i, place, done⟩
    · obtain ⟨each, out, merges, counted⟩ := ih shows mem sorts asc
      rw [sorts.place] at place
      obtain ⟨y, entry, same⟩ := getElem?_of_keyedPlace_eq_taken place
      rw [insertAll_of_refused refused, List.count_cons_self, counted]
      exact ⟨List.forall_mem_cons.mpr ⟨.inr rfl, each⟩, x :: out,
        merges.skip (List.mem_of_getElem? entry) (Std.OrientedCmp.eq_symm same), rfl⟩
    · have here := mem_nodes_mapBelow_self shows.nodup mem (plantAt i ⟨t.arena.fresh, x, nil⟩)
      have sorted : Ascending cmp (plantAt i ⟨t.arena.fresh, x, nil⟩ s.below).rootValues :=
        ascending_plantAt sorts asc place
      obtain ⟨each, out, merges, counted⟩ := ih (shows.attach mem i x) here sorts sorted
      have grown := Policy.insertIdx_perm i s.below.rootValues x
      rw [← rootValues_plantAt i ⟨t.arena.fresh, x, nil⟩] at grown
      have other : Outcome.done t.arena.fresh ≠ .refused (.duplicateKey s.handle) := by simp
      rw [insertAll_of_done done, List.count_cons_of_ne other]
      exact ⟨List.forall_mem_cons.mpr ⟨.inl rfl, each⟩, out, merges.accept grown, counted⟩

/-- Where the keys differ and none is there yet, all values are let in. -/
theorem Shows.insertAll_done (shows : t.Shows f) (mem : s ∈ f.nodes)
    (sorts : t.policy.SortsBy cmp) (asc : Ascending cmp s.below.rootValues) {xs : List α}
    (differ : Policy.Unalike cmp id (s.below.rootValues ++ xs)) :
    (∀ o ∈ (t.insertAll s.handle xs).1, o.isDone = true) ∧
      ((t.insertAll s.handle xs).2.childValues s.handle).Perm (s.below.rootValues ++ xs) := by
  have := sorts.trans
  obtain ⟨each, out, merges, counted⟩ := shows.insertAll_merges mem sorts asc xs
  obtain rfl := merges.out_eq_nil differ
  refine ⟨fun o listed => (each o listed).resolve_right ?_, ?_⟩
  · rintro rfl
    exact List.count_eq_zero.mp counted listed
  · simpa using merges.perm

/-- Inserted in another sequence, values give a node children with the same keys in the same places,
and as many of them are refused. If their keys differ and no child has any of them, none is refused
and the children have the same values. -/
theorem Reachable.insertAll_perm (reached : t.Reachable) (keyed : t.policy.BuiltInKeyed cmp)
    (live : t.contains p = true) (same : xs.Perm ys) :
    List.Forall₂ (fun x y => cmp x y = .eq) ((t.insertAll p xs).2.childValues p)
        ((t.insertAll p ys).2.childValues p) ∧
      (t.insertAll p xs).1.count (.refused (.duplicateKey p)) =
        (t.insertAll p ys).1.count (.refused (.duplicateKey p)) ∧
      (∀ o ∈ (t.insertAll p xs).1 ++ (t.insertAll p ys).1,
        o.isDone = true ∨ o = .refused (.duplicateKey p)) ∧
      (xs.Pairwise (fun x y => cmp x y ≠ .eq) → (∀ x ∈ xs, ¬t.HasKey cmp p x) →
        (∀ o ∈ (t.insertAll p xs).1 ++ (t.insertAll p ys).1, o.isDone = true) ∧
          (t.insertAll p xs).2.childValues p = (t.insertAll p ys).2.childValues p) := by
  have sorts := keyed.sortsBy
  have := sorts.trans
  obtain ⟨f, shows, ordered⟩ := reached.exists_ordered_forest sorts
  obtain ⟨s, mem, rfl⟩ := List.mem_map.mp (shows.contains_iff.mp live)
  have asc := ordered s mem
  obtain ⟨each, out, merges, counted⟩ := shows.insertAll_merges mem sorts asc xs
  obtain ⟨each', out', merges', counted'⟩ := shows.insertAll_merges mem sorts asc ys
  refine ⟨merges.forall₂ merges' same, ?_, List.forall_mem_append.mpr ⟨each, each'⟩,
    fun apart new => ?_⟩
  · rw [counted, counted', merges.length_out_eq merges' same]
  · have differ : Policy.Unalike cmp id (s.below.rootValues ++ xs) := by
      refine List.pairwise_append.mpr ⟨Policy.unalike_of_ascending (by simpa using asc), apart,
        fun y inside x given equal => new x given ?_⟩
      rw [shows.hasKey_iff mem sorts asc, sorts.place, asc.keyedPlace_taken_iff]
      exact ⟨y, inside, equal⟩
    have differ' := (Policy.unalike_perm (same.append_left s.below.rootValues)).mp differ
    obtain ⟨all, whole⟩ := shows.insertAll_done mem sorts asc differ
    obtain ⟨all', whole'⟩ := shows.insertAll_done mem sorts asc differ'
    refine ⟨List.forall_mem_append.mpr ⟨all, all'⟩, ?_⟩
    exact merges.ascending.eq_of_perm merges'.ascending
      (whole.trans ((same.append_left _).trans whole'.symm))

/-- The values 9 and 4 come to stand beside 2 and 7, and of 4, 7 and 4 again one is let in. -/
theorem insertAll_perm_sample :
    ((Tree.sample .naturalOrder).insertAll ⟨1, 0, 0⟩ [9, 4]).2.childValues ⟨1, 0, 0⟩ =
        ((Tree.sample .naturalOrder).insertAll ⟨1, 0, 0⟩ [4, 9]).2.childValues ⟨1, 0, 0⟩ ∧
      ((Tree.sample .naturalOrder).insertAll ⟨1, 0, 0⟩ [4, 7, 4]).1.count
          (.refused (.duplicateKey ⟨1, 0, 0⟩)) =
        ((Tree.sample .naturalOrder).insertAll ⟨1, 0, 0⟩ [7, 4, 4]).1.count
          (.refused (.duplicateKey ⟨1, 0, 0⟩)) := by
  have keyed : (Tree.sample .naturalOrder).policy.BuiltInKeyed compare := by
    rw [policy_sample]
    exact .searching .naturalOrder
  have live : (Tree.sample .naturalOrder).contains ⟨1, 0, 0⟩ = true := by decide +kernel
  have children : (Tree.sample .naturalOrder).childrenAt ⟨1, 0, 0⟩ = [⟨1, 2, 0⟩, ⟨1, 1, 0⟩] := by
    decide +kernel
  have values : [⟨1, 2, 0⟩, ⟨1, 1, 0⟩].map (Tree.sample .naturalOrder).get? =
      [some 2, some 7] := by
    decide +kernel
  have spec := fun {xs ys : List Nat} (same : xs.Perm ys) =>
    (reachable_sample .naturalOrder).insertAll_perm keyed live same
  constructor
  · have apart : ∀ x ∈ [9, 4], ∀ y ∈ [2, 7], compare y x ≠ .eq := by decide
    refine ((spec (List.Perm.swap 4 9 [])).2.2.2 (by decide) fun x given => ?_).2
    rintro ⟨c, child, y, valued, same⟩
    rw [children] at child
    have listed := List.mem_map_of_mem (f := (Tree.sample .naturalOrder).get?) child
    rw [values, valued] at listed
    exact apart x given y (by simpa using listed) same
  · exact (spec (List.Perm.swap 7 4 [4])).2.1

end Tree

end PolicyTree
