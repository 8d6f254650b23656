import Mathlib.Data.List.DropRight
import PolicyTree.Proofs.PathOrder

/-! Going up from a path: each parent has one segment less than the path below it, and the way ends
where no segment stands behind a separator. -/

namespace PolicyTree

variable {cs front name : List Char}

/-! ## Segments -/

theorem stretches_of_notMem (single : '/' ∉ name) : stretches name = [name] := by
  induction name with
  | nil => rfl
  | cons c name ih =>
    obtain ⟨other, later⟩ := not_or.mp (mt List.mem_cons.mpr single)
    rw [stretches, if_neg (Ne.symm other), ih later]
    rfl

/-- Without separators there is one segment, unless there is nothing at all. -/
theorem segments_of_notMem (single : '/' ∉ name) :
    segments name = if name = [] then [] else [name] := by
  cases name <;> simp [segments, stretches_of_notMem single]

theorem segments_of_forall_eq {seps : List Char} (all : ∀ c ∈ seps, c = '/') :
    segments seps = [] := by
  induction seps with
  | nil => rfl
  | cons c seps ih =>
    obtain ⟨rfl, later⟩ := List.forall_mem_cons.mp all
    rw [segments_separator, ih later]

/-- What begins with another character has a segment. -/
theorem segments_ne_nil {c : Char} (other : c ≠ '/') : segments (c :: cs) ≠ [] := by
  by_cases mem : '/' ∈ cs
  · obtain ⟨front, back, rfl, single⟩ := List.eq_append_cons_of_mem mem
    have first : '/' ∉ c :: front := List.not_mem_cons_of_ne_of_not_mem other.symm single
    rw [← List.cons_append, segments_append_separator, segments_of_notMem first]
    simp
  · rw [segments_of_notMem (List.not_mem_cons_of_ne_of_not_mem other.symm mem)]
    simp

namespace FileEntry

variable {e : FileEntry} {p : String} {ps qs : List String}

/-- The path without the separators at its end. -/
def trimmed (e : FileEntry) : List Char := e.path.toList.rdropWhile (· == '/')

theorem exists_trimmed_append (e : FileEntry) :
    ∃ seps, e.path.toList = e.trimmed ++ seps ∧ ∀ c ∈ seps, c = '/' := by
  refine ⟨e.path.toList.rtakeWhile (· == '/'), (List.rdropWhile_append_rtakeWhile ..).symm, ?_⟩
  intro c mem
  exact beq_iff_eq.mp (List.mem_rtakeWhile_imp (p := (· == '/')) mem)

theorem segments_trimmed (e : FileEntry) : segments e.trimmed = segments e.path.toList := by
  obtain ⟨seps, split, all⟩ := e.exists_trimmed_append
  rw [split]
  cases seps with
  | nil => rw [List.append_nil]
  | cons c seps =>
    obtain ⟨rfl, later⟩ := List.forall_mem_cons.mp all
    rw [segments_append_separator, segments_of_forall_eq later, List.append_nil]

/-! ## One step up -/

/-- `p` is what stands before the last separator of the trimmed path, with `name` behind it. -/
structure Splits (e : FileEntry) (p : String) (name : List Char) : Prop where
  trimmed_eq : ∃ front, e.trimmed = front ++ '/' :: name ∧
    p = if front = [] then "/" else String.ofList front
  single : '/' ∉ name
  nonempty : name ≠ []

theorem parentPath?_eq (e : FileEntry) :
    e.parentPath? = match e.trimmed.reverse.dropWhile (· != '/') with
      | [] => none
      | [_] => some "/"
      | _ :: front => some (String.ofList front.reverse) := by
  rw [trimmed, List.rdropWhile, List.reverse_reverse]
  rfl

theorem parentPath?_cases (e : FileEntry) :
    ('/' ∉ e.trimmed ∧ e.parentPath? = none) ∨
      ∃ p name, e.parentPath? = some p ∧ e.Splits p name := by
  rw [parentPath?_eq]
  by_cases mem : '/' ∈ e.trimmed
  · right
    obtain ⟨back, front, split, single⟩ := List.eq_append_cons_of_mem (List.mem_reverse.mpr mem)
    have whole : e.trimmed = front.reverse ++ '/' :: back.reverse := by
      rw [← List.reverse_reverse e.trimmed, split]
      simp
    have none_inside : ∀ c ∈ back, (c != '/') = true := fun c inside =>
      bne_iff_ne.mpr fun same => single (same ▸ inside)
    refine ⟨_, back.reverse, ?_, ⟨front.reverse, whole, rfl⟩, by simpa using single, ?_⟩
    · rw [split, List.dropWhile_append_of_pos none_inside]
      cases front <;> simp
    · intro empty
      apply List.rdropWhile_last_not (· == '/') e.path.toList (List.ne_nil_of_mem mem)
      change (e.trimmed.getLast _ == '/') = true
      simp [whole, empty]
  · have none_inside : ∀ c ∈ e.trimmed.reverse, (c != '/') = true := fun c inside =>
      bne_iff_ne.mpr fun same => mem (same ▸ List.mem_reverse.mp inside)
    rw [List.dropWhile_eq_nil_iff.mpr none_inside]
    exact .inl ⟨mem, rfl⟩

theorem exists_splits (above : e.parentPath? = some p) : ∃ name, e.Splits p name := by
  rcases e.parentPath?_cases with ⟨-, ended⟩ | ⟨p', name, above', splits⟩
  · rw [ended] at above
    cases above
  · rw [above] at above'
    cases above'
    exact ⟨name, splits⟩

theorem parentPath?_eq_none_iff : e.parentPath? = none ↔ '/' ∉ e.trimmed := by
  rcases e.parentPath?_cases with ⟨single, ended⟩ | ⟨p, name, above, splits⟩
  · exact iff_of_true ended single
  · obtain ⟨front, whole, -⟩ := splits.trimmed_eq
    refine iff_of_false ?_ (not_not_intro (by simp [whole]))
    rw [above]
    exact Option.some_ne_none p

namespace Splits

/-- The path goes on from `p`. -/
theorem exists_append (splits : e.Splits p name) : ∃ tail, tail ≠ "" ∧ e.path = p ++ tail := by
  obtain ⟨front, whole, rfl⟩ := splits.trimmed_eq
  obtain ⟨seps, split, -⟩ := e.exists_trimmed_append
  rw [whole] at split
  by_cases top : front = []
  · refine ⟨String.ofList (name ++ seps), ?_, ?_⟩
    · simp [splits.nonempty]
    · apply String.toList_injective
      simp [split, top]
  · refine ⟨String.ofList ('/' :: name ++ seps), by simp, ?_⟩
    apply String.toList_injective
    simp [split, top]

theorem components_eq (splits : e.Splits p name) (d : Bool) :
    e.components = components ⟨p, d⟩ ++ [String.ofList name] := by
  obtain ⟨front, whole, rfl⟩ := splits.trimmed_eq
  have last : segments name = [name] := by
    rw [segments_of_notMem splits.single, if_neg splits.nonempty]
  have before : segments (if front = [] then "/" else String.ofList front).toList =
      segments front := by
    split
    case isTrue top => rw [top]; rfl
    case isFalse => simp
  rw [components, components, before, ← segments_trimmed, whole, segments_append_separator, last]
  simp

theorem length_lt (splits : e.Splits p name) : p.length < e.path.length := by
  obtain ⟨tail, nonempty, whole⟩ := splits.exists_append
  rw [whole, String.length_append]
  exact Nat.lt_add_of_pos_right (Nat.pos_of_ne_zero (mt String.length_eq_zero_iff.mp nonempty))

theorem utf8ByteSize_lt (splits : e.Splits p name) :
    p.utf8ByteSize < e.path.utf8ByteSize := by
  obtain ⟨tail, nonempty, whole⟩ := splits.exists_append
  rw [whole, String.utf8ByteSize_append]
  exact Nat.lt_add_of_pos_right
    (Nat.pos_of_ne_zero (mt String.utf8ByteSize_eq_zero_iff.mp nonempty))

theorem toList_ne_nil (splits : e.Splits p name) : p.toList ≠ [] := by
  obtain ⟨front, -, rfl⟩ := splits.trimmed_eq
  split <;> simp_all

/-- A path that begins with a separator has only such paths above it. -/
theorem head?_eq (splits : e.Splits p name) : e.path.toList.head? = p.toList.head? := by
  obtain ⟨tail, -, whole⟩ := splits.exists_append
  rw [whole, String.toList_append, List.head?_append_of_ne_nil _ splits.toList_ne_nil]

end Splits

/-! ## The way up -/

/-- Going up from `e`, the parents `ps` are met one by one, and then there is none. What a parent is
taken for, a directory or not, makes no difference. -/
inductive Rises : FileEntry → List String → Prop where
  | top {e : FileEntry} (ended : e.parentPath? = none) : Rises e []
  | step {e : FileEntry} {p : String} {ps : List String} (above : e.parentPath? = some p) (d : Bool)
      (onward : Rises ⟨p, d⟩ ps) : Rises e (p :: ps)

namespace Rises

theorem of_path_eq {e' : FileEntry} (rises : e.Rises ps) (same : e'.path = e.path) :
    e'.Rises ps := by
  have parent : e'.parentPath? = e.parentPath? := by rw [parentPath?, parentPath?, same]
  cases rises with
  | top ended => exact .top (parent.trans ended)
  | step above d onward => exact .step (parent.trans above) d onward

theorem unique (first : e.Rises ps) (second : e.Rises qs) : ps = qs := by
  induction first generalizing qs with
  | top ended =>
    cases second with
    | top => rfl
    | step above =>
      rw [ended] at above
      cases above
  | step above d _ ih =>
    cases second with
    | top ended =>
      rw [ended] at above
      cases above
    | step above' d' onward' =>
      rw [above] at above'
      cases above'
      rw [ih (onward'.of_path_eq rfl)]

/-- There are as many parents as segments if the path begins with a separator, and else one less. -/
theorem length_eq (rises : e.Rises ps) :
    ps.length =
      if e.path.toList.head? = some '/' then e.components.length else e.components.length - 1 := by
  induction rises with
  | @top e ended =>
    have single := parentPath?_eq_none_iff.mp ended
    have listed : e.components = (if e.trimmed = [] then [] else [e.trimmed]).map String.ofList := by
      rw [components, ← segments_trimmed, segments_of_notMem single]
    by_cases blank : e.trimmed = []
    · simp [listed, blank]
    · have first : e.path.toList.head? ≠ some '/' := by
        obtain ⟨seps, split, -⟩ := e.exists_trimmed_append
        rw [split, List.head?_append_of_ne_nil _ blank]
        exact fun same => single (List.mem_of_head? same)
      simp [listed, blank, first]
  | @step e p ps above d _ ih =>
    obtain ⟨name, splits⟩ := exists_splits above
    rw [List.length_cons, ih, splits.components_eq d, splits.head?_eq, List.length_append,
      List.length_singleton]
    split
    case isTrue => rfl
    case isFalse relative =>
      -- A relative parent is no bare separator: it has a segment of its own.
      have own : components ⟨p, d⟩ ≠ [] := by
        obtain ⟨c, cs, split⟩ := List.exists_cons_of_ne_nil splits.toList_ne_nil
        simp only [split, List.head?_cons, Option.some.injEq] at relative
        simpa [components, split] using segments_ne_nil relative
      have := List.length_pos_iff.mpr own
      omega

/-- The parents go through the segments from the end: each has one less than the one before. -/
theorem components_eq (rises : e.Rises ps) {k : Nat} (met : ps[k]? = some p) (d : Bool) :
    components ⟨p, d⟩ = e.components.take (e.components.length - (k + 1)) := by
  induction rises generalizing k with
  | top => cases met
  | @step e p' ps above d' _ ih =>
    obtain ⟨name, splits⟩ := exists_splits above
    rw [splits.components_eq d', List.length_append, List.length_singleton]
    cases k with
    | zero =>
      cases met
      simp [components]
    | succ k =>
      rw [ih met, List.take_append_of_le_length (by omega)]
      congr 1
      omega

end Rises

theorem exists_rises (e : FileEntry) : ∃ ps, e.Rises ps := by
  induction count : e.path.length using Nat.strongRecOn generalizing e with
  | _ n ih =>
    rcases e.parentPath?_cases with ⟨-, ended⟩ | ⟨p, name, above, splits⟩
    · exact ⟨[], .top ended⟩
    · obtain ⟨ps, onward⟩ := ih p.length (count ▸ splits.length_lt) ⟨p, true⟩ rfl
      exact ⟨p :: ps, .step above true onward⟩

/-- A path has a parent if a separator stands anywhere before those at its end. The parent is
shorter and lacks the last segment, so that the way up ends, after as many steps as there are
segments if the path begins with a separator, and after one less if it does not. -/
theorem parents_by_segments (e : FileEntry) :
    (e.parentPath? = none ↔ '/' ∉ e.path.toList.rdropWhile (· == '/')) ∧
      (∀ p, e.parentPath? = some p → p.length < e.path.length ∧
        p.utf8ByteSize < e.path.utf8ByteSize ∧
        ∃ last, ∀ d, e.components = components ⟨p, d⟩ ++ [last]) ∧
      ∃ ps, (∀ qs, e.Rises qs ↔ qs = ps) ∧
        ps.length = (if e.path.toList.head? = some '/' then e.components.length
          else e.components.length - 1) ∧
        ∀ (k : Nat) p, ps[k]? = some p → ∀ d,
          components ⟨p, d⟩ = e.components.take (e.components.length - (k + 1)) := by
  obtain ⟨ps, rises⟩ := e.exists_rises
  refine ⟨parentPath?_eq_none_iff, fun p above => ?_, ps, fun qs => ?_, rises.length_eq, ?_⟩
  · obtain ⟨name, splits⟩ := exists_splits above
    exact ⟨splits.length_lt, splits.utf8ByteSize_lt, _, splits.components_eq⟩
  · exact ⟨fun other => other.unique rises, fun same => same ▸ rises⟩
  · exact fun k p met d => rises.components_eq met d

/-- Doubled separators stay at the end of a parent and are passed over in the next step. -/
theorem parents_by_segments_sample :
    (⟨"/b//y/g/", true⟩ : FileEntry).Rises ["/b//y", "/b/", "/"] ∧
      ("/b//y".length < "/b//y/g/".length ∧ "/b//y".utf8ByteSize < "/b//y/g/".utf8ByteSize ∧
        ∃ last, ∀ d, components ⟨"/b//y/g/", true⟩ = components ⟨"/b//y", d⟩ ++ [last]) := by
  have first : parentPath? ⟨"/b//y/g/", true⟩ = some "/b//y" := by decide +kernel
  have second : parentPath? ⟨"/b//y", true⟩ = some "/b/" := by decide +kernel
  have third : parentPath? ⟨"/b/", true⟩ = some "/" := by decide +kernel
  have fourth : parentPath? ⟨"/", true⟩ = none := by decide +kernel
  exact ⟨.step first true (.step second true (.step third true (.top fourth))),
    (parents_by_segments ⟨"/b//y/g/", true⟩).2.1 "/b//y" first⟩

end FileEntry

end PolicyTree
