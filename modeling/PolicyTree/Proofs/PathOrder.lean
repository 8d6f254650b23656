import PolicyTree.Proofs.Paths

/-! The order of paths: a path stands directly before those that go on from it, and other paths stand
before all of these or after them. -/

namespace PolicyTree

/-! ## Segments -/

theorem stretches_eq_splitOn (cs : List Char) : stretches cs = cs.splitOn '/' := by
  induction cs with
  | nil => rfl
  | cons c cs ih => simp only [stretches, List.splitOn_cons_eq_if_modifyHead, ih, beq_iff_eq]

/-- A separator only separates: how many stand in one place makes no difference. -/
theorem segments_append_separator (cs ds : List Char) :
    segments (cs ++ '/' :: ds) = segments cs ++ segments ds := by
  simp only [segments, stretches_eq_splitOn, List.splitOn_append_cons_self, List.filter_append]

/-! ## Lists that begin alike -/

section Lists

variable {κ : Type} [Ord κ] [Std.TransOrd κ] {l m n : List κ}

theorem isLE_of_begins (begins : l <+: m) : (compare l m).isLE := by
  obtain ⟨tail, rfl⟩ := begins
  have start := PathLike.compare_append_left l [] tail
  rw [List.append_nil] at start
  rw [start]
  cases tail <;> rfl

/-- What stands between a list and one that it begins, begins with it too. -/
theorem prefix_of_between [Std.LawfulEqOrd κ] (begins : l <+: n) (lower : (compare l m).isLE)
    (upper : (compare m n).isLE) : l <+: m := by
  induction l generalizing m n with
  | nil => exact List.nil_prefix
  | cons c l ih =>
    cases n with
    | nil => simp at begins
    | cons e n =>
      obtain ⟨rfl, shorter⟩ := List.cons_prefix_cons.mp begins
      cases m with
      | nil => simp at lower
      | cons d m =>
        rw [List.compare_cons_cons, Ordering.isLE_then_iff_and] at lower upper
        -- The first segments bound one another, so the comparison is left to the rest.
        have first : compare c d = .eq := Std.OrientedCmp.isLE_antisymm lower.1 upper.1
        obtain rfl := Std.LawfulEqCmp.eq_of_compare first
        rw [List.cons_prefix_cons]
        exact ⟨rfl, ih shorter (by simpa using lower.2) (by simpa using upper.2)⟩

/-- A list that does not go on from another compares with all that do as it does with that one. -/
theorem compare_eq_of_begins [Std.LawfulEqOrd κ] (begins : l <+: n) (apart : ¬l <+: m) :
    compare m n = compare m l := by
  have above := isLE_of_begins begins
  cases order : compare m l with
  | lt => exact Std.TransCmp.lt_of_lt_of_isLE order above
  | eq =>
    obtain rfl := Std.LawfulEqCmp.eq_of_compare order
    exact absurd (List.prefix_refl m) apart
  | gt =>
    cases order' : compare m n with
    | gt => rfl
    | _ =>
      have below : compare l m = .lt := Std.OrientedCmp.lt_of_gt order
      exact absurd (prefix_of_between begins (by simp [below]) (by simp [order'])) apart

end Lists

/-! ## File entries -/

namespace FileEntry

variable {a b c d : FileEntry}

/-- Feeds the segments one by one to a hasher with the given state. -/
def feed {σ : Type} (write : σ → String → σ) (state : σ) (e : FileEntry) : σ :=
  e.components.foldl write state

/-- The path of `d` is that of `a` or goes on from it. -/
def Begins (a d : FileEntry) : Prop := a.components <+: d.components

theorem compare_eq_iff_components : compare a b = .eq ↔ a.components = b.components :=
  PathLike.compare_eq_iff

theorem compare_eq_iff_segments :
    compare a b = .eq ↔ segments a.path.toList = segments b.path.toList := by
  rw [compare_eq_iff_components]
  exact List.map_inj_right fun _ _ => String.ofList_injective

/-- How many separators stand together, at the ends or between segments, is not seen, and neither is
whether the entry is a directory. -/
theorem compare_separators (s t : String) (i j : Bool) :
    compare (⟨s ++ "//" ++ t, i⟩ : FileEntry) ⟨s ++ "/" ++ t, j⟩ = .eq ∧
      compare (⟨"/" ++ s, i⟩ : FileEntry) ⟨s, j⟩ = .eq ∧
      compare (⟨s ++ "/", i⟩ : FileEntry) ⟨s, j⟩ = .eq := by
  simp only [compare_eq_iff_segments]
  refine ⟨?_, ?_, ?_⟩
  · simp [segments_append_separator]
  · simp
  · simp [segments_append_separator]

/-! ## The order -/

/-- Paths compare as what stands between their separators, empty stretches left out: they are equal,
and hash alike, if these are the same. What a path begins comes directly after it, and what it does
not begin is on one side of all this. -/
theorem ordered_by_segments (a b c d : FileEntry) :
    Std.TransOrd FileEntry ∧
      (compare a b = .eq ↔ (a.path.toList.splitOn '/').filter (!·.isEmpty) =
        (b.path.toList.splitOn '/').filter (!·.isEmpty)) ∧
      ((a == b) = true ↔ compare a b = .eq) ∧
      ((a == b) = true → hash a = hash b ∧
        ∀ {σ : Type} (write : σ → String → σ) (state : σ), a.feed write state = b.feed write state) ∧
      (∀ (s t : String) (i j : Bool),
        compare (⟨s ++ "//" ++ t, i⟩ : FileEntry) ⟨s ++ "/" ++ t, j⟩ = .eq ∧
        compare (⟨"/" ++ s, i⟩ : FileEntry) ⟨s, j⟩ = .eq ∧
        compare (⟨s ++ "/", i⟩ : FileEntry) ⟨s, j⟩ = .eq) ∧
      (a.Begins d → (compare a d).isLE ∧ (compare a d = .eq ↔ d.Begins a) ∧
        ((compare a c).isLE → (compare c d).isLE → a.Begins c) ∧
        (¬a.Begins c → compare c d = compare c a)) := by
  have equal : (a == b) = true ↔ compare a b = .eq := by
    show (compare a b == .eq) = true ↔ _
    exact beq_iff_eq
  refine ⟨PathLike.transOrd, ?_, equal, fun same => ?_, compare_separators, fun begins => ?_⟩
  · rw [compare_eq_iff_segments, segments, segments, stretches_eq_splitOn, stretches_eq_splitOn]
  · have components := compare_eq_iff_components.mp (equal.mp same)
    refine ⟨?_, fun write state => ?_⟩
    · show hash a.components = hash b.components
      rw [components]
    · rw [feed, feed, components]
  · refine ⟨isLE_of_begins begins, ?_, prefix_of_between begins, compare_eq_of_begins begins⟩
    rw [compare_eq_iff_components]
    constructor
    · intro same
      exact ⟨[], by rw [List.append_nil, same]⟩
    · intro back
      exact begins.eq_of_length_le back.length_le

/-- A name that goes on with a character below the separator comes after all in the directory. -/
theorem ordered_by_segments_sample :
    Begins ⟨"/b/", true⟩ ⟨"b//x", false⟩ ∧ ¬Begins ⟨"/b/", true⟩ ⟨"/b-x", false⟩ ∧
      compare (⟨"/b-x", false⟩ : FileEntry) ⟨"/b/", true⟩ = .gt ∧
      compare (⟨"/b-x", false⟩ : FileEntry) ⟨"b//x", false⟩ = .gt := by
  have begins : Begins ⟨"/b/", true⟩ ⟨"b//x", false⟩ := ⟨["x"], by decide +kernel⟩
  have apart : ¬Begins ⟨"/b/", true⟩ ⟨"/b-x", false⟩ := by
    unfold Begins
    decide +kernel
  have above : compare (⟨"/b-x", false⟩ : FileEntry) ⟨"/b/", true⟩ = .gt := by decide +kernel
  obtain ⟨-, -, -, -, -, order⟩ :=
    ordered_by_segments ⟨"/b/", true⟩ ⟨"/b/", true⟩ ⟨"/b-x", false⟩ ⟨"b//x", false⟩
  exact ⟨begins, apart, above, ((order begins).2.2.2 apart).trans above⟩

end FileEntry

end PolicyTree
