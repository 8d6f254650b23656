import PolicyTree.Proofs.Tree.SiblingOrder
import PolicyTree.Proofs.Tree.Soundness
import PolicyTree.Proofs.Arena.Bindings

/-! What the check of a tree finds out, for trees with arbitrary links. -/

namespace PolicyTree.Tree

open Relation

variable {α : Type} {t : Tree α} {cmp : α → α → Ordering} {h c r : Handle} {n : Node α}
  {hs cs met pending : List Handle} {a : Agenda}

/-! ## One list of children -/

/-- The handles are live and point back to `h`. -/
def PointTo (t : Tree α) (h : Handle) (cs : List Handle) : Prop :=
  ∀ c ∈ cs, ∃ n, t.node? c = some n ∧ n.parent = some h

/-- Children are taken up if they point back and the agenda has room for them. -/
theorem enlist_eq (points : t.PointTo h cs) (room : a.placed + cs.length ≤ t.len) :
    t.enlist h cs a = ⟨⟨a.reached, cs.reverse ++ a.pending⟩, none⟩ := by
  induction cs generalizing a with
  | nil => rfl
  | cons c cs ih =>
    obtain ⟨⟨n, live, parent⟩, others⟩ := List.forall_mem_cons.mp points
    rw [List.length_cons] at room
    rw [enlist, live]
    dsimp only
    rw [if_neg (not_not_intro parent), if_neg (by omega), ih others]
    · simp
    · simp only [Agenda.placed, List.length_cons] at room ⊢
      omega

/-- Children that were taken up point back, and the agenda outgrew the arena by one at most. -/
theorem enlist_of_fault_eq_none (clear : (t.enlist h cs a).fault = none) :
    t.PointTo h cs ∧ t.enlist h cs a = ⟨⟨a.reached, cs.reverse ++ a.pending⟩, none⟩ ∧
      (a.placed ≤ t.len + 1 → a.placed + cs.length ≤ t.len + 1) := by
  induction cs generalizing a with
  | nil => exact ⟨nofun, rfl, id⟩
  | cons c cs ih =>
    rw [enlist] at clear ⊢
    cases live : t.node? c with
    | none => simp [live] at clear
    | some n =>
      simp only [live] at clear ⊢
      by_cases parent : n.parent = some h
      · rw [if_neg (not_not_intro parent)] at clear ⊢
        by_cases full : t.len < a.placed
        · simp [full] at clear
        · rw [if_neg full] at clear ⊢
          obtain ⟨points, done, bounded⟩ := ih clear
          refine ⟨List.forall_mem_cons.mpr ⟨⟨n, live, parent⟩, points⟩, ?_, fun _ => ?_⟩
          · rw [done]
            simp
          · simp only [Agenda.placed, List.length_cons] at bounded full ⊢
            omega
      · simp [parent] at clear

/-! ## The tour of an audit -/

/-- What an audit from the root `r` knows when it has met some nodes and others are pending, and has
found no fault: no node came up twice, and the links seen make one tree. -/
structure Tour (t : Tree α) (r : Handle) (met pending : List Handle) : Prop where
  parentless : ∃ n, t.node? r = some n ∧ n.parent = none
  distinct : (met ++ pending).Nodup
  starts : r ∈ met ++ pending
  live : ∀ h ∈ met ++ pending, t.contains h = true
  linked : ∀ p ∈ met, ∀ c, t.Lists p c →
    c ∈ met ++ pending ∧ ∃ n, t.node? c = some n ∧ n.parent = some p
  listed : ∀ c ∈ met ++ pending, c ≠ r → ∃ p ∈ met, t.Lists p c
  reached : ∀ c ∈ met ++ pending, ReflTransGen t.Lists r c
  settled : ∀ p ∈ met, ∀ n, t.node? p = some n →
    n.children.Nodup ∧ t.siblingFault p n.children = none

theorem mem_children_of_lists (live : t.node? h = some n) (link : t.Lists h c) : c ∈ n.children := by
  obtain ⟨m, live', mem⟩ := link
  rw [live] at live'
  cases live'
  exact mem

theorem tour_start (live : t.node? r = some n) (top : n.parent = none) : t.Tour r [] [r] where
  parentless := ⟨n, live, top⟩
  distinct := List.nodup_singleton r
  starts := List.mem_singleton_self r
  live _ mem := List.mem_singleton.mp mem ▸ Arena.contains_iff.mpr ⟨n, live⟩
  linked _ none_met := absurd none_met List.not_mem_nil
  listed _ mem other := absurd (List.mem_singleton.mp mem) other
  reached _ mem := List.mem_singleton.mp mem ▸ .refl
  settled _ none_met := absurd none_met List.not_mem_nil

namespace Tour

/-- The children of a pending node have not come up before. -/
theorem children_new (tour : t.Tour r met (h :: pending)) (points : t.PointTo h cs) (mem : c ∈ cs) :
    c ∉ met ++ h :: pending := by
  intro before
  obtain ⟨n, live, parent⟩ := points c mem
  have other : c ≠ r := by
    rintro rfl
    obtain ⟨root, isRoot, top⟩ := tour.parentless
    rw [isRoot] at live
    cases live
    rw [top] at parent
    cases parent
  -- The node that listed it before would be its parent too, and so be met and pending at once.
  obtain ⟨p, earlier, link⟩ := tour.listed c before other
  obtain ⟨-, n', live', parent'⟩ := tour.linked p earlier c link
  rw [live] at live'
  cases live'
  rw [parent] at parent'
  cases parent'
  exact (List.nodup_append'.mp tour.distinct).2.2 earlier (List.mem_cons_self ..)

/-- The agenda has room for the children of a pending node. -/
theorem room (tour : t.Tour r met (h :: pending)) (kept : t.arena.Kept) (points : t.PointTo h cs)
    (nodup : cs.Nodup) : (Agenda.mk (met.length + 1) pending).placed + cs.length ≤ t.len := by
  have distinct : (met ++ h :: pending ++ cs).Nodup := List.nodup_append'.mpr
    ⟨tour.distinct, nodup, fun c old child => tour.children_new points child old⟩
  have counted : (met ++ h :: pending ++ cs).length ≤ t.len := by
    apply Arena.length_le_of_live kept distinct
    intro c mem
    rcases List.mem_append.mp mem with old | child
    · exact tour.live c old
    · obtain ⟨n, stored, -⟩ := points c child
      exact Arena.contains_iff.mpr ⟨n, stored⟩
  simp only [List.length_append, List.length_cons] at counted
  simp only [Agenda.placed]
  omega

/-- A tour goes on from a pending node to its children. -/
theorem step (tour : t.Tour r met (h :: pending)) (live : t.node? h = some n)
    (points : t.PointTo h n.children) (nodup : n.children.Nodup)
    (clear : t.siblingFault h n.children = none) :
    t.Tour r (h :: met) (n.children.reverse ++ pending) := by
  have moved : ((h :: met) ++ (n.children.reverse ++ pending)).Perm
      ((met ++ h :: pending) ++ n.children) := by
    rw [List.perm_iff_count]
    intro c
    simp only [List.count_append, List.count_cons, List.count_reverse]
    omega
  have all : ∀ c, c ∈ (h :: met) ++ (n.children.reverse ++ pending) ↔
      c ∈ met ++ h :: pending ∨ c ∈ n.children := by
    intro c
    rw [moved.mem_iff, List.mem_append]
  constructor
  case parentless => exact tour.parentless
  case distinct =>
    rw [moved.nodup_iff, List.nodup_append']
    exact ⟨tour.distinct, nodup, fun c old child => tour.children_new points child old⟩
  case starts => exact (all r).mpr (.inl tour.starts)
  case live =>
    intro c mem
    rcases (all c).mp mem with old | child
    · exact tour.live c old
    · obtain ⟨m, stored, -⟩ := points c child
      exact Arena.contains_iff.mpr ⟨m, stored⟩
  case linked =>
    intro p mem c link
    rcases List.mem_cons.mp mem with rfl | old
    · have child := mem_children_of_lists live link
      exact ⟨(all c).mpr (.inr child), points c child⟩
    · exact (tour.linked p old c link).imp_left fun before => (all c).mpr (.inl before)
  case listed =>
    intro c mem other
    rcases (all c).mp mem with old | child
    · obtain ⟨p, earlier, link⟩ := tour.listed c old other
      exact ⟨p, List.mem_cons_of_mem _ earlier, link⟩
    · exact ⟨h, List.mem_cons_self .., n, live, child⟩
  case reached =>
    intro c mem
    rcases (all c).mp mem with old | child
    · exact tour.reached c old
    · exact (tour.reached h (by simp)).tail ⟨n, live, child⟩
  case settled =>
    intro p mem m stored
    rcases List.mem_cons.mp mem with rfl | old
    · rw [live] at stored
      cases stored
      exact ⟨nodup, clear⟩
    · exact tour.settled p old m stored

/-- A tour meets no more nodes than are stored. -/
theorem length_le (tour : t.Tour r met pending) (kept : t.arena.Kept) :
    met.length + pending.length ≤ t.len := by
  rw [← List.length_append]
  exact Arena.length_le_of_live kept tour.distinct tour.live

/-- At the end of a tour that met as many nodes as are stored, all links make one tree. -/
theorem rooted (tour : t.Tour r met []) (kept : t.arena.Kept) (all : met.length = t.len)
    (root : t.root = some r) : t.Rooted := by
  have whole : met ++ [] = met := List.append_nil met
  have met_of_live : ∀ {h}, t.contains h = true → h ∈ met := fun live =>
    Arena.mem_of_length_eq kept (whole ▸ tour.distinct) (whole ▸ tour.live) all live
  constructor
  case vacant =>
    intro noRoot
    rw [root] at noRoot
    cases noRoot
  case parentless =>
    intro r' root'
    rw [root] at root'
    cases root'
    exact tour.parentless
  case listed_once =>
    intro h n live other
    have here := met_of_live (Arena.contains_iff.mpr ⟨n, live⟩)
    have notRoot : h ≠ r := by
      rintro rfl
      exact other root
    obtain ⟨p, earlier, m, stored, mem⟩ := tour.listed h (List.mem_append_left _ here) notRoot
    obtain ⟨-, n', live', parent⟩ := tour.linked p earlier h ⟨m, stored, mem⟩
    rw [live] at live'
    cases live'
    exact ⟨p, m, parent, stored,
      List.count_eq_one_of_mem (tour.settled p earlier m stored).1 mem⟩
  case points_back =>
    intro p c link
    obtain ⟨m, stored, -⟩ := id link
    exact (tour.linked p (met_of_live (Arena.contains_iff.mpr ⟨m, stored⟩)) c link).2
  case reached =>
    intro r' h root' live
    rw [root] at root'
    cases root'
    exact tour.reached h (List.mem_append_left _ (met_of_live live))

end Tour

/-! ## Rounds -/

theorem auditRounds_nil (bound reached : Nat) :
    t.auditRounds (bound + 1) ⟨reached, []⟩ =
      some ⟨⟨reached, []⟩, if reached = t.len then none else some (.unreachable reached t.len)⟩ :=
  rfl

/-- A round without a fault leaves the children of the node on the agenda. -/
theorem auditRounds_of_clear (live : t.node? h = some n) {reached : Nat}
    (clear : (t.enlist h n.children ⟨reached + 1, pending⟩).fault = none ∧
      t.siblingFault h n.children = none) (bound : Nat) :
    t.auditRounds (bound + 1) ⟨reached, h :: pending⟩ =
      t.auditRounds bound ⟨reached + 1, n.children.reverse ++ pending⟩ := by
  obtain ⟨-, done, -⟩ := enlist_of_fault_eq_none clear.1
  simp only [auditRounds, live, done, clear.2, Option.or_none]

theorem exists_fault_of_not_clear (live : t.node? h = some n) {reached : Nat}
    (faulty : ¬((t.enlist h n.children ⟨reached + 1, pending⟩).fault = none ∧
      t.siblingFault h n.children = none)) (bound : Nat) :
    ∃ found e, t.auditRounds (bound + 1) ⟨reached, h :: pending⟩ = some ⟨found, some e⟩ := by
  cases fault : (t.enlist h n.children ⟨reached + 1, pending⟩).fault.or
      (t.siblingFault h n.children) with
  | none => exact absurd (Option.or_eq_none_iff.mp fault) faulty
  | some e =>
    refine ⟨(t.enlist h n.children ⟨reached + 1, pending⟩).agenda, e, ?_⟩
    simp only [auditRounds, live, fault]

/-- The rounds suffice for every tree: no agenda outgrows the arena by more than one. -/
theorem auditRounds_ne_none {bound : Nat} (enough : bound + a.reached = t.len + 2)
    (fits : a.placed ≤ t.len + 1) : t.auditRounds bound a ≠ none := by
  induction bound generalizing a with
  | zero =>
    rw [Agenda.placed] at fits
    omega
  | succ bound ih =>
    obtain ⟨reached, _ | ⟨h, pending⟩⟩ := a
    · simp [auditRounds_nil]
    · cases live : t.node? h with
      | none => simp [auditRounds, live]
      | some n =>
        by_cases clear : (t.enlist h n.children ⟨reached + 1, pending⟩).fault = none ∧
          t.siblingFault h n.children = none
        · obtain ⟨-, -, bounded⟩ := enlist_of_fault_eq_none clear.1
          simp only [Agenda.placed, List.length_cons] at fits bounded enough
          rw [auditRounds_of_clear live clear]
          apply ih
          · dsimp only
            omega
          · simp only [Agenda.placed, List.length_append, List.length_reverse]
            omega
        · obtain ⟨found, e, ended⟩ := exists_fault_of_not_clear live clear bound
          rw [ended]
          exact Option.some_ne_none _

theorem audit_ne_none (t : Tree α) (r : Handle) : t.audit r ≠ none := by
  apply auditRounds_ne_none rfl
  simp [Agenda.placed]

/-- An audit that finds no fault has made a tour of the whole tree, if no list that passes has a
child twice. -/
theorem Tour.of_clean (tour : t.Tour r met pending) (kept : t.arena.Kept)
    (single : ∀ h n, t.node? h = some n → t.siblingFault h n.children = none → n.children.Nodup)
    {bound : Nat} (enough : bound + met.length = t.len + 2)
    (clean : (t.auditRounds bound ⟨met.length, pending⟩).bind Finding.fault = none) :
    ∃ all, t.Tour r all [] ∧ all.length = t.len := by
  induction bound generalizing met pending with
  | zero =>
    have := tour.length_le kept
    omega
  | succ bound ih =>
    cases pending with
    | nil =>
      refine ⟨met, tour, ?_⟩
      rw [auditRounds_nil] at clean
      by_contra short
      simp [short] at clean
    | cons h pending =>
      obtain ⟨n, live⟩ : ∃ n, t.node? h = some n :=
        Arena.contains_iff.mp (tour.live h (by simp))
      by_cases clear : (t.enlist h n.children ⟨met.length + 1, pending⟩).fault = none ∧
        t.siblingFault h n.children = none
      · obtain ⟨points, -, -⟩ := enlist_of_fault_eq_none clear.1
        rw [auditRounds_of_clear live clear] at clean
        apply ih (tour.step live points (single h n live clear.2) clear.2)
        · rw [List.length_cons]
          omega
        · exact clean
      · obtain ⟨found, e, ended⟩ := exists_fault_of_not_clear live clear bound
        rw [ended] at clean
        cases clean

theorem Rooted.nodup_children (rooted : t.Rooted) (live : t.node? h = some n) :
    n.children.Nodup := by
  rw [List.nodup_iff_count_le_one]
  intro c
  by_cases mem : c ∈ n.children
  · obtain ⟨m, stored, parent⟩ := rooted.points_back h c ⟨n, live, mem⟩
    have other : t.root ≠ some c := by
      intro root
      obtain ⟨m', stored', top⟩ := rooted.parentless c root
      rw [stored] at stored'
      cases stored'
      rw [parent] at top
      cases top
    obtain ⟨p, n', parent', live', once⟩ := rooted.listed_once c m stored other
    rw [parent] at parent'
    cases parent'
    rw [live] at live'
    cases live'
    exact once.le
  · rw [List.count_eq_zero_of_not_mem mem]
    exact Nat.zero_le 1

/-- In one rooted tree an audit meets all nodes, unless it stops at a sibling list that does not
pass. -/
theorem Tour.ends (tour : t.Tour r met pending) (kept : t.arena.Kept) (rooted : t.Rooted)
    (root : t.root = some r) {bound : Nat} (enough : bound + met.length = t.len + 2) :
    t.auditRounds bound ⟨met.length, pending⟩ = some ⟨⟨t.len, []⟩, none⟩ ∨
      ∃ h n e found, t.node? h = some n ∧ t.siblingFault h n.children = some e ∧
        t.auditRounds bound ⟨met.length, pending⟩ = some ⟨found, some e⟩ := by
  induction bound generalizing met pending with
  | zero =>
    have := tour.length_le kept
    omega
  | succ bound ih =>
    cases pending with
    | nil =>
      have whole : met ++ [] = met := List.append_nil met
      have closed : ∀ {h}, ReflTransGen t.Lists r h → h ∈ met := by
        intro h path
        induction path with
        | refl => exact whole ▸ tour.starts
        | tail _ link earlier => exact whole ▸ (tour.linked _ earlier _ link).1
      have all : met.length = t.len := by
        apply Arena.length_eq_of_live_iff kept (whole ▸ tour.distinct)
        exact fun h => ⟨fun mem => tour.live h (List.mem_append_left _ mem),
          fun live => closed (rooted.reached r h root live)⟩
      rw [auditRounds_nil, if_pos all, all]
      exact .inl rfl
    | cons h pending =>
      obtain ⟨n, live⟩ : ∃ n, t.node? h = some n :=
        Arena.contains_iff.mp (tour.live h (by simp))
      have points : t.PointTo h n.children := fun c mem => rooted.points_back h c ⟨n, live, mem⟩
      have nodup := rooted.nodup_children live
      have done : (t.enlist h n.children ⟨met.length + 1, pending⟩).fault = none := by
        rw [enlist_eq points (tour.room kept points nodup)]
      cases fault : t.siblingFault h n.children with
      | none =>
        rw [auditRounds_of_clear live ⟨done, fault⟩]
        apply ih (tour.step live points nodup fault)
        rw [List.length_cons]
        omega
      | some e =>
        refine .inr ⟨h, n, e, (t.enlist h n.children ⟨met.length + 1, pending⟩).agenda, live,
          fault, ?_⟩
        simp only [auditRounds, live, done, fault, Option.none_or]

/-- In one rooted tree with sibling lists that pass, no audit meets a fault. -/
theorem Tour.clean (tour : t.Tour r met pending) (kept : t.arena.Kept) (rooted : t.Rooted)
    (root : t.root = some r)
    (clear : ∀ h n, t.node? h = some n → t.siblingFault h n.children = none) {bound : Nat}
    (enough : bound + met.length = t.len + 2) :
    t.auditRounds bound ⟨met.length, pending⟩ = some ⟨⟨t.len, []⟩, none⟩ := by
  rcases tour.ends kept rooted root enough with ended | ⟨h, n, e, found, live, fault, -⟩
  · exact ended
  · rw [clear h n live] at fault
    cases fault

/-! ## The check -/

/-- The documented invariants: the links make one rooted tree, and siblings under a built-in keyed
policy are strictly increasing. -/
structure Valid (t : Tree α) : Prop where
  rooted : t.Rooted
  inOrder : ∀ cmp, t.policy.BuiltInKeyed cmp → ∀ h n, t.node? h = some n →
    t.InOrder cmp n.children

theorem not_valid_of_root (root : t.root = some r) (bad : ∀ n, t.node? r = some n → n.parent ≠ none) :
    ¬t.Valid := by
  intro valid
  obtain ⟨n, live, top⟩ := valid.rooted.parentless r root
  exact bad n live top

/-- A tree without a root is valid if nothing is stored. -/
theorem valid_iff_of_no_root (kept : t.arena.Kept) (noRoot : t.root = none) :
    t.Valid ↔ t.len = 0 := by
  constructor
  · intro valid
    have none_bound : t.arena.bindings = [] := by
      rw [List.eq_nil_iff_forall_not_mem]
      rintro ⟨h, n⟩ mem
      have stored := (Arena.get?_eq_some_iff.mp (Arena.mem_bindings_iff.mp mem)).2
      have vacant := valid.rooted.vacant noRoot _ (Array.mem_of_getElem? stored)
      cases vacant
    exact kept.len_eq.trans (congrArg List.length none_bound)
  · intro zero
    have none_bound : t.arena.bindings = [] :=
      List.eq_nil_of_length_eq_zero (kept.len_eq.symm.trans zero)
    have held : t.arena.Holds [] := none_bound ▸ kept.holds
    have dead : ∀ {h n}, t.node? h ≠ some n := fun live =>
      absurd ((held.bound _ _).mp live) List.not_mem_nil
    refine ⟨⟨fun _ _ mem => held.not_occupied mem, ?_, ?_, ?_, ?_⟩, ?_⟩
    · intro r root
      rw [noRoot] at root
      cases root
    · exact fun h n live => absurd live dead
    · rintro p c ⟨n, live, -⟩
      exact absurd live dead
    · intro r h root
      rw [noRoot] at root
      cases root
    · exact fun cmp _ h n live => absurd live dead

theorem check_of_root (root : t.root = some r) (live : t.node? r = some n) (top : n.parent = none) :
    t.check = .ok () ↔ (t.audit r).bind Finding.fault = none := by
  cases found : (t.audit r).bind Finding.fault <;>
    simp [check, root, node, live, top, found, bind, Except.bind, pure, Except.pure, throw, throwThe,
      MonadExceptOf.throw]

theorem siblingFault_of_unkeyed (unkeyed : t.policy.keyed = false) (parent : Handle)
    (hs : List Handle) : t.siblingFault parent hs = none := by
  rw [siblingFault, unkeyed]
  rfl

/-- A sibling list that passes has no child twice under a keyed policy, whose order forbids it. -/
theorem nodup_of_siblingFault_eq_none (builtIn : t.policy.BuiltIn)
    (single : t.policy.keyed = false → hs.Nodup) (clear : t.siblingFault h hs = none) :
    hs.Nodup := by
  cases keyed : t.policy.keyed with
  | false => exact single keyed
  | true =>
    obtain ⟨cmp, sorting⟩ := builtIn.exists_keyed keyed
    have := sorting.sortsBy.trans
    exact ((siblingFault_eq_none_iff sorting.sortsBy h hs).mp clear).nodup

theorem Valid.siblingFault_eq_none (valid : t.Valid) (builtIn : t.policy.BuiltIn)
    (live : t.node? h = some n) : t.siblingFault h n.children = none := by
  cases keyed : t.policy.keyed with
  | false => exact siblingFault_of_unkeyed keyed h n.children
  | true =>
    obtain ⟨cmp, sorting⟩ := builtIn.exists_keyed keyed
    exact (siblingFault_eq_none_iff sorting.sortsBy h n.children).mpr
      (valid.inOrder cmp sorting h n live)

theorem Tour.valid (tour : t.Tour r met []) (kept : t.arena.Kept) (all : met.length = t.len)
    (root : t.root = some r) : t.Valid where
  rooted := tour.rooted kept all root
  inOrder cmp sorting h n live := by
    have whole : met ++ [] = met := List.append_nil met
    have here : h ∈ met := Arena.mem_of_length_eq kept (whole ▸ tour.distinct) (whole ▸ tour.live) all
      (Arena.contains_iff.mpr ⟨n, live⟩)
    exact (siblingFault_eq_none_iff sorting.sortsBy h n.children).mp (tour.settled h here n live).2

/-- The check accepts the valid trees, and no others unless an unkeyed node lists a child twice. -/
theorem check_eq_ok_iff (kept : t.arena.Kept) (builtIn : t.policy.BuiltIn) :
    (t.check = .ok () ∧
        (t.policy.keyed = false → ∀ h n, t.node? h = some n → n.children.Nodup)) ↔ t.Valid := by
  cases root : t.root with
  | none =>
    constructor
    · rintro ⟨accepted, -⟩
      rw [check, root] at accepted
      rw [valid_iff_of_no_root kept root]
      by_contra left
      simp [left] at accepted
    · intro valid
      refine ⟨?_, fun _ h n => valid.rooted.nodup_children⟩
      rw [check, root]
      exact if_pos ((valid_iff_of_no_root kept root).mp valid)
  | some r =>
    cases live : t.node? r with
    | none =>
      refine iff_of_false (fun both => ?_) (not_valid_of_root root fun n live' => ?_)
      · simp [check, root, node, live, bind, Except.bind] at both
      · rw [live] at live'
        cases live'
    | some n =>
      cases top : n.parent with
      | some p =>
        refine iff_of_false (fun both => ?_) (not_valid_of_root root fun n' live' => ?_)
        · simp [check, root, node, live, top, bind, Except.bind, throw, throwThe, MonadExceptOf.throw]
            at both
        · rw [live] at live'
          cases live'
          simp [top]
      | none =>
        rw [check_of_root root live top]
        constructor
        · rintro ⟨clean, single⟩
          obtain ⟨met, tour, all⟩ := (tour_start live top).of_clean kept
            (fun h n live => nodup_of_siblingFault_eq_none builtIn fun unkeyed =>
              single unkeyed h n live) rfl clean
          exact tour.valid kept all root
        · intro valid
          have finding := (tour_start live top).clean kept valid.rooted root
            (fun h n => valid.siblingFault_eq_none builtIn) rfl
          refine ⟨?_, fun _ h n => valid.rooted.nodup_children⟩
          rw [audit, ← List.length_nil, finding]
          rfl

theorem check_eq_ok_iff_sample :
    (Tree.sample .naturalOrder).arena.Kept ∧ (Tree.sample .naturalOrder).policy.BuiltIn ∧
      (Tree.sample .naturalOrder).check = .ok () ∧ (Tree.sample .naturalOrder).Valid := by
  have builtIn : (Tree.sample .naturalOrder).policy.BuiltIn := by
    rw [policy_sample]
    exact .keyed (.searching .naturalOrder)
  have keyed : (Tree.sample .naturalOrder).policy.keyed = true := by rw [policy_sample]; rfl
  have accepted : (Tree.sample .naturalOrder).check = .ok () := by decide +kernel
  obtain ⟨f, shows, -⟩ := (reachable_sample .naturalOrder).exists_forest builtIn.inRange
  have kept := shows.holds.kept
  refine ⟨kept, builtIn, accepted, (check_eq_ok_iff kept builtIn).mp ⟨accepted, fun unkeyed => ?_⟩⟩
  rw [keyed] at unkeyed
  cases unkeyed

/-- A root that lists its first child in the place of its second, too. -/
def repeated : Tree Nat :=
  (Tree.sample .insertionOrder).updateChildren ⟨1, 0, 0⟩ fun _ => [⟨1, 1, 0⟩, ⟨1, 1, 0⟩]

/-- The second visit of the repeated child is taken for the visit of the child that is missing. -/
theorem check_accepts_repeated :
    repeated.arena.Kept ∧ repeated.policy.BuiltIn ∧ repeated.check = .ok () ∧ ¬repeated.Valid := by
  have builtIn : (Tree.sample .insertionOrder).policy.BuiltIn := by
    rw [policy_sample]
    exact .insertionOrder
  obtain ⟨f, shows, -⟩ := (reachable_sample .insertionOrder).exists_forest builtIn.inRange
  refine ⟨shows.holds.kept.modify .., builtIn, by decide +kernel, fun valid => ?_⟩
  have listed : (repeated.node? ⟨1, 0, 0⟩).map Node.children = some [⟨1, 1, 0⟩, ⟨1, 1, 0⟩] := by
    decide +kernel
  obtain ⟨n, live, children⟩ := Option.map_eq_some_iff.mp listed
  have distinct := valid.rooted.nodup_children live
  rw [children] at distinct
  simp at distinct

end PolicyTree.Tree
