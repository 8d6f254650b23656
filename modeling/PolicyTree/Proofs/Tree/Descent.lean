import PolicyTree.Proofs.Tree.Fragments
import PolicyTree.Proofs.Tree.Search
import PolicyTree.Proofs.Tree.Unrolling

/-! A lookup is a recursion from the root that asks the policy about each list of children. -/

namespace PolicyTree

open Forest

variable {α : Type}

/-- A lookup through any level is a scan of all below it. -/
def Policy.Scans (policy : Policy α) : Prop := ∀ siblings x, policy.descend siblings x = .scan

namespace Tree

variable {t : Tree α} {f : Forest α} {q : Option Handle} {rest : List (Handle × Node α)}
  {s : Sprig α} {target : α} {v : Option (Option Handle)}

/-! ## The recursion -/

mutual

/-- What a search below one node comes to: an answer that ends all of it, or a miss. -/
inductive Seeks (t : Tree α) (target : α) : Handle → Option (Option Handle) → Prop where
  | found {h : Handle} {n : Node α} {i : Nat} (stored : t.node? h = some n)
      (advice : t.policy.descend (t.valuesAt n.children) target = .found i) :
      Seeks t target h (some n.children[i]?)
  | inside {h c : Handle} {n : Node α} {i : Nat} {v : Option (Option Handle)}
      (stored : t.node? h = some n)
      (advice : t.policy.descend (t.valuesAt n.children) target = .into i)
      (child : n.children[i]? = some c) (below : Seeks t target c v) : Seeks t target h v
  | outside {h : Handle} {n : Node α} {i : Nat} (stored : t.node? h = some n)
      (advice : t.policy.descend (t.valuesAt n.children) target = .into i)
      (nothing : n.children[i]? = none) : Seeks t target h none
  | miss {h : Handle} {n : Node α} (stored : t.node? h = some n)
      (advice : t.policy.descend (t.valuesAt n.children) target = .miss) : Seeks t target h none
  | each {h : Handle} {n : Node α} {v : Option (Option Handle)} (stored : t.node? h = some n)
      (advice : t.policy.descend (t.valuesAt n.children) target = .each)
      (among : SeeksAmong t target n.children v) : Seeks t target h v
  | scan {h : Handle} {n : Node α} {es : List (Handle × α)} (stored : t.node? h = some n)
      (advice : t.policy.descend (t.valuesAt n.children) target = .scan)
      (listed : t.Unrolls id n.children es) :
      Seeks t target h ((es.find? (t.policy.agrees ·.2 target)).map fun e => some e.1)

/-- What searches below nodes come to, made one by one until one of them ends it all. -/
inductive SeeksAmong (t : Tree α) (target : α) : List Handle → Option (Option Handle) → Prop where
  | nil : SeeksAmong t target [] none
  | ended {h : Handle} {hs : List Handle} {answer : Option Handle}
      (first : Seeks t target h (some answer)) : SeeksAmong t target (h :: hs) (some answer)
  | missed {h : Handle} {hs : List Handle} {v : Option (Option Handle)}
      (first : Seeks t target h none) (later : SeeksAmong t target hs v) :
      SeeksAmong t target (h :: hs) v

end

/-! ## Verdicts on stored forests -/

theorem seeksAmong_iff {cs : List (Sprig α)}
    (each : ∀ c ∈ cs, ∀ v, t.Seeks target c.handle v ↔ v = c.below.verdict t.policy target) :
    t.SeeksAmong target (cs.map Sprig.handle) v ↔
      v = cs.findSome? (·.below.verdict t.policy target) := by
  induction cs generalizing v with
  | nil =>
    refine ⟨fun among => ?_, fun same => same ▸ .nil⟩
    cases among
    rfl
  | cons c cs ih =>
    obtain ⟨first, later⟩ := List.forall_mem_cons.mp each
    have among := @ih v later
    rw [List.map_cons, List.findSome?_cons]
    cases verdict : c.below.verdict t.policy target with
    | some answer =>
      rw [verdict] at first
      constructor
      · rintro (_ | ended | ⟨missed, -⟩)
        · exact (first _).mp ended
        · cases (first _).mp missed
      · rintro rfl
        exact .ended ((first _).mpr rfl)
    | none =>
      rw [verdict] at first
      constructor
      · rintro (_ | ended | ⟨-, rest⟩)
        · cases (first _).mp ended
        · exact among.mp rest
      · intro same
        exact .missed ((first _).mpr rfl) (among.mpr same)

/-- One level of the recursion, with its children judged already. -/
theorem Stores.seeks_iff_of_children (stores : t.Stores q f rest) (mem : s ∈ f.nodes)
    (children : ∀ c ∈ s.below.sprigs, ∀ v,
      t.Seeks target c.handle v ↔ v = c.below.verdict t.policy target) :
    t.Seeks target s.handle v ↔ v = s.below.verdict t.policy target := by
  obtain ⟨p, stored⟩ := stores.exists_node? mem
  have values := stores.valuesAt_roots mem
  have listed := stores.unrolls fun c child => mem_nodes_of_child mem child
  have scanned : ((s.below.nodes.map Sprig.entry).find? (t.policy.agrees ·.2 target)).map
      (fun e => some e.1) =
        (s.below.nodes.find? (t.policy.agrees ·.value target)).map fun c => some c.handle := by
    rw [List.find?_map, Option.map_map]
    rfl
  rw [verdict, judge, verdictsBelow_eq, ← values]
  constructor
  · intro seeks
    cases seeks with
    | found live advice =>
      cases stored.symm.trans live
      rw [advice]
    | inside live advice child below =>
      cases stored.symm.trans live
      rw [getElem?_roots] at child
      obtain ⟨c, place, rfl⟩ := Option.map_eq_some_iff.mp child
      rw [advice, (children c (List.mem_of_getElem? place) _).mp below]
      simp [place]
    | outside live advice nothing =>
      cases stored.symm.trans live
      rw [getElem?_roots, Option.map_eq_none_iff] at nothing
      rw [advice]
      simp [nothing]
    | miss live advice =>
      cases stored.symm.trans live
      rw [advice]
    | each live advice among =>
      cases stored.symm.trans live
      rw [advice, (seeksAmong_iff children).mp among]
      simp [List.findSome?_map]
    | scan live advice unrolled =>
      cases stored.symm.trans live
      rw [advice, unrolled.unique listed, scanned]
  · rintro rfl
    cases advice : t.policy.descend (t.valuesAt s.below.roots) target with
    | found i => exact .found stored advice
    | into i =>
      dsimp only
      rw [List.getElem?_map]
      cases child : s.below.sprigs[i]? with
      | none => exact .outside stored advice (by simp [child])
      | some c =>
        refine .inside (c := c.handle) stored advice (by simp [child]) ?_
        exact (children c (List.mem_of_getElem? child) _).mpr rfl
    | miss => exact .miss stored advice
    | each =>
      refine .each stored advice ((seeksAmong_iff children).mpr ?_)
      rw [List.findSome?_map]
      rfl
    | scan =>
      dsimp only
      rw [← scanned]
      exact .scan stored advice listed

theorem Stores.seeks_iff_of_mem_sprigs (stores : t.Stores q f rest) {b : Forest α}
    (inside : ∀ s ∈ b.sprigs, s ∈ f.nodes) :
    ∀ c ∈ b.sprigs, ∀ v, t.Seeks target c.handle v ↔ v = c.below.verdict t.policy target := by
  induction b with
  | nil => exact List.forall_mem_nil _
  | cons h x below later ihBelow ihLater =>
    have here : ⟨h, x, below⟩ ∈ f.nodes := inside _ (List.mem_cons_self ..)
    have children := ihBelow fun c child => mem_nodes_of_child here child
    rw [sprigs_cons, List.forall_mem_cons]
    exact ⟨fun v => stores.seeks_iff_of_children here children,
      ihLater fun c top => inside c (List.mem_cons_of_mem _ top)⟩

/-- Below a stored node the recursion comes to one verdict, that of the forest below. -/
theorem Stores.seeks_iff (stores : t.Stores q f rest) (mem : s ∈ f.nodes) :
    t.Seeks target s.handle v ↔ v = s.below.verdict t.policy target :=
  stores.seeks_iff_of_children mem (stores.seeks_iff_of_mem_sprigs fun _ child =>
    mem_nodes_of_child mem child)

/-! ## Lookups -/

theorem find_of_no_root (noRoot : t.root = none) (target : α) : t.find target = none := by
  rw [find, noRoot]
  rfl

theorem findBy_of_no_root (noRoot : t.root = none) (p : α → Bool) : t.findBy p = none := by
  have listed : t.preOrder = [] := by
    rw [preOrder, walk, noRoot]
    cases t.len <;> rfl
  rw [findBy, listed]
  rfl

theorem Stores.findBy_eq (stores : t.Stores none (ofSprigs [s]) rest) (root : t.root = some s.handle)
    (p : α → Bool) : t.findBy p = (s.nodes.find? (p ·.value)).map Sprig.handle := by
  have mem := mem_nodes_single s
  rw [findBy, preOrder, walk, root, stores.visits_from mem (stores.length_handles_le mem),
    find?_visits, nodes_single]

/-- Under a policy that always scans, the root and all below it are tried in pre-order. -/
theorem Stores.find_of_scans (stores : t.Stores none (ofSprigs [s]) rest)
    (root : t.root = some s.handle) (scans : t.policy.Scans) (target : α) :
    t.find target = t.findBy (t.policy.agrees · target) := by
  rw [stores.find_eq root, stores.findBy_eq root, Sprig.nodes, List.find?_cons, verdict, judge,
    scans]
  dsimp only
  cases t.policy.agrees s.value target with
  | true => rfl
  | false => cases s.below.nodes.find? (t.policy.agrees ·.value target) <;> rfl

/-- A lookup that the root does not answer at once is the recursion from the root, worked off in
rounds that ask the policy about the children of each node once at most. -/
structure Descends (t : Tree α) (target : α) (r : Handle) : Prop where
  exists_verdict : ∃ v, (∀ v', t.Seeks target r v' ↔ v' = v) ∧ t.find target = v.join
  exists_rounds : ∃ asked : List Handle, asked.Nodup ∧ t.Hunts target [r] asked (t.find target)

/-- Whatever the policy advises, a lookup ends, and answers as the recursion from the root does. -/
theorem Reachable.find_descends (reached : t.Reachable) (target : α) :
    (t.root = none → t.find target = none) ∧
      (∀ r, t.root = some r → ∃ x, t.get? r = some x ∧
        (t.policy.agrees x target = true → t.find target = some r) ∧
        (¬t.policy.agrees x target = true → t.Descends target r)) ∧
      (t.policy.Scans → t.find target = t.findBy (t.policy.agrees · target)) := by
  refine ⟨fun noRoot => find_of_no_root noRoot target, fun r root => ?_, fun scans => ?_⟩
  · obtain ⟨s, rest, stores, rfl⟩ := reached.exists_root root
    have mem := mem_nodes_single s
    obtain ⟨asked, distinct, hunts, -⟩ := stores.hunts_below mem target
    have answer := stores.find_eq root target
    refine ⟨s.value, stores.get?_eq mem, fun here => ?_, fun elsewhere => ?_⟩
    · rw [answer, if_pos here]
    · rw [if_neg elsewhere] at answer
      exact ⟨⟨_, fun v' => stores.seeks_iff mem, answer⟩, asked, distinct, answer ▸ hunts⟩
  · cases root : t.root with
    | none => rw [find_of_no_root root, findBy_of_no_root root]
    | some r =>
      obtain ⟨s, rest, stores, rfl⟩ := reached.exists_root root
      exact stores.find_of_scans root scans target

/-- Searches every subtree of two siblings, and has a place past the end of every other list. -/
def straying : Policy Nat :=
  { Policy.insertionOrder with
    name := "Straying"
    descend := fun siblings _ => if siblings.length = 2 then .each else .into 7 }

/-- The policy that scans has an equality without any equal values. -/
theorem find_descends_sample :
    (Tree.sample straying).Descends 4 ⟨1, 0, 0⟩ ∧
      (Tree.sample (.insertionOrderBy fun _ _ => false)).find 4 =
        (Tree.sample (.insertionOrderBy fun _ _ => false)).findBy
          ((Tree.sample (.insertionOrderBy fun _ _ => false)).policy.agrees · 4) := by
  constructor
  · have value : (Tree.sample straying).get? ⟨1, 0, 0⟩ = some 5 := by decide +kernel
    obtain ⟨x, stored, -, elsewhere⟩ :=
      ((reachable_sample straying).find_descends 4).2.1 ⟨1, 0, 0⟩ (by decide +kernel)
    rw [value] at stored
    cases stored
    exact elsewhere (by decide +kernel)
  · apply ((reachable_sample (.insertionOrderBy fun _ _ => false)).find_descends 4).2.2
    rw [policy_sample]
    exact (Policy.BuiltIn.insertionOrderBy _).scans rfl

end Tree

end PolicyTree
