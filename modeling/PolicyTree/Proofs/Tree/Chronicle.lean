import PolicyTree.Proofs.Tree.Seniority

/-! The order of siblings through whole runs: one ledger for every tree of a session. -/

namespace PolicyTree

open Forest

variable {α σ τ : Type}

/-! ## Requests -/

/-- Whether the request sorts children in the `i`-th tree. -/
def Request.sorts (i : Nat) : Request α → Bool
  | .edit target e => target == i && e.sorts
  | _ => false

theorem Edit.sorts_of_resolve {find : σ → Option τ} {e : Edit σ α} {e' : Edit τ α}
    (found : e.resolve find = some e') : e'.sorts = e.sorts := by
  cases e with
  | replaceSubtree h source | replaceWithSubtree h source k =>
    obtain ⟨t, -, rfl⟩ := Option.map_eq_some_iff.mp found
    rfl
  | _ =>
    cases found
    rfl

namespace Session

variable {s : Session α} {ls : List Ledger} {i : Nat} {t : Tree α} {l : Ledger} {r : Request α}
  {requests : List (Request α)}

/-- The ledgers of all trees after a request. A new tree begins with a new ledger, and an edit is
entered in that of its tree. -/
def enterRequest (s : Session α) (ls : List Ledger) : Request α → List Ledger
  | .withPolicy _ | .withCapacity _ _ => ls ++ [.blank]
  | .withRoot _ policy => ls ++ [Ledger.blank.enter (Tree.withPolicy policy s.owners).1.freshRoot]
  | .clone source =>
    match s.trees[source]? with
    | some t => ls ++ [.ofClone t s.owners]
    | none => ls
  | .extract source h policy =>
    match s.trees[source]? with
    | some t =>
      match (t.extract h policy s.owners).1, t.value h with
      | .done _, .ok x => ls ++ [.ofCopy (Tree.withPolicy policy s.owners).1 t h x]
      | _, _ => ls
    | none => ls
  | .edit target e =>
    match s.trees[target]?, e.resolve (s.trees[·]?) with
    | some t, some e => ls.modify target (·.after t e)
    | _, _ => ls

def ledgersFrom : Session α → List Ledger → List (Request α) → List Ledger
  | _, ls, [] => ls
  | s, ls, r :: rs => ledgersFrom (s.step r) (s.enterRequest ls r) rs

def ledgers (requests : List (Request α)) : List Ledger := ledgersFrom start [] requests

theorem ledgersFrom_concat (s : Session α) (ls : List Ledger) (rs : List (Request α))
    (r : Request α) :
    ledgersFrom s ls (rs ++ [r]) = (rs.foldl step s).enterRequest (ledgersFrom s ls rs) r := by
  induction rs generalizing s ls with
  | nil => rfl
  | cons _ rs ih => exact ih ..

theorem ledgers_concat (requests : List (Request α)) (r : Request α) :
    ledgers (requests ++ [r]) = (run requests).enterRequest (ledgers requests) r :=
  ledgersFrom_concat ..

/-! ## One tree -/

/-- The ledger is kept for trees that append: siblings stand in the order of their ranks. -/
def InOrder (t : Tree α) (l : Ledger) : Prop :=
  t.policy.BuiltIn → t.policy.keyed = false → l.Dates t

theorem inOrder_withCapacity (policy : Policy α) (capacity : Nat) (owners : Owners) :
    InOrder (Tree.withCapacity policy capacity owners).1 .blank :=
  fun _ _ => Tree.dates_withCapacity ..

theorem inOrder_withRoot (x : α) (policy : Policy α) (owners : Owners) :
    InOrder (Tree.withRoot x policy owners).1
      (Ledger.blank.enter (Tree.withPolicy policy owners).1.freshRoot) :=
  fun _ _ => Tree.dates_setRoot ..

theorem inOrder_perform (reached : t.Reachable) (before : InOrder t l) {e : Edit (Tree α) α}
    (unsorted : e.sorts = false) : InOrder (t.perform e).tree (l.after t e) := by
  intro builtIn unkeyed
  rw [Tree.policy_perform] at builtIn unkeyed
  obtain ⟨f, shows, -⟩ := reached.exists_forest builtIn.inRange
  exact shows.dates_perform (builtIn.place_eq_append unkeyed) unkeyed (before builtIn unkeyed)
    unsorted

theorem inOrder_becomeCopy {source : Tree α} {h : Handle} {x : α} {m : Nat}
    (done : (t.becomeCopy source h x).outcome = .done m) :
    InOrder (t.becomeCopy source h x).tree (.ofCopy t source h x) := by
  intro builtIn unkeyed
  rw [Tree.policy_becomeCopy] at builtIn unkeyed
  exact Tree.dates_becomeCopy (builtIn.place_eq_append unkeyed) done

/-- A clone has a ledger of its own, in which it does not matter how the siblings in the source came
to stand as they do. -/
theorem inOrder_clone (reached : t.Reachable) (owners : Owners) :
    InOrder (t.clone owners).1 (.ofClone t owners) := by
  intro builtIn unkeyed
  rw [Tree.policy_clone] at builtIn unkeyed
  obtain ⟨f, shows, -⟩ := reached.exists_forest builtIn.inRange
  exact shows.dates_clone (builtIn.place_eq_append unkeyed) owners

/-! ## Runs -/

/-- Every tree has a ledger, and that of the `i`-th one is kept. -/
structure Keeps (i : Nat) (s : Session α) (ls : List Ledger) : Prop where
  length_eq : ls.length = s.trees.length
  inOrder : ∀ t l, s.trees[i]? = some t → ls[i]? = some l → InOrder t l

theorem Keeps.add (keeps : Keeps i s ls) {made : Tree α × Owners} (new : InOrder made.1 l) :
    Keeps i (s.add made) (ls ++ [l]) where
  length_eq := by simp [Session.add, keeps.length_eq]
  inOrder u m stands entered := by
    rcases getElem?_add stands with before | ⟨rfl, rfl⟩
    · have inside := (List.getElem?_eq_some_iff.mp before).1
      rw [← keeps.length_eq] at inside
      rw [List.getElem?_append_left inside] at entered
      exact keeps.inOrder u m before entered
    · rw [← keeps.length_eq, List.getElem?_concat_length] at entered
      cases entered
      exact new

theorem Keeps.edit (keeps : Keeps i s ls) {target : Nat} (stands : s.trees[target]? = some t)
    (reached : t.Reachable) {e : Edit (Tree α) α} (unsorted : target = i → e.sorts = false) :
    Keeps i { s with trees := s.trees.set target (t.perform e).tree }
      (ls.modify target (·.after t e)) where
  length_eq := by simp [keeps.length_eq]
  inOrder u m stands' entered := by
    dsimp only at stands'
    by_cases same : target = i
    · subst same
      rw [List.getElem?_set_self (List.getElem?_eq_some_iff.mp stands).1] at stands'
      cases stands'
      rw [List.getElem?_modify_eq] at entered
      obtain ⟨l, before, rfl⟩ := Option.map_eq_some_iff.mp entered
      exact inOrder_perform reached (keeps.inOrder t l stands before) (unsorted rfl)
    · rw [List.getElem?_set_ne same] at stands'
      rw [List.getElem?_modify_ne _ _ same] at entered
      exact keeps.inOrder u m stands' entered

/-- One request that does not sort the `i`-th tree. -/
theorem Keeps.step (keeps : Keeps i (run requests) ls) (unsorted : r.sorts i = false) :
    Keeps i ((run requests).step r) ((run requests).enterRequest ls r) := by
  have reached : ∀ {k : Nat} {t : Tree α}, (run requests).trees[k]? = some t → t.Reachable :=
    fun stands => ⟨requests, List.mem_of_getElem? stands⟩
  cases r with
  | withPolicy policy => exact keeps.add (inOrder_withCapacity policy _ _)
  | withCapacity policy capacity => exact keeps.add (inOrder_withCapacity policy capacity _)
  | withRoot x policy => exact keeps.add (inOrder_withRoot x policy _)
  | clone source =>
    rw [Session.step, enterRequest]
    cases found : (run requests).trees[source]? with
    | none => exact keeps
    | some t => exact keeps.add (inOrder_clone (reached found) _)
  | extract source h policy =>
    rw [Session.step, enterRequest]
    cases found : (run requests).trees[source]? with
    | none => exact keeps
    | some t =>
      dsimp only
      rw [Tree.extract]
      cases t.value h with
      | error e => exact keeps
      | ok x =>
        dsimp only
        cases ended :
            ((Tree.withPolicy policy (run requests).owners).1.becomeCopy t h x).outcome with
        | refused e => exact ⟨keeps.length_eq, keeps.inOrder⟩
        | halted => exact ⟨keeps.length_eq, keeps.inOrder⟩
        | done m => exact keeps.add (inOrder_becomeCopy ended)
  | edit target e =>
    rw [Session.step, enterRequest]
    cases found : (run requests).trees[target]? with
    | none => exact keeps
    | some t =>
      cases resolved : e.resolve ((run requests).trees[·]?) with
      | none => exact keeps
      | some e' =>
        refine keeps.edit found (reached found) fun same => ?_
        rw [Edit.sorts_of_resolve resolved]
        simpa [Request.sorts, same] using unsorted

theorem keeps_ledgers (unsorted : ∀ r ∈ requests, r.sorts i = false) :
    Keeps i (run requests) (ledgers requests) := by
  induction requests using List.reverseRecOn with
  | nil => exact ⟨rfl, nofun⟩
  | append_singleton requests r ih =>
    obtain ⟨before, last⟩ := List.forall_mem_append.mp unsorted
    rw [run_concat, ledgers_concat]
    exact (ih before).step (last r (List.mem_singleton_self r))

/-- As long as no request sorts a tree in insertion order, the ranks rise along all its sibling
lists, whatever becomes of the other trees. A copy sits where the node sat whose place it takes, and
the copies below its root have been stored with siblings in their order in the source. -/
theorem siblings_in_order (unsorted : ∀ r ∈ requests, r.sorts i = false)
    (stands : (run requests).trees[i]? = some t) (builtIn : t.policy.BuiltIn)
    (unkeyed : t.policy.keyed = false) :
    ∃ l, (ledgers requests)[i]? = some l ∧
      (∀ h, (t.childrenAt h).Pairwise fun a b => l.rank a < l.rank b) ∧
      ∀ (e : Edit (Tree α) α) h new, e.replaced = some h →
        (t.perform e).outcome = .done (.handle new) →
        (t.perform e).tree.slotInParent new = t.slotInParent h ∧
          ∃ source k, e.original = some (source, k) ∧
            (source.Reachable → source.policy.BuiltIn → ∃ p partner, t.parent h = .ok p ∧
              partner k = new ∧ (t.perform e).tree.CopiesUnder source k p some partner ∧
              ∀ m ∈ source.subtree k, ((source.childrenAt m).map partner).Pairwise fun a b =>
                (l.after t e).rank a < (l.after t e).rank b) := by
  have keeps := keeps_ledgers unsorted
  have reached : t.Reachable := ⟨requests, List.mem_of_getElem? stands⟩
  obtain ⟨f, shows, -⟩ := reached.exists_forest builtIn.inRange
  obtain ⟨l, entered⟩ : ∃ l, (ledgers requests)[i]? = some l := by
    have inside := (List.getElem?_eq_some_iff.mp stands).1
    rw [← keeps.length_eq] at inside
    exact ⟨_, List.getElem?_eq_getElem inside⟩
  have dates := keeps.inOrder t l stands entered builtIn unkeyed
  refine ⟨l, entered, fun h => ?_, fun e h new replaces done => ?_⟩
  · rw [Tree.childrenAt]
    cases stored : t.node? h with
    | none => exact List.Pairwise.nil
    | some n => exact dates.rises h n stored
  · obtain ⟨source, k, original, same, after⟩ := Tree.perform_of_replaced replaces done
    rw [same] at done ⊢
    obtain ⟨b, ended, answered⟩ := Outcome.map_eq_done.mp done
    cases answered
    refine ⟨shows.slotInParent_of_replaced unkeyed ended, source, k, original,
      fun reached sourceBuiltIn => ?_⟩
    obtain ⟨g, origin, -⟩ := reached.exists_forest sourceBuiltIn.inRange
    rw [after]
    exact shows.copies_rise (builtIn.place_eq_append unkeyed) unkeyed dates origin ended

/-- Below a root stand 7 and 2. A copy of a tree with the value 8, below which 6 and 3 were sorted,
takes the place of 7. -/
def replacedRun : List (Request Nat) :=
  [.withRoot 5 .insertionOrder, .edit 0 (.insert ⟨1, 0, 0⟩ 7), .edit 0 (.insert ⟨1, 0, 0⟩ 2),
    .withRoot 8 .insertionOrder, .edit 1 (.insert ⟨2, 0, 0⟩ 6), .edit 1 (.insert ⟨2, 0, 0⟩ 3),
    .edit 1 (.sortChildren ⟨2, 0, 0⟩), .edit 0 (.replaceSubtree ⟨1, 1, 0⟩ 1)]

theorem siblings_in_order_sample :
    (∀ r ∈ replacedRun, r.sorts 0 = false) ∧ ∃ t, (run replacedRun).trees[0]? = some t ∧
      t.policy.BuiltIn ∧ t.policy.keyed = false ∧
      t.childrenAt ⟨1, 0, 0⟩ = [⟨1, 3, 0⟩, ⟨1, 2, 0⟩] ∧ t.values = [5, 8, 3, 6, 2] ∧
      ∃ l, (ledgers replacedRun)[0]? = some l ∧ l.rank ⟨1, 3, 0⟩ < l.rank ⟨1, 2, 0⟩ ∧
        l.rank ⟨1, 4, 0⟩ < l.rank ⟨1, 5, 0⟩ := by
  have unsorted : ∀ r ∈ replacedRun, r.sorts 0 = false := by
    simp [replacedRun, Request.sorts, Edit.sorts]
  obtain ⟨t, stands, policy⟩ : ∃ t, (run replacedRun).trees[0]? = some t ∧
      t.policy = .insertionOrder := by
    refine ⟨((Tree.sample .insertionOrder).perform (.replaceSubtree ⟨1, 1, 0⟩ _)).tree, rfl, ?_⟩
    rw [Tree.policy_perform, Tree.policy_sample]
  have seen : ∀ {β : Type} (look : Tree Nat → β) {b : β},
      (run replacedRun).trees[0]?.map look = some b → look t = b := by
    intro β look b found
    rw [stands] at found
    exact Option.some.inj found
  have builtIn : t.policy.BuiltIn := by
    rw [policy]
    exact .insertionOrder
  have unkeyed : t.policy.keyed = false := by
    rw [policy]
    rfl
  have children : t.childrenAt ⟨1, 0, 0⟩ = [⟨1, 3, 0⟩, ⟨1, 2, 0⟩] :=
    seen (Tree.childrenAt · _) (by cbv)
  have copies : t.childrenAt ⟨1, 3, 0⟩ = [⟨1, 4, 0⟩, ⟨1, 5, 0⟩] :=
    seen (Tree.childrenAt · _) (by cbv)
  have values : t.values = [5, 8, 3, 6, 2] := seen Tree.values (by cbv)
  obtain ⟨l, entered, rises, -⟩ := siblings_in_order unsorted stands builtIn unkeyed
  have above := rises ⟨1, 0, 0⟩
  have below := rises ⟨1, 3, 0⟩
  rw [children, List.pairwise_pair] at above
  rw [copies, List.pairwise_pair] at below
  exact ⟨unsorted, t, stands, builtIn, unkeyed, children, values, l, entered, above, below⟩

end Session

end PolicyTree
