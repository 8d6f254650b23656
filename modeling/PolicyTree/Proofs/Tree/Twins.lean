import PolicyTree.Proofs.Forest.Rename
import PolicyTree.Proofs.Tree.Replication
import PolicyTree.Proofs.Tree.Sorting

/-! Two trees that store the same nodes under different handles, and copies made in both. -/

namespace PolicyTree

open Forest

variable {α β γ : Type}

/-! ## Matching outcomes -/

/-- Both edits were done with matching answers, or both were refused for matching reasons. -/
inductive Outcome.Alike (reasons : TreeError → TreeError → Prop) (answers : β → γ → Prop) :
    Outcome β → Outcome γ → Prop where
  | done {b : β} {c : γ} (same : answers b c) : Alike reasons answers (.done b) (.done c)
  | refused {e e' : TreeError} (same : reasons e e') :
      Alike reasons answers (.refused e) (.refused e')

/-- The same failure. Nodes of the edited trees match by `own`, and a node of the tree that is
copied from is the same one for both. -/
inductive TreeError.Alike (own : Handle → Handle → Prop) (foreign : Handle → Prop) :
    TreeError → TreeError → Prop where
  | deadSource {h : Handle} (there : foreign h) :
      Alike own foreign (.invalidHandle h) (.invalidHandle h)
  | clash {h : Handle} (there : foreign h) : Alike own foreign (.duplicateKey h) (.duplicateKey h)
  | taken {h k : Handle} (here : own h k) : Alike own foreign (.duplicateKey h) (.duplicateKey k)
  | notSiblings {h k h' k' : Handle} (first : own h k) (last : own h' k') :
      Alike own foreign (.notSiblings h h') (.notSiblings k k')
  | emptySource : Alike own foreign .emptyTree .emptyTree
  | rootHasNoSiblings : Alike own foreign .rootHasNoSiblings .rootHasNoSiblings
  | reversedRange (i j : Nat) : Alike own foreign (.reversedRange i j) (.reversedRange i j)

theorem TreeError.Alike.mono {own own' : Handle → Handle → Prop} {foreign : Handle → Prop}
    {e e' : TreeError} (alike : Alike own foreign e e') (weaker : ∀ h k, own h k → own' h k) :
    Alike own' foreign e e' := by
  cases alike with
  | deadSource there => exact .deadSource there
  | clash there => exact .clash there
  | taken here => exact .taken (weaker _ _ here)
  | notSiblings first last => exact .notSiblings (weaker _ _ first) (weaker _ _ last)
  | emptySource => exact .emptySource
  | rootHasNoSiblings => exact .rootHasNoSiblings
  | reversedRange i j => exact .reversedRange i j

namespace Outcome.Alike

variable {δ ε : Type} {reasons reasons' : TreeError → TreeError → Prop}
  {answers weakerAnswers : β → γ → Prop} {answers' : δ → ε → Prop} {o : Outcome β} {o' : Outcome γ}

theorem mono (alike : Alike reasons answers o o')
    (weaker : ∀ e e', reasons e e' → reasons' e e')
    (weaker' : ∀ b c, answers b c → weakerAnswers b c) : Alike reasons' weakerAnswers o o' := by
  cases alike with
  | done same => exact .done (weaker' _ _ same)
  | refused same => exact .refused (weaker _ _ same)

theorem map {g : β → δ} {k : γ → ε} (alike : Alike reasons answers o o')
    (matching : ∀ b c, answers b c → answers' (g b) (k c)) :
    Alike reasons answers' (o.map g) (o'.map k) := by
  cases alike with
  | done same => exact .done (matching _ _ same)
  | refused same => exact .refused same

end Outcome.Alike

namespace Tree

variable {t u : Tree α} {f : Forest α} {s : Sprig α} {σ : Handle → Handle}
  {q q' : Option Handle} {rest rest' : List (Handle × Node α)} {foreign : Handle → Prop}
  {own : Handle → Handle → Prop} {x : α}

/-! ## Twins -/

/-- Under one policy `t` and `u` store the nodes of `f`, `u` under the handles that `σ` gives them.
What they store beside these has nothing to do with each other. -/
structure Twins (t : Tree α) (q : Option Handle) (rest : List (Handle × Node α)) (u : Tree α)
    (q' : Option Handle) (rest' : List (Handle × Node α)) (f : Forest α) (σ : Handle → Handle) :
    Prop where
  left : t.Stores q f rest
  right : u.Stores q' (f.rename σ) rest'
  policy_eq : u.policy = t.policy

namespace Twins

theorem inj (twins : Twins t q rest u q' rest' f σ) {h k : Handle} (first : h ∈ f.handles)
    (second : k ∈ f.handles) (same : σ h = σ k) : h = k := by
  have nodup := twins.right.nodup
  rw [handles_rename] at nodup
  exact List.inj_on_of_nodup_map nodup first second same

theorem single (twins : Twins t q rest u q' rest' f σ) (mem : s ∈ f.nodes) :
    ∀ h ∈ f.handles, σ h = σ s.handle → h = s.handle :=
  fun _ live same => twins.inj live (mem_handles mem) same

end Twins

/-! ## Growth of twins -/

/-- Both forests grew by the same nodes. Old nodes keep their names, and new ones get new ones. -/
structure TwinsGrow (t : Tree α) (q : Option Handle) (rest : List (Handle × Node α)) (u : Tree α)
    (q' : Option Handle) (rest' : List (Handle × Node α)) (f : Forest α) (σ : Handle → Handle)
    (t' u' : Tree α) (f' : Forest α) (σ' : Handle → Handle) : Prop where
  left : t.Grows f q rest t' f'
  right : u.Grows (f.rename σ) q' rest' u' (f'.rename σ')
  agree : ∀ h ∈ f.handles, σ' h = σ h

namespace TwinsGrow

variable {t' u' t'' u'' : Tree α} {f' f'' : Forest α} {σ' σ'' : Handle → Handle}

theorem twins (grow : TwinsGrow t q rest u q' rest' f σ t' u' f' σ') (policy : u.policy = t.policy) :
    Twins t' q rest u' q' rest' f' σ' :=
  ⟨grow.left.stores, grow.right.stores, by rw [grow.right.policy_eq, grow.left.policy_eq, policy]⟩

theorem trans (first : TwinsGrow t q rest u q' rest' f σ t' u' f' σ')
    (second : TwinsGrow t' q rest u' q' rest' f' σ' t'' u'' f'' σ'') :
    TwinsGrow t q rest u q' rest' f σ t'' u'' f'' σ'' where
  left := first.left.trans second.left
  right := first.right.trans second.right
  agree h live :=
    (second.agree h (first.left.grown.handles_subset live)).trans (first.agree h live)

end TwinsGrow

namespace Twins

theorem grow_self (twins : Twins t q rest u q' rest' f σ) :
    TwinsGrow t q rest u q' rest' f σ t u f σ :=
  ⟨twins.left.grows_self, twins.right.grows_self, fun _ _ => rfl⟩

/-- The policy sees the same values at both nodes. Both refuse the new one, or both store it in the
same place. -/
theorem insert_cases (twins : Twins t q rest u q' rest' f σ) (mem : s ∈ f.nodes) (x : α) :
    (t.insert s.handle x = t.refuse (.duplicateKey s.handle) ∧
        u.insert (σ s.handle) x = u.refuse (.duplicateKey (σ s.handle))) ∨
      ∃ t' u' f' σ', TwinsGrow t q rest u q' rest' f σ t' u' f' σ' ∧
        t.arena.fresh ∈ f'.handles ∧ σ' t.arena.fresh = u.arena.fresh ∧
        t.insert s.handle x = t'.answer t.arena.fresh ∧
        u.insert (σ s.handle) x = u'.answer u.arena.fresh := by
  have mem' := mem_rename mem σ
  have values : (s.rename σ).below.rootValues = s.below.rootValues := rootValues_rename σ s.below
  have right := twins.right.insert_cases mem' x
  rw [values, twins.policy_eq] at right
  rcases twins.left.insert_cases mem x with ⟨i, place, refused⟩ | ⟨i, place, done⟩
  · rcases right with ⟨-, -, refused'⟩ | ⟨j, place', -⟩
    · exact .inl ⟨refused, refused'⟩
    · rw [place] at place'
      cases place'
  · rcases right with ⟨j, place', -⟩ | ⟨j, place', done'⟩
    · rw [place] at place'
      cases place'
    · obtain rfl : i = j := by
        rw [place] at place'
        exact Placement.before.inj place'
      let new : Sprig α := ⟨t.arena.fresh, x, nil⟩
      have only : ∀ h, h ∈ new.handles ↔ h = t.arena.fresh := fun _ => List.mem_singleton
      have moved := rename_mapBelow_graft (k := plantAt i) (n := new) (fun _ => u.arena.fresh)
        (twins.single mem) (fun h here => (only h).mp here ▸ twins.left.fresh_notMem)
        fun τ b => rename_plantAt τ i new b
      have left := twins.left.grows_attach mem place
      have right := twins.right.grows_attach (x := x) (i := i) mem'
        (by rwa [values, twins.policy_eq])
      have named : graft σ (fun _ => u.arena.fresh) new t.arena.fresh = u.arena.fresh :=
        graft_of_mem ((only _).mpr rfl)
      refine .inr ⟨_, _, _, _, ⟨left, ?_, fun h live => ?_⟩, ?_, named, done, done'⟩
      · rw [moved]
        exact right
      · exact graft_of_notMem fun here =>
          twins.left.fresh_notMem ((only h).mp here ▸ live)
      · exact mem_handles_mapBelow (mem_handles mem) fun b => mem_handles_plantAt ..

/-! ## Copies -/

/-- Copying one level comes to matching copies, or ends at the same node of the source. -/
theorem copyLevel_alike (twins : Twins t q rest u q' rest' f σ) (source : Tree α)
    {parent : Handle} (parentForeign : foreign parent) (hs : List Handle)
    (allForeign : ∀ h ∈ hs, foreign h) (mem : s ∈ f.nodes) :
    ∃ f' σ', TwinsGrow t q rest u q' rest' f σ (copyLevel source parent s.handle hs t).tree
        (copyLevel source parent (σ s.handle) hs u).tree f' σ' ∧
      Outcome.Alike (TreeError.Alike own foreign)
        (fun cs ds => ds = cs.map (Prod.map id σ') ∧ ∀ c ∈ cs, foreign c.1 ∧ c.2 ∈ f'.handles)
        (copyLevel source parent s.handle hs t).outcome
        (copyLevel source parent (σ s.handle) hs u).outcome := by
  induction hs generalizing t u f σ s with
  | nil => exact ⟨f, σ, twins.grow_self, .done ⟨rfl, nofun⟩⟩
  | cons h hs ih =>
    obtain ⟨here, others⟩ := List.forall_mem_cons.mp allForeign
    rw [copyLevel, copyLevel]
    cases live : source.node? h with
    | none =>
      rw [value, node, live]
      exact ⟨f, σ, twins.grow_self, .refused (.deadSource here)⟩
    | some n =>
      rw [value, node, live, Except.map, require_ok, require_ok]
      rcases twins.insert_cases mem n.value with
        ⟨refused, refused'⟩ | ⟨t', u', f₁, σ₁, grow, planted, named, done, done'⟩
      · rw [refused, refused']
        exact ⟨f, σ, twins.grow_self, .refused (.clash parentForeign)⟩
      · obtain ⟨s', mem', same⟩ :=
          List.mem_map.mp (grow.left.grown.handles_subset (mem_handles mem))
        have named' : σ s.handle = σ₁ s'.handle := by rw [same, grow.agree _ (mem_handles mem)]
        rw [done, done', mapError_answer, mapError_answer, andThen_answer, andThen_answer,
          andThen_restate, andThen_restate, named', ← same]
        obtain ⟨f', σ', more, alike⟩ := ih (grow.twins twins.policy_eq) others mem'
        refine ⟨f', σ', grow.trans more, alike.map ?_⟩
        rintro cs _ ⟨rfl, listed⟩
        refine ⟨?_, List.forall_mem_cons.mpr ⟨⟨here, more.left.grown.handles_subset planted⟩, listed⟩⟩
        rw [List.map_cons, Prod.map, more.agree _ planted, named]
        rfl

/-- Copying level by level comes to the same number of copies, or ends at the same node of the
source. -/
theorem copyPending_alike (twins : Twins t q rest u q' rest' f σ) (source : Tree α)
    (down : ∀ h c, foreign h → source.Lists h c → foreign c) (bound : Nat)
    (pending : List (Handle × Handle)) (copied : Nat)
    (inside : ∀ c ∈ pending, foreign c.1 ∧ c.2 ∈ f.handles) :
    ∃ f' σ', TwinsGrow t q rest u q' rest' f σ (copyPending source bound pending copied t).tree
        (copyPending source bound (pending.map (Prod.map id σ)) copied u).tree f' σ' ∧
      Outcome.Alike (TreeError.Alike own foreign) Eq
        (copyPending source bound pending copied t).outcome
        (copyPending source bound (pending.map (Prod.map id σ)) copied u).outcome := by
  induction bound generalizing pending copied t u f σ with
  | zero => exact ⟨f, σ, twins.grow_self, .done rfl⟩
  | succ bound ih =>
    match pending with
    | [] => exact ⟨f, σ, twins.grow_self, .done rfl⟩
    | (h, dest) :: pending =>
      obtain ⟨⟨here, live⟩, others⟩ := List.forall_mem_cons.mp inside
      obtain ⟨s, mem, rfl⟩ := List.mem_map.mp live
      rw [List.map_cons, copyPending, Prod.map, copyPending]
      dsimp only [id]
      rw [node]
      cases stored : source.node? h with
      | none => exact ⟨f, σ, twins.grow_self, .refused (.deadSource here)⟩
      | some n =>
        rw [require_ok, require_ok]
        obtain ⟨f₁, σ₁, grow, alike⟩ := twins.copyLevel_alike source here n.children
          (fun c listed => down h c here ⟨n, stored, listed⟩) mem
        generalize copyLevel source h s.handle n.children t = left at grow alike ⊢
        generalize copyLevel source h (σ s.handle) n.children u = right at grow alike ⊢
        obtain ⟨outcome, t₁⟩ := left
        obtain ⟨outcome', u₁⟩ := right
        cases alike with
        | refused same => exact ⟨f₁, σ₁, grow, .refused same⟩
        | @done copies _ same =>
          obtain ⟨rfl, listed⟩ := same
          have stillInside : ∀ c ∈ copies.reverse ++ pending, foreign c.1 ∧ c.2 ∈ f₁.handles := by
            intro c mem
            rcases List.mem_append.mp mem with new | old
            · exact listed c (List.mem_reverse.mp new)
            · exact (others c old).imp_right fun live => grow.left.grown.handles_subset live
          have stack : (copies.map (Prod.map id σ₁)).reverse ++ pending.map (Prod.map id σ) =
              (copies.reverse ++ pending).map (Prod.map id σ₁) := by
            rw [List.map_append, List.map_reverse]
            congr 1
            apply List.map_congr_left
            intro c old
            rw [Prod.map, Prod.map, grow.agree _ (others c old).2]
          obtain ⟨f', σ', more, alike⟩ := ih (grow.twins twins.policy_eq)
            (copies.reverse ++ pending) (copied + copies.length) stillInside
          rw [← stack] at more alike
          dsimp only [Reply.andThen]
          rw [List.length_map]
          exact ⟨f', σ', grow.trans more, alike⟩

theorem copyBelow_alike (twins : Twins t q rest u q' rest' f σ) (source : Tree α) (k : Handle)
    (mem : s ∈ f.nodes) (own : Handle → Handle → Prop) :
    ∃ f' σ', TwinsGrow t q rest u q' rest' f σ (t.copyBelow source k s.handle).tree
        (u.copyBelow source k (σ s.handle)).tree f' σ' ∧
      Outcome.Alike (TreeError.Alike own (· ∈ source.subtree k)) Eq
        (t.copyBelow source k s.handle).outcome (u.copyBelow source k (σ s.handle)).outcome := by
  apply twins.copyPending_alike source (fun h c above link => above.tail link)
  intro c mem'
  obtain rfl := List.mem_singleton.mp mem'
  exact ⟨.refl, mem_handles mem⟩

/-- The copies built beside twins are the same sprig under two sets of handles. -/
theorem copy_beside_alike (twins : Twins t q rest u q' rest' f σ)
    (own : Handle → Handle → Prop) (x : α) (p p' : Option Handle) (source : Tree α) (k : Handle)
    {grown grown' : Tree α}
    (start : grown = { t with arena := t.arena.allocate ⟨x, p, []⟩ })
    (start' : grown' = { u with arena := u.arena.allocate ⟨x, p', []⟩ }) :
    ∃ below ρ, ρ t.arena.fresh = u.arena.fresh ∧
      (grown.copyBelow source k t.arena.fresh).tree.Stores q f
        ((Sprig.mk t.arena.fresh x below).records p ++ rest) ∧
      (grown'.copyBelow source k u.arena.fresh).tree.Stores q' (f.rename σ)
        ((Sprig.rename ρ ⟨t.arena.fresh, x, below⟩).records p' ++ rest') ∧
      (grown.copyBelow source k t.arena.fresh).tree.root = t.root ∧
      (grown'.copyBelow source k u.arena.fresh).tree.root = u.root ∧
      Outcome.Alike (TreeError.Alike own (· ∈ source.subtree k)) Eq
        (grown.copyBelow source k t.arena.fresh).outcome
        (grown'.copyBelow source k u.arena.fresh).outcome := by
  subst start start'
  have first := Stores.beside (s := ⟨t.arena.fresh, x, nil⟩) (twins.left.allocate ⟨x, p, []⟩)
  have first' := Stores.beside (s := ⟨u.arena.fresh, x, nil⟩) (twins.right.allocate ⟨x, p', []⟩)
  have leaves : Twins _ p (f.records q ++ rest) _ p' ((f.rename σ).records q' ++ rest')
      (ofSprigs [⟨t.arena.fresh, x, nil⟩]) fun _ => u.arena.fresh := ⟨first, first', twins.policy_eq⟩
  obtain ⟨f', ρ, grow, alike⟩ := leaves.copyBelow_alike source k (mem_nodes_single _) own
  obtain ⟨below, rfl⟩ := grow.left.grown.exists_sprig
  have right := grow.right.stores
  rw [rename_single] at right
  exact ⟨below, ρ, grow.agree _ (mem_handles (mem_nodes_single _)), grow.left.stores.around,
    right.around, grow.left.root_eq, grow.right.root_eq, alike⟩

end Twins

end Tree

end PolicyTree
