import Mathlib.Data.List.Find
import PolicyTree.Proofs.Tree.Search
import PolicyTree.Proofs.Tree.Soundness

/-! What lookups find in reachable trees under the built-in keyed policies. -/

namespace PolicyTree

variable {α β γ : Type}

theorem findSome?_flatMap (xs : List α) (g : α → List β) (k : β → Option γ) :
    (xs.flatMap g).findSome? k = xs.findSome? fun x => (g x).findSome? k := by
  induction xs with
  | nil => rfl
  | cons x xs ih => rw [List.flatMap_cons, List.findSome?_append, ih, List.findSome?_cons]; grind

theorem findSome?_congr {xs : List α} {k k' : α → Option β} (agree : ∀ x ∈ xs, k x = k' x) :
    xs.findSome? k = xs.findSome? k' := by
  rw [← List.head?_filterMap, ← List.head?_filterMap, List.filterMap_congr agree]

/-! ## Policies that search every level -/

namespace Forest

variable {policy : Policy α} {cmp : α → α → Ordering} {target : α} {b f : Forest α}

/-- The first of the siblings that matches. -/
def hit (policy : Policy α) (target : α) (b : Forest α) : Option Handle :=
  (b.sprigs.find? (policy.agrees ·.value target)).map Sprig.handle

theorem exists_of_hit_eq_some {h : Handle} (found : b.hit policy target = some h) :
    ∃ c ∈ b.sprigs, c.handle = h ∧ policy.agrees c.value target = true := by
  obtain ⟨c, first, rfl⟩ := Option.map_eq_some_iff.mp found
  exact ⟨c, List.mem_of_find?_eq_some first, rfl, by simpa using List.find?_some first⟩

theorem hit_eq_none_iff :
    b.hit policy target = none ↔ ∀ c ∈ b.sprigs, ¬policy.agrees c.value target = true := by
  simp [hit]

/-- Among siblings in order, a searching policy answers with the one that matches, and otherwise
goes on below each of them. -/
theorem judge_searching (builtIn : policy.BuiltInSearching cmp) (asc : Ascending cmp b.rootValues)
    (below : List (Option (Option Handle))) :
    b.judge policy target below = ((b.hit policy target).map some).or (below.findSome? id) := by
  have sorts := builtIn.sortsBy
  have := sorts.trans
  rw [judge, builtIn.descend_eq]
  rcases asc.keyedSearch_cases target with ⟨i, y, found, entry, same, only⟩ | ⟨each, differ⟩
  · rw [getElem?_rootValues] at entry
    obtain ⟨c, place, rfl⟩ := Option.map_eq_some_iff.mp entry
    have first : b.sprigs.find? (policy.agrees ·.value target) = some c := by
      obtain ⟨inside, here⟩ := List.getElem?_eq_some_iff.mp place
      rw [List.find?_eq_some_iff_getElem]
      refine ⟨builtIn.agrees_iff.mpr same, i, inside, here, ?_⟩
      intro j before
      rw [Bool.not_eq_true', ← Bool.not_eq_true, builtIn.agrees_iff]
      intro equal
      have listed : b.rootValues[j]? = some b.sprigs[j].value := by
        rw [getElem?_rootValues, List.getElem?_eq_getElem (by omega), Option.map_some]
      have := only j _ listed equal
      omega
    have here : b.roots[i]? = some c.handle := by simp [place]
    rw [found]
    simp [hit, first, here]
  · have nowhere : b.sprigs.find? (policy.agrees ·.value target) = none := by
      rw [List.find?_eq_none]
      intro c top agrees
      exact differ c.value (List.mem_map.mpr ⟨c, top, rfl⟩) (builtIn.agrees_iff.mp agrees)
    rw [each]
    simp [hit, nowhere]

/-- Below each sibling a searching policy comes to the first node that has a matching child. -/
theorem verdictsBelow_searching (builtIn : policy.BuiltInSearching cmp) (ordered : f.Ordered cmp)
    (target : α) :
    f.verdictsBelow policy target =
      f.sprigs.map fun s => (s.nodes.findSome? (·.below.hit policy target)).map some := by
  induction f with
  | nil => rfl
  | cons h x below later ihBelow ihLater =>
    obtain ⟨⟨asc, inside⟩, others⟩ : (Ascending cmp below.rootValues ∧ below.Ordered cmp) ∧
        later.Ordered cmp := by
      simpa [Ordered, nodes, or_imp, forall_and, and_assoc] using ordered
    have deeper : (below.verdictsBelow policy target).findSome? id =
        (below.nodes.findSome? (·.below.hit policy target)).map some := by
      rw [ihBelow inside, List.findSome?_map, nodes_eq_flatMap, findSome?_flatMap,
        List.map_findSome?]
      rfl
    rw [verdictsBelow, judge_searching builtIn asc, deeper, ihLater others, sprigs_cons,
      List.map_cons, Sprig.nodes, List.findSome?_cons]
    cases below.hit policy target <;> rfl

theorem verdict_searching (builtIn : policy.BuiltInSearching cmp) {s : Sprig α}
    (ordered : s.Ordered cmp) (target : α) : s.below.verdict policy target =
      (s.nodes.findSome? (·.below.hit policy target)).map some := by
  have alone := verdictsBelow_searching builtIn (ordered_single_iff.mpr ordered) target
  rw [verdictsBelow_eq] at alone
  simpa using alone

end Forest

namespace Tree

open Forest

variable {cmp : α → α → Ordering} {t : Tree α} {f : Forest α} {q : Option Handle}
  {rest : List (Handle × Node α)} {s : Sprig α}

/-- `h` is live and a lookup of the target wants its value. -/
def Matches (t : Tree α) (target : α) (h : Handle) : Prop :=
  ∃ x, t.get? h = some x ∧ t.policy.agrees x target = true

/-- The first child of `h` that matches. -/
def matchingChild (t : Tree α) (target : α) (h : Handle) : Option Handle :=
  (t.childrenAt h).find? fun c => (t.get? c).any (t.policy.agrees · target)

theorem Stores.matchingChild_eq (stores : t.Stores q f rest) (mem : s ∈ f.nodes) (target : α) :
    t.matchingChild target s.handle = s.below.hit t.policy target := by
  have same : ∀ c ∈ s.below.sprigs, (t.get? c.handle).any (t.policy.agrees · target) =
      t.policy.agrees c.value target := by
    intro c child
    rw [stores.get?_eq (mem_nodes_of_child mem child), Option.any_some]
  rw [matchingChild, stores.childrenAt_eq mem, hit, roots, List.find?_map]
  exact congrArg _ (List.find?_congr same)

theorem Stores.matches_iff (stores : t.Stores q f rest) (mem : s ∈ f.nodes) (target : α) :
    t.Matches target s.handle ↔ t.policy.agrees s.value target = true := by
  simp [Matches, stores.get?_eq mem]

theorem Shows.find_searching (shows : t.Shows f) (builtIn : t.policy.BuiltInSearching cmp)
    (ordered : f.Ordered cmp) (target : α) :
    t.find target = (f.sprigs.head?).bind fun s =>
      if t.policy.agrees s.value target then some s.handle
      else f.nodes.findSome? (·.below.hit t.policy target) := by
  rw [shows.find_eq]
  rcases shows.sprigs_eq with ⟨-, rfl⟩ | ⟨s, -, rfl⟩
  · rfl
  · have below := verdict_searching builtIn (ordered_single_iff.mp ordered) target
    rw [nodes_single, sprigs_ofSprigs, List.head?_cons, Option.bind_some, Option.bind_some, below]
    cases s.nodes.findSome? (·.below.hit t.policy target) <;> rfl

/-- Siblings in order have different keys, so at most one of them matches. -/
theorem Shows.matching_unique (shows : t.Shows f) (builtIn : t.policy.BuiltInSearching cmp)
    (ordered : f.Ordered cmp) {target : α} {p c d : Handle} (first : t.Lists p c)
    (second : t.Lists p d) (hc : t.Matches target c) (hd : t.Matches target d) : c = d := by
  have := builtIn.sortsBy.trans
  obtain ⟨n, live, listed⟩ := first
  obtain ⟨s, mem, rfl, -, children⟩ := shows.exists_node live
  obtain ⟨n', live', listed'⟩ := second
  obtain rfl := Option.some.inj (live.symm.trans live')
  rw [← children] at listed listed'
  obtain ⟨i, placed⟩ := List.mem_iff_getElem?.mp listed
  obtain ⟨j, placed'⟩ := List.mem_iff_getElem?.mp listed'
  rw [getElem?_roots, Option.map_eq_some_iff] at placed placed'
  obtain ⟨k, entry, rfl⟩ := placed
  obtain ⟨k', entry', rfl⟩ := placed'
  have inside := fun {i : Nat} {c : Sprig α} (entry : s.below.sprigs[i]? = some c) =>
    mem_nodes_of_child mem (List.mem_of_getElem? entry)
  have same := builtIn.agrees_iff.mp ((shows.stores.matches_iff (inside entry) target).mp hc)
  have same' := builtIn.agrees_iff.mp ((shows.stores.matches_iff (inside entry') target).mp hd)
  by_cases place : i = j
  · subst place
    rw [Option.some.inj (entry.symm.trans entry')]
  · refine absurd (Std.TransCmp.eq_trans same (Std.OrientedCmp.eq_symm same'))
      ((ordered s mem).ne_eq place ?_ ?_)
    · rw [getElem?_rootValues, entry, Option.map_some]
    · rw [getElem?_rootValues, entry', Option.map_some]

theorem Shows.matches_of_find_eq_some (shows : t.Shows f)
    (builtIn : t.policy.BuiltInSearching cmp) (ordered : f.Ordered cmp) {target : α} {h : Handle}
    (answer : t.find target = some h) : t.Matches target h := by
  rw [shows.find_searching builtIn ordered] at answer
  obtain ⟨s, top, answer⟩ := Option.bind_eq_some_iff.mp answer
  have mem := mem_nodes_of_mem_sprigs (List.mem_of_head? top)
  split at answer
  case isTrue agrees =>
    obtain rfl := Option.some.inj answer
    exact (shows.stores.matches_iff mem target).mpr agrees
  case isFalse =>
    obtain ⟨k, inside, first⟩ := List.exists_of_findSome?_eq_some answer
    obtain ⟨c, child, rfl, agrees⟩ := exists_of_hit_eq_some first
    exact (shows.stores.matches_iff (mem_nodes_of_child inside child) target).mpr agrees

theorem Shows.not_matches_of_find_eq_none (shows : t.Shows f)
    (builtIn : t.policy.BuiltInSearching cmp) (ordered : f.Ordered cmp) {target : α}
    (nowhere : t.find target = none) (h : Handle) : ¬t.Matches target h := by
  rintro ⟨x, valued, agrees⟩
  obtain ⟨n, live, rfl⟩ := Option.map_eq_some_iff.mp valued
  obtain ⟨k, mem, rfl, value, -⟩ := shows.exists_node live
  rw [shows.find_searching builtIn ordered] at nowhere
  rcases shows.locate k.handle with ⟨dead, -⟩ | ⟨s, rfl, same, -⟩ |
    ⟨s, inside, i, c, child, same, -⟩
  · rw [live] at dead
    cases dead
  · obtain rfl := node_unique shows.nodup mem (mem_nodes_single s) same.symm
    simp [value, agrees] at nowhere
  · have listed := List.mem_of_getElem? child
    obtain rfl := node_unique shows.nodup mem (mem_nodes_of_child inside listed) same.symm
    rcases shows.sprigs_eq with ⟨-, rfl⟩ | ⟨r, -, rfl⟩
    · simp at mem
    · rw [sprigs_ofSprigs, List.head?_cons, Option.bind_some] at nowhere
      split at nowhere
      case isTrue => cases nowhere
      case isFalse =>
        have missed := hit_eq_none_iff.mp (List.findSome?_eq_none_iff.mp nowhere s inside)
        exact missed k listed (value ▸ agrees)

/-- In a tree under a searching policy a lookup answers with the root if that matches, and otherwise
with the one matching child of the first node in pre-order that has one. It finds nothing just
where nothing matches. -/
theorem Reachable.find_eq_first_matching_child (reached : t.Reachable)
    (builtIn : t.policy.BuiltInSearching cmp) (target : α) :
    (∀ r, t.root = some r → t.Matches target r → t.find target = some r) ∧
      ((∀ r, t.root = some r → ¬t.Matches target r) →
        t.find target = t.handles.findSome? (t.matchingChild target)) ∧
      (∀ p c d, t.Lists p c → t.Lists p d → t.Matches target c → t.Matches target d → c = d) ∧
      (t.find target = none ↔ ∀ h, ¬t.Matches target h) ∧
      ∀ h, t.find target = some h → t.Matches target h := by
  obtain ⟨f, shows, ordered⟩ := reached.exists_ordered_forest builtIn.sortsBy
  have found := shows.find_searching builtIn ordered target
  have sound : ∀ h, t.find target = some h → t.Matches target h := fun h =>
    shows.matches_of_find_eq_some builtIn ordered
  have hits : t.handles.findSome? (t.matchingChild target) =
      f.nodes.findSome? (·.below.hit t.policy target) := by
    rw [shows.handles_eq, Forest.handles, List.findSome?_map]
    exact findSome?_congr fun s mem => shows.stores.matchingChild_eq mem target
  refine ⟨?_, ?_, fun p c d => shows.matching_unique builtIn ordered,
    ⟨shows.not_matches_of_find_eq_none builtIn ordered, ?_⟩, sound⟩
  · intro r root agrees
    obtain ⟨s, rfl, rfl⟩ := shows.eq_single root
    rw [found, sprigs_ofSprigs, List.head?_cons, Option.bind_some, if_pos]
    exact (shows.stores.matches_iff (mem_nodes_single s) target).mp agrees
  · intro differs
    rw [found, hits]
    rcases shows.sprigs_eq with ⟨-, rfl⟩ | ⟨s, isRoot, rfl⟩
    · rfl
    · rw [sprigs_ofSprigs, List.head?_cons, Option.bind_some, if_neg]
      exact fun agrees => differs s.handle isRoot
        ((shows.stores.matches_iff (mem_nodes_single s) target).mpr agrees)
  · intro nowhere
    exact Option.eq_none_iff_forall_ne_some.mpr fun h answer => nowhere h (sound h answer)

/-- The first node with a child 9 is 7, below the root. -/
theorem find_eq_first_matching_child_sample :
    (Tree.sampleDeep .naturalOrder).find 9 = some ⟨1, 4, 0⟩ ∧
      (Tree.sampleDeep .naturalOrder).handles.findSome?
        ((Tree.sampleDeep .naturalOrder).matchingChild 9) = some ⟨1, 4, 0⟩ ∧
      (Tree.sampleDeep .naturalOrder).Matches 9 ⟨1, 4, 0⟩ ∧
      ∀ h, ¬(Tree.sampleDeep .naturalOrder).Matches 4 h := by
  have builtIn : (Tree.sampleDeep .naturalOrder).policy.BuiltInSearching compare := by
    rw [policy_sampleDeep]
    exact .naturalOrder
  have spec := fun target =>
    (reachable_sampleDeep .naturalOrder).find_eq_first_matching_child builtIn target
  have found : (Tree.sampleDeep .naturalOrder).find 9 = some ⟨1, 4, 0⟩ := by decide +kernel
  have missed : (Tree.sampleDeep .naturalOrder).find 4 = none := by decide +kernel
  have below : ∀ r, (Tree.sampleDeep .naturalOrder).root = some r →
      ¬(Tree.sampleDeep .naturalOrder).Matches 9 r := by
    intro r root
    obtain rfl : ⟨1, 0, 0⟩ = r := by
      have top : (Tree.sampleDeep .naturalOrder).root = some ⟨1, 0, 0⟩ := by decide +kernel
      exact Option.some.inj (top.symm.trans root)
    rintro ⟨x, valued, agrees⟩
    have five : (Tree.sampleDeep .naturalOrder).get? ⟨1, 0, 0⟩ = some 5 := by decide +kernel
    obtain rfl := Option.some.inj (five.symm.trans valued)
    exact absurd agrees (by decide +kernel)
  exact ⟨found, ((spec 9).2.1 below).symm.trans found, (spec 9).2.2.2.2 _ found,
    (spec 4).2.2.2.1.mp missed⟩

end Tree

end PolicyTree
