import PolicyTree.Proofs.Session
import PolicyTree.Tree.Audit
import PolicyTree.Tree.Find

/-!
The operations with guards: they halt where a policy would be shown a dead sibling, or a child list
be read or changed past its end. A node that has to be there is looked up again after every change.
-/

namespace PolicyTree.Tree

variable {α β : Type}

def AllLive (t : Tree α) (hs : List Handle) : Prop := ∀ h ∈ hs, t.contains h = true

instance (t : Tree α) (hs : List Handle) : Decidable (t.AllLive hs) :=
  inferInstanceAs (Decidable (∀ h ∈ hs, t.contains h = true))

/-- Goes on with `next` where `ok` holds, and halts elsewhere. -/
def ensure (t : Tree α) (ok : Prop) [Decidable ok] (next : Reply α β) : Reply α β :=
  if ok then next else ⟨.halted, t⟩

theorem ensure_of (t : Tree α) {ok : Prop} [Decidable ok] (holds : ok) (next : Reply α β) :
    t.ensure ok next = next :=
  if_pos holds

namespace Guarded

/-- Changes the child list of a node, which has to fit the change. -/
def relist (t : Tree α) (h : Handle) (fits : List Handle → Prop) [DecidablePred fits]
    (change : List Handle → List Handle) : Reply α Unit :=
  t.require (t.node h) fun n =>
    t.ensure (fits n.children) ((t.updateChildren h change).answer ())

/-! ## Insertions and copies -/

def insert (t : Tree α) (parent : Handle) (x : α) : Reply α Handle :=
  t.require (t.node parent) fun n =>
    t.ensure (t.AllLive n.children) <|
      match t.policy.place (t.valuesAt n.children) x with
      | .taken _ => t.refuse (.duplicateKey parent)
      | .before i =>
        let new := t.arena.fresh
        let grown := { t with arena := t.arena.allocate ⟨x, some parent, []⟩ }
        (relist grown parent (fun hs => min i hs.length ≤ hs.length)
          fun hs => hs.insertIdx (min i hs.length) new).andThen fun _ t => t.answer new

def copyLevel (source : Tree α) (parent dest : Handle) :
    List Handle → Tree α → Reply α (List (Handle × Handle))
  | [], t => t.answer []
  | h :: hs, t =>
    t.require (source.value h) fun x =>
      ((insert t dest x).mapError (.fromCopy parent)).andThen fun copy t =>
        (copyLevel source parent dest hs t).andThen fun copies t => t.answer ((h, copy) :: copies)

def copyPending (source : Tree α) : Nat → List (Handle × Handle) → Nat → Tree α → Reply α Nat
  | 0, _, copied, t => t.answer copied
  | _, [], copied, t => t.answer copied
  | bound + 1, (h, dest) :: pending, copied, t =>
    t.require (source.node h) fun n =>
      (copyLevel source h dest n.children t).andThen fun copies t =>
        copyPending source bound (copies.reverse ++ pending) (copied + copies.length) t

def copyBelow (t source : Tree α) (h dest : Handle) : Reply α Nat :=
  copyPending source source.len [(h, dest)] 0 t

def becomeCopy (t source : Tree α) (h : Handle) (x : α) : Reply α Nat :=
  copyBelow (t.setRoot x) source h t.freshRoot

def extract (source : Tree α) (h : Handle) (policy : Policy α) (owners : Owners) :
    Outcome (Tree α) × Owners :=
  match source.value h with
  | .error e => (.refused e, owners)
  | .ok x =>
    let (t, owners) := withPolicy policy owners
    let copied := becomeCopy t source h x
    (copied.outcome.map fun _ => copied.tree, owners)

def clone (source : Tree α) (owners : Owners) : Outcome (Tree α) × Owners :=
  let (t, owners) := withCapacity source.policy source.len owners
  match source.root.bind fun r => (source.get? r).map fun x => (r, x) with
  | none => (.done t, owners)
  | some (r, x) =>
    let copied := becomeCopy t source r x
    match copied.outcome with
    | .halted => (.halted, owners)
    | _ => (.done copied.tree, owners)

/-! ## Replacements -/

/-- Goes on with the place of `x` among the siblings of `h`, which all have to be live. -/
def placing (t : Tree α) (parent h : Handle) (x : α) (next : Placement → Reply α β) : Reply α β :=
  t.ensure (t.AllLive ((t.childrenAt parent).filter (· != h))) <|
    next (t.placeAmongOthers parent h x)

def moveChild (t : Tree α) (parent : Handle) (old new : Nat) (h : Handle) : Reply α Unit :=
  (relist t parent (old < ·.length) (·.eraseIdx old)).andThen fun _ t =>
    relist t parent (new ≤ ·.length) (·.insertIdx new h)

def reposition (t : Tree α) (h : Handle) (x : α) : Option (Handle × Nat) → Reply α Unit
  | none => t.answer ()
  | some (p, old) =>
    if t.policy.keyed then
      placing t p h x fun
        | .taken _ => t.refuse (.duplicateKey p)
        | .before new => if new = old then t.answer () else moveChild t p old new h
    else t.answer ()

def replaceValue (t : Tree α) (h : Handle) (x : α) : Reply α α :=
  t.require (t.slotInParent h) fun slot =>
    (reposition t h x slot).andThen fun _ t =>
      t.require (t.value h) fun old => (t.updateNode h ({ · with value := x })).answer old

/-- Lists `new` where the policy wants it in the place of `h`, and frees the subtree at `h`. -/
def settle (t : Tree α) (h new parent : Handle) (old : Nat) : Placement → Reply α Handle
  | .taken _ => (t.release new).refuse (.duplicateKey parent)
  | .before i =>
    let moved :=
      if i = old then relist t parent (old < ·.length) (·.set old new)
      else moveChild t parent old i new
    moved.andThen fun _ t => (t.release h).answer new

def substitute (t : Tree α) (h new : Handle) : Option (Handle × Nat) → Reply α Handle
  | none => ({ t with root := some new }.release h).answer new
  | some (p, old) =>
    if t.policy.keyed then
      match t.value new with
      | .error e => (t.release new).refuse e
      | .ok x => placing t p h x (settle t h new p old)
    else settle t h new p old (.before old)

def replaceWithSubtree (t : Tree α) (h : Handle) (source : Tree α) (sourceNode : Handle) :
    Reply α Handle :=
  t.require (t.slotInParent h) fun slot =>
    t.require (source.value sourceNode) fun x =>
      let new := t.arena.fresh
      let grown := { t with arena := t.arena.allocate ⟨x, slot.map Prod.fst, []⟩ }
      let copied := copyBelow grown source sourceNode new
      match copied.outcome with
      | .done _ => substitute copied.tree h new slot
      | .refused e => (copied.tree.release new).refuse e
      | .halted => ⟨.halted, copied.tree⟩

def replaceSubtree (t : Tree α) (h : Handle) (source : Tree α) : Reply α Handle :=
  match source.root with
  | none => t.refuse .emptyTree
  | some r => replaceWithSubtree t h source r

/-! ## Erasures and sort requests -/

def detach (t : Tree α) : Option (Handle × Nat) → Reply α Unit
  | none => { t with root := none }.answer ()
  | some (p, i) => relist t p (i < ·.length) (·.eraseIdx i)

def erase (t : Tree α) (h : Handle) : Reply α α :=
  t.require (t.slotInParent h) fun slot =>
    (detach t slot).andThen fun _ t =>
      t.require (t.value h) fun x => (t.release h).answer x

def sortRange (t : Tree α) (parent : Handle) (first last : Nat) (cmp : α → α → Ordering) :
    Reply α Unit :=
  t.ensure (first ≤ last ∧ last ≤ (t.childrenAt parent).length) <|
    match t.sortedHandles cmp (((t.childrenAt parent).take last).drop first) with
    | none => t.refuse (.freedChild parent)
    | some sorted =>
      relist t parent (fun hs => last ≤ hs.length ∧ sorted.length = last - first)
        fun hs => hs.take first ++ sorted ++ hs.drop last

def sortBy (t : Tree α) (first : Handle) (last : Option Handle) (cmp : α → α → Ordering) :
    Reply α Unit :=
  t.require (t.slotInParent first) fun
    | none => t.require (checkRootRange first last) fun _ => t.answer ()
    | some (p, i) =>
      t.require (t.rangeEnd p first last) fun j =>
        if j < i then t.refuse (.reversedRange i j)
        else if t.policy.keyed then t.answer ()
        else sortRange t p i j cmp

def sortChildrenBy (t : Tree α) (parent : Handle) (cmp : α → α → Ordering) : Reply α Unit :=
  t.require (t.children parent) fun
    | [] => t.answer ()
    | first :: _ => sortBy t first none cmp

def sortChildren [Ord α] (t : Tree α) (parent : Handle) : Reply α Unit :=
  sortChildrenBy t parent compare

def perform (t : Tree α) : Edit (Tree α) α → Reply α (Answer α)
  | .setRoot x => (t.setRoot x).answer (.handle t.freshRoot)
  | .clear => t.clear.answer .nothing
  | .insert parent x => (insert t parent x).map .handle
  | .replaceValue h x => (replaceValue t h x).map .value
  | .replaceSubtree h source => (replaceSubtree t h source).map .handle
  | .replaceWithSubtree h source sourceNode =>
    (replaceWithSubtree t h source sourceNode).map .handle
  | .erase h => (erase t h).map .value
  | .eraseChildren h => (t.eraseChildren h).map .count
  | .sortBy first last cmp => (sortBy t first last cmp).map fun _ => .nothing
  | .sortChildrenBy h cmp => (sortChildrenBy t h cmp).map fun _ => .nothing
  | @Edit.sortChildren _ _ order h => (@sortChildren α order t h).map fun _ => .nothing

/-! ## Lookups and checks -/

def search (t : Tree α) (target : α) : Nat → List Handle → Reply α (Option Handle)
  | 0, _ => t.answer none
  | _, [] => t.answer none
  | bound + 1, h :: pending =>
    t.ensure (t.AllLive (t.childrenAt h)) <|
      match t.searchRound target h pending with
      | .ended answer => t.answer answer
      | .going pending => search t target bound pending

def find (t : Tree α) (target : α) : Reply α (Option Handle) :=
  match t.root.bind fun r => (t.node? r).map fun n => (r, n) with
  | none => t.answer none
  | some (r, n) =>
    if t.policy.agrees n.value target then t.answer (some r) else search t target t.len [r]

/-- Asks the policy about the siblings from index `i` on, showing it those before. -/
def checkOrder (t : Tree α) (parent : Handle) (hs : List Handle) : Nat → List Handle → Reply α Unit
  | _, [] => t.answer ()
  | i, c :: later =>
    t.require (t.node c) fun n =>
      t.ensure (i ≤ hs.length ∧ t.AllLive (hs.take i)) <|
        if t.policy.place (t.valuesAt (hs.take i)) n.value = .before i then
          checkOrder t parent hs (i + 1) later
        else t.refuse (.siblingOrder i parent)

def checkSiblings (t : Tree α) (parent : Handle) (hs : List Handle) : Reply α Unit :=
  if t.policy.keyed then checkOrder t parent hs 0 hs else t.answer ()

def auditRounds (t : Tree α) : Nat → Agenda → Reply α Unit
  | 0, _ => t.answer ()
  | _, ⟨reached, []⟩ =>
    if reached = t.len then t.answer () else t.refuse (.unreachable reached t.len)
  | bound + 1, ⟨reached, h :: pending⟩ =>
    t.require (t.node h) fun n =>
      let listed := t.enlist h n.children ⟨reached + 1, pending⟩
      match listed.fault with
      | some e => t.refuse e
      | none => (checkSiblings t h n.children).andThen fun _ t => auditRounds t bound listed.agenda

def check (t : Tree α) : Reply α Unit :=
  match t.root with
  | none => if t.len = 0 then t.answer () else t.refuse (.nodesWithoutRoot t.len)
  | some r =>
    t.require (t.node r) fun n =>
      if n.parent.isSome then t.refuse .rootHasParent else auditRounds t (t.len + 2) ⟨0, [r]⟩

end Guarded

end PolicyTree.Tree
