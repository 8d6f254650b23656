import PolicyTree.Handle

/-! Slot storage with generation-checked handles. -/

namespace PolicyTree

/-- A place for one item. `generation` counts how often it has been emptied, modulo `2 ^ 32`. -/
structure Slot (α : Type) where
  generation : UInt32
  item : Option α

namespace Slot

variable {α : Type}

def occupied (s : Slot α) : Bool := s.item.isSome

def vacate (s : Slot α) : Slot α := ⟨s.generation + 1, none⟩

/-- An occupied slot is emptied; a vacant one keeps its generation. -/
def sweep (s : Slot α) : Slot α := if s.occupied then s.vacate else s

end Slot

/-- The slots of one owner. `free` lists the vacant ones, the next to be filled first, `allocated`
counts the others, and `reserved` is the number of slots asked for at creation. -/
structure Arena (α : Type) where
  owner : UInt32
  slots : Array (Slot α)
  free : List Nat
  allocated : Nat
  reserved : Nat

namespace Arena

variable {α : Type}

def withCapacity (owner : UInt32) (reserved : Nat) : Arena α := ⟨owner, #[], [], 0, reserved⟩

def empty (owner : UInt32) : Arena α := withCapacity owner 0

/-! ## Reading -/

/-- The item that `h` denotes: owner and generation must agree with the slot's. -/
def get? (a : Arena α) (h : Handle) : Option α :=
  if h.owner = a.owner then
    a.slots[h.index]?.bind fun s => if s.generation = h.generation then s.item else none
  else none

def contains (a : Arena α) (h : Handle) : Bool := (a.get? h).isSome

def len (a : Arena α) : Nat := a.allocated

def isEmpty (a : Arena α) : Bool := a.len == 0

def freeCount (a : Arena α) : Nat := a.free.length

/-! ## Writing -/

/-- The handle that the next allocation issues. -/
def fresh (a : Arena α) : Handle :=
  match a.free with
  | [] => ⟨a.owner, a.slots.size, 0⟩
  | i :: _ => ⟨a.owner, i, (a.slots[i]?.map Slot.generation).getD 0⟩

/-- Stores `x` under `a.fresh`: in the first free slot, or in a new one if none is free. -/
def allocate (a : Arena α) (x : α) : Arena α :=
  match a.free with
  | [] => { a with slots := a.slots.push ⟨0, some x⟩, allocated := a.allocated + 1 }
  | i :: rest =>
    { a with
      slots := a.slots.modify i fun s => { s with item := some x }
      free := rest
      allocated := a.allocated + 1 }

/-- Empties the slot of a live handle, so that every copy of the handle goes stale. -/
def erase (a : Arena α) (h : Handle) : Arena α :=
  if a.contains h then
    { a with
      slots := a.slots.modify h.index Slot.vacate
      free := h.index :: a.free
      allocated := a.allocated - 1 }
  else a

/-- The item taken out, with the arena left behind. -/
def take (a : Arena α) (h : Handle) : Option α × Arena α := (a.get? h, a.erase h)

def modify (a : Arena α) (h : Handle) (f : α → α) : Arena α :=
  if a.contains h then
    { a with slots := a.slots.modify h.index fun s => { s with item := s.item.map f } }
  else a

/-- Empties every slot. Generations keep counting, and the lowest slot is reused first. -/
def clear (a : Arena α) : Arena α :=
  { a with slots := a.slots.map Slot.sweep, free := List.range a.slots.size, allocated := 0 }

/-! ## Figures -/

/-- Use of the storage. `capacity` and `utilization` are known until more slots are in use than were
asked for. -/
structure Stats where
  allocated : Nat
  free : Nat
  fragmentation : Float
  capacity : Option Nat
  utilization : Option Float

/-- `part / whole`, or zero where `whole` is. -/
def ratio (part whole : Nat) : Float :=
  if whole = 0 then 0 else part.toFloat / whole.toFloat

def stats (a : Arena α) : Stats :=
  let capacity := if a.slots.size ≤ a.reserved then some a.reserved else none
  { allocated := a.len
    free := a.freeCount
    fragmentation := if a.len = 0 then 0 else ratio a.freeCount (a.len + a.freeCount)
    capacity
    utilization := capacity.map (ratio a.len) }

end Arena

end PolicyTree
