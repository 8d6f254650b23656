/-! Handles of stored items, and the supply of arena names they carry. -/

namespace PolicyTree

/-- One occupancy of one slot of one arena. `generation` counts, modulo `2 ^ 32`, how often the slot
had been emptied before, and so tells an occupant from the later ones. -/
structure Handle where
  owner : UInt32
  index : Nat
  generation : UInt32
deriving DecidableEq

namespace Handle

/-- Slot, generation and arena, as in `#3.0@1`. -/
def text (h : Handle) : String :=
  s!"#{h.index}.{h.generation.toNat}@{h.owner.toNat}"

instance : ToString Handle := ⟨text⟩

end Handle

/-- The supply of arena names. Every arena takes the next one, and names repeat after `2 ^ 32`
arenas. -/
structure Owners where
  next : UInt32
deriving DecidableEq

namespace Owners

def start : Owners := ⟨1⟩

def rest (o : Owners) : Owners := ⟨o.next + 1⟩

end Owners

end PolicyTree
