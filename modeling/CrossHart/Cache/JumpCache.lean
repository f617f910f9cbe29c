import CrossHart.Word

/-!
# The jump cache

A table of 4096 slots in front of the index of compiled blocks.  A slot holds the last block that
was looked up among those whose addresses share their low bits.
-/

namespace CrossHart.Cache

/-- The number of slots. -/
abbrev jumpSlots : Nat := 4096

/-- The slot of an address.  Addresses are even. -/
def jumpSlot (pc : Word) : Fin jumpSlots :=
  ⟨(pc >>> 1).toNat % jumpSlots, Nat.mod_lt _ (by decide)⟩

/-- The jump cache: addresses and the numbers of their blocks. -/
structure JumpCache where
  slots : Vector (Option (Word × Nat)) jumpSlots := Vector.replicate _ none

namespace JumpCache

/-- The block at an address, if its slot holds it. -/
def lookup (c : JumpCache) (pc : Word) : Option Nat :=
  match c.slots[jumpSlot pc] with
  | some (tag, id) => if tag = pc then some id else none
  | none => none

/-- The cache with the block at an address. -/
def insert (c : JumpCache) (pc : Word) (id : Nat) : JumpCache :=
  { c with slots := c.slots.set (jumpSlot pc) (some (pc, id)) }

/-- The cache without the block at an address. -/
def remove (c : JumpCache) (pc : Word) : JumpCache :=
  if (c.lookup pc).isSome then { c with slots := c.slots.set (jumpSlot pc) none } else c

/-- The empty cache. -/
def empty : JumpCache := {}

end JumpCache

end CrossHart.Cache
