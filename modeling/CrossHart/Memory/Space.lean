import CrossHart.Bytes
import CrossHart.Memory.Access
import CrossHart.Memory.Device

/-!
# The address space

The guest sees one stretch of RAM, in whole pages, and devices at other addresses.  The ranges do
not overlap, so each page has at most one backing.
-/

namespace CrossHart.Memory

/-- Where the bytes of a guest address are. -/
inductive Backing where
  /-- At a position of RAM. -/
  | ram (position : Nat)
  /-- At an offset of a device. -/
  | device (region : Nat) (offset : Word)
  deriving DecidableEq, Repr

/-- The backing of the byte a distance further on. -/
def Backing.shift (b : Backing) (distance : Word) : Except Crash Backing :=
  match b with
  | .ram position => do return .ram (← Size.sum position distance.toNat)
  | .device region offset => do return .device region (← Word.sum offset distance)

/-- The reasons for which a device is not mapped. -/
inductive MapError where
  /-- The range is empty, not in whole pages, or leaves the address space. -/
  | unaligned (base len : Word)
  /-- The range meets RAM or another device. -/
  | overlap (base len : Word)
  deriving DecidableEq, Repr

/-- The text of a mapping error. -/
def MapError.message : MapError → String
  | unaligned base len =>
    "region " ++ Text.hex0x base.toNat ++ "+" ++ Text.hex0x len.toNat ++
      " is empty or not page aligned"
  | overlap base len =>
    "region " ++ Text.hex0x base.toNat ++ "+" ++ Text.hex0x len.toNat ++
      " overlaps existing memory"

/-- A device at a range of addresses. -/
structure Region where
  base : Word
  len : Word
  device : Device

/-- Whether an address is in the range of a region. -/
def Region.contains (r : Region) (addr : Word) : Bool :=
  r.base.ule addr && (addr - r.base).ult r.len

/-- RAM and devices. -/
structure Space where
  ram : ByteArray
  base : Word
  regions : List Region := []

namespace Space

/-- An address space with RAM of a size, rounded up to whole pages, from an address on. -/
def create (base : Word) (size : Word) : Except Crash Space := do
  if inPage base ≠ 0 then throw .badArgument
  let bytes ← pageUp size
  if bytes.toNat < 0x8000000000000000 then return { ram := Bytes.zeros bytes.toNat, base }
  else throw .overflow

/-- Whether an address is in RAM. -/
def ramContains (s : Space) (addr : Word) : Bool :=
  s.base.ule addr && (addr - s.base).toNat < s.ram.size

/-- The address space with a device at `[base, base + len)`. -/
def map (s : Space) (base len : Word) (device : Device) : Except Crash (Except MapError Space) :=
  if len = 0 ∨ inPage base ≠ 0 ∨ inPage len ≠ 0 ∨ Word.count ≤ base.toNat + len.toNat then
    .ok (.error (.unaligned base len))
  else do
    let ramEnd ← Word.sum s.base (BitVec.ofNat 64 s.ram.size)
    let last := base + len
    let meets (start stop : Word) := base.ult stop && start.ult last
    if meets s.base ramEnd || s.regions.any fun r => meets r.base (r.base + r.len) then
      return .error (.overlap base len)
    else
      return .ok { s with regions := s.regions ++ [{ base, len, device }] }

/-- The backing of the page of an address. -/
def resolve (s : Space) (addr : Word) : Option Backing :=
  let page := pageStart addr
  if s.ramContains page then some (.ram (page - s.base).toNat)
  else
    (s.regions.findIdx? (·.contains page)).bind fun i =>
      s.regions[i]?.map fun r => .device i (page - r.base)

/-- Reading `size` bytes, which lie within one page. -/
def read (s : Space) (b : Backing) (size : Nat) : Except Crash (Word × Space) :=
  match b with
  | .ram position =>
    if size ≤ 8 ∧ position + size ≤ s.ram.size then
      .ok (BitVec.ofNat 64 (Bytes.readNat s.ram position size), s)
    else .error .outOfBounds
  | .device i offset =>
    match s.regions[i]? with
    | none => .error .outOfBounds
    | some r =>
      let (value, device) := r.device.read offset size
      .ok (value, { s with regions := s.regions.set i { r with device } })

/-- Writing the low `size` bytes of a value, which lie within one page. -/
def write (s : Space) (b : Backing) (size : Nat) (value : Word) : Except Crash Space :=
  match s, b with
  | ⟨ram, base, regions⟩, .ram position =>
    if size ≤ 8 ∧ position + size ≤ ram.size then
      .ok ⟨Bytes.overwrite ram position (Bytes.ofWord size value), base, regions⟩
    else .error .outOfBounds
  | ⟨ram, base, regions⟩, .device i offset =>
    match regions[i]? with
    | none => .error .outOfBounds
    | some r =>
      .ok ⟨ram, base, regions.set i { r with device := r.device.write offset size value }⟩

end Space

end CrossHart.Memory
