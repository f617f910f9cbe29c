import CrossHart.Bytes
import CrossHart.Hart.Registers
import CrossHart.Text.Hex

/-!
# Snapshots

A snapshot is the registers and the RAM of a guest.  As bytes it is a header of a magic number, a
version and flags, then the registers and the program counter, the first address of RAM, its
length, and its bytes.
-/

namespace CrossHart

/-- The registers and RAM of a guest. -/
structure Snapshot where
  regs : Registers
  base : Word
  memory : ByteArray

/-- Snapshots are equal if they have the same registers, first address and bytes. -/
instance : BEq Snapshot where
  beq s t := s.regs == t.regs && s.base == t.base && s.memory.data == t.memory.data

/-- The reasons for which bytes are no snapshot, or no snapshot of this machine. -/
inductive SnapshotError where
  /-- There are too few bytes. -/
  | tooShort
  | badMagic
  | version (n : Nat)
  | nonZeroX0 (v : Word)
  | sizeMismatch (len capacity : Nat)
  deriving DecidableEq, Repr

/-- The text of a snapshot error. -/
def SnapshotError.message : SnapshotError → String
  | tooShort => "snapshot i/o: failed to fill whole buffer"
  | badMagic => "bad snapshot magic"
  | version n => "unsupported snapshot version " ++ n.repr
  | nonZeroX0 v => "x0 must be zero in a snapshot (found " ++ Text.hex0x v.toNat ++ ")"
  | sizeMismatch len capacity =>
    "memory image of " ++ len.repr ++ " bytes does not fit guest memory of " ++ capacity.repr ++
      " bytes"

namespace Snapshot

/-- The bytes with which a snapshot starts. -/
def magic : List UInt8 := [0x52, 0x56, 0x53, 0x4e]

/-- The version of the format. -/
def version : Nat := 1

/-- The greatest length of RAM that is read. -/
def maxLength : Nat := 0x1000000000

/-- The number of bytes in front of RAM. -/
def headerSize : Nat := 288

/-- The bytes in front of RAM. -/
def header (s : Snapshot) : List UInt8 :=
  magic ++ Bytes.littleEndian 2 version ++ Bytes.littleEndian 2 0 ++
    s.regs.x.toList.flatMap (Bytes.ofWord 8) ++ Bytes.ofWord 8 s.regs.pc ++
    Bytes.ofWord 8 s.base ++ Bytes.littleEndian 8 s.memory.size

/-- The bytes of a snapshot. -/
def toBytes (s : Snapshot) : ByteArray :=
  ⟨s.header.toArray⟩ ++ s.memory

/-- The little-endian number of `n` bytes at a position, if there are as many bytes. -/
def number? (data : ByteArray) (start n : Nat) : Except SnapshotError Nat :=
  if start + n ≤ data.size then .ok (Bytes.readNat data start n) else .error .tooShort

/-- The word at a position, if there are as many bytes. -/
def word? (data : ByteArray) (start : Nat) : Except SnapshotError Word :=
  (number? data start 8).map (BitVec.ofNat 64)

/-- The snapshot at the front of a byte string, and the number of its bytes.  Flags are ignored. -/
def read (data : ByteArray) : Except SnapshotError (Snapshot × Nat) := do
  discard <| number? data 0 4
  if Bytes.slice0 data 0 4 ≠ magic then throw .badMagic
  let v ← number? data 4 2
  if v ≠ version then throw (.version v)
  discard <| number? data 6 2
  let x ← (Vector.range 32).mapM fun i => word? data (8 + 8 * i)
  if x[0] ≠ 0 then throw (.nonZeroX0 x[0])
  let pc ← word? data 264
  let base ← word? data 272
  let len ← number? data 280 8
  if maxLength < len then throw (.sizeMismatch len maxLength)
  if headerSize + len ≤ data.size then
    return (⟨⟨x, pc⟩, base, data.extract headerSize (headerSize + len)⟩, headerSize + len)
  else throw .tooShort

end Snapshot

end CrossHart
