import CrossHart.Host.Instr
import CrossHart.Host.Platform

/-!
# The code buffer

Host code is kept in a buffer of fixed capacity.  The buffer is either open for writing or ready
for execution, never both.  Within a window of writing, what is written may be restricted to a
reservation.  Bytes that were never written are zero, and are not stored.
-/

namespace CrossHart.Host

/-- What a buffer can be used for. -/
inductive Mode where
  | write | execute
  deriving DecidableEq, Repr

/-- A buffer of host code. -/
structure Buffer where
  /-- The bytes that were written, up to the last one. -/
  bytes : ByteArray := .empty
  capacity : Nat
  /-- Where the next byte is written. -/
  offset : Nat := 0
  mode : Mode := .execute
  /-- The end of what may be written. -/
  limit : Nat := capacity

namespace Buffer

/-- The size of the pages a buffer consists of. -/
def hostPageSize : Nat := 4096

/-- A buffer of at least the given capacity, in whole pages, if the host grants it. -/
def create (size : Nat) (platform : Platform := .standard) : Except Crash (Option Buffer) := do
  let padded ← Size.sum (max size 1) (hostPageSize - 1)
  let capacity := padded / hostPageSize * hostPageSize
  return if platform.grants capacity then some { capacity } else none

/-- Opening a window of writing. -/
def beginWrite (b : Buffer) : Except Crash Buffer :=
  if b.mode = .execute then .ok { b with mode := .write, limit := b.capacity }
  else .error (.breach .windowOpen)

/-- Closing the window of writing. -/
def endWrite (b : Buffer) : Buffer :=
  { b with mode := .execute, limit := b.capacity }

/-- A buffer that is ready for execution. -/
def executable (b : Buffer) : Except Crash Buffer :=
  if b.mode = .execute then .ok b else .error (.breach .stillWritable)

/-! ### Writing -/

/-- Moving to an offset. -/
def seek (b : Buffer) (offset : Nat) : Except Crash Buffer :=
  if offset ≤ b.capacity then .ok { b with offset } else .error .badArgument

/-- Restricting what is written to the next `size` bytes. -/
def reserve (b : Buffer) (size : Nat) : Except Crash Buffer := do
  let limit ← Size.sum b.offset size
  if limit ≤ b.capacity then return { b with limit } else throw (.breach .reservation)

/-- Lifting the restriction. -/
def release (b : Buffer) : Buffer :=
  { b with limit := b.capacity }

/-- The buffer with bytes replaced from an offset on. -/
def overwrite : Buffer → Nat → List UInt8 → Buffer
  | ⟨bytes, capacity, offset, mode, limit⟩, start, new =>
    ⟨Bytes.overwrite (Bytes.extend bytes (start + new.length)) start new,
      capacity, offset, mode, limit⟩

/-- Writing bytes at the current offset. -/
def emit (b : Buffer) (new : List UInt8) : Except Crash Buffer :=
  if b.offset + new.length ≤ b.limit then
    let start := b.offset
    .ok (overwrite { b with offset := start + new.length } start new)
  else .error (.breach .bufferOverflow)

/-- Writing instructions at the current offset. -/
def emitInstr (b : Buffer) (i : Instr) : Except Crash Buffer :=
  b.emit i.encode

/-- Writing instructions at the current offset. -/
def emitAll (b : Buffer) (is : List Instr) : Except Crash Buffer :=
  b.emit (Instr.encodeAll is)

/-- Replacing the 32-bit field at an offset. -/
def patch (b : Buffer) (offset : Nat) (v : BitVec 32) : Except Crash Buffer :=
  if offset + 4 ≤ b.capacity then .ok (b.overwrite offset (field32 v)) else .error .badArgument

/-! ### Reading -/

/-- The byte at an offset. -/
def read8 (b : Buffer) (offset : Nat) : Except Crash Nat :=
  if offset < b.capacity then .ok (Bytes.at0 b.bytes offset).toNat else .error .badArgument

/-- The 32-bit field at an offset. -/
def read32 (b : Buffer) (offset : Nat) : Except Crash (BitVec 32) :=
  if offset + 4 ≤ b.capacity then .ok (BitVec.ofNat 32 (Bytes.readNat b.bytes offset 4))
  else .error .badArgument

/-- The bytes in `[start, stop)`. -/
def slice (b : Buffer) (start stop : Nat) : Except Crash (List UInt8) :=
  if start ≤ stop ∧ stop ≤ b.capacity then .ok (Bytes.slice0 b.bytes start (stop - start))
  else .error .badArgument

/-- The offset itself, if it is in the buffer or at its end. -/
def position (b : Buffer) (offset : Nat) : Except Crash Nat :=
  if offset ≤ b.capacity then .ok offset else .error .badArgument

end Buffer

end CrossHart.Host
