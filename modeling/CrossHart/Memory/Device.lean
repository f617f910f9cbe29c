import CrossHart.Word
import Std.Data.TreeMap

/-!
# Devices

A device is memory that does not belong to the guest.  What a read from it gives depends on
everything that happened to it before, of which it keeps the history.
-/

namespace CrossHart.Memory

/-- Something that happened to a device: a read with its result, or a write. -/
inductive Transfer where
  | read (offset : Word) (size : Nat) (value : Word)
  | write (offset : Word) (size : Nat) (value : Word)
  deriving DecidableEq, Repr

/-- What happened to a device. -/
structure History where
  /-- The transfers, the newest first. -/
  transfers : List Transfer := []
  /-- The byte last written to each offset, if any. -/
  written : Std.TreeMap Nat (BitVec 8) := ∅

namespace History

/-- The history after a read. -/
def read (h : History) (offset : Word) (size : Nat) (value : Word) : History :=
  { h with transfers := .read offset size value :: h.transfers }

/-- The history after a write.  A value has eight bytes, so no more are written. -/
def write (h : History) (offset : Word) (size : Nat) (value : Word) : History where
  transfers := .write offset size value :: h.transfers
  written :=
    (List.range (min size 8)).foldl
      (fun written i =>
        written.insert (offset + BitVec.ofNat 64 i).toNat (value.extractLsb' (8 * i) 8))
      h.written

end History

/-- A device: how it answers reads, and what happened to it so far. -/
structure Device where
  /-- The value read at an offset, after the given history. -/
  respond : History → Word → Nat → Word
  history : History := {}

namespace Device

/-- Reading `size` bytes at an offset. -/
def read (d : Device) (offset : Word) (size : Nat) : Word × Device :=
  let value := d.respond d.history offset size
  (value, { d with history := d.history.read offset size value })

/-- Writing the low `size` bytes of a value at an offset, at most all eight. -/
def write (d : Device) (offset : Word) (size : Nat) (value : Word) : Device :=
  { d with history := d.history.write offset size value }

/-- A device that keeps what is written to it; a byte that was never written holds the low bits of
its own offset. -/
def storage : Device where
  respond history offset size :=
    (List.range size).foldr
      (fun i rest =>
        let at' := offset + BitVec.ofNat 64 i
        let byte := (history.written[at'.toNat]?).getD (at'.setWidth 8)
        rest <<< 8 ||| byte.setWidth 64)
      0

end Device

end CrossHart.Memory
