import CrossHart.Host.Buffer

/-!
# Jumps in the code buffer

A jump between places of the buffer is one byte and a 32-bit displacement, counted from the end of
the jump.  Jumps between blocks are redirected while code is in use, so their displacements are
placed at multiples of four.
-/

namespace CrossHart.Host

/-- The number of bytes of a jump. -/
def jumpSize : Nat := 5

/-- The displacement of a jump that ends at `stop`. -/
def displacement (stop target : Nat) : BitVec 32 :=
  BitVec.ofInt 32 ((target : Int) - stop)

/-- The number of bytes to skip at an offset so that the displacement of a jump is at a multiple of
four. -/
def jumpPadding (offset : Nat) : Nat :=
  Size.roundUp (offset + 1) 4 - (offset + 1)

/-- Whether a displacement fits its field. -/
def fitsDisplacement (n : Int) : Bool :=
  -0x80000000 ≤ n ∧ n < 0x80000000

/-- A word as a signed number. -/
def signedOffset (n : Nat) : Int :=
  (BitVec.ofNat 64 n).toInt

/-- The offset at which the jump with the given bytes lands, if they are a jump. -/
def jumpTarget (site : List UInt8) (offset : Nat) : Except Crash (Option Nat) :=
  match site with
  | 0xe9 :: a :: b :: c :: d :: _ => do
    let stop ← Size.displacement (signedOffset offset + jumpSize)
    let disp := (BitVec.ofNat 32 (Bytes.ofLittleEndian [a, b, c, d])).toInt
    let target ← Size.displacement (stop + disp)
    return if 0 ≤ target then some target.toNat else none
  | _ => return none

namespace Buffer

/-- Writing a jump at the current offset. -/
def emitJump (b : Buffer) (target : Nat) : Except Crash Buffer := do
  let b ← b.emit [0xe9]
  discard <| Size.displacement (signedOffset target - (b.offset + 4 : Nat))
  b.emit (field32 (displacement (b.offset + 4) target))

/-- Writing a number of bytes that do nothing.  Writing none of them is never refused. -/
def emitPadding (b : Buffer) (n : Nat) : Except Crash Buffer :=
  if n = 0 then .ok b
  else if b.offset + n ≤ b.limit then b.emit (padding n)
  else .error (.breach .bufferOverflow)

/-- Writing a jump that can be redirected.  Also its offset. -/
def emitSite (b : Buffer) (target : Nat) : Except Crash (Nat × Buffer) := do
  let b ← b.emitPadding (jumpPadding b.offset)
  let offset := b.offset
  return (offset, ← b.emitJump target)

/-- Redirecting the jump at an offset. -/
def patchJump (b : Buffer) (offset target : Nat) : Except Crash Buffer :=
  if offset + jumpSize ≤ b.capacity ∧
      fitsDisplacement (signedOffset target - (offset + jumpSize : Nat)) then
    b.patch (offset + 1) (displacement (offset + jumpSize) target)
  else .error .badArgument

/-- The offset at which the jump at an offset lands. -/
def targetAt (b : Buffer) (offset : Nat) : Except Crash (Option Nat) := do
  let site ← b.slice offset (offset + jumpSize)
  jumpTarget site offset

end Buffer

end CrossHart.Host
