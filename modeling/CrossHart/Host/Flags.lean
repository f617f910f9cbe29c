import CrossHart.Host.Reg

/-!
# Host arithmetic

What the arithmetic operations and shifts of the host compute, and the flags they leave.
-/

namespace CrossHart.Host

/-- The flags that conditions look at. -/
structure Flags where
  carry : Bool
  parity : Bool
  zero : Bool
  sign : Bool
  overflow : Bool
  deriving DecidableEq, Repr

/-- Whether the low byte of a result has an even number of ones. -/
def evenParity {n : Nat} (v : BitVec n) : Bool :=
  ((List.range 8).countP v.getLsbD) % 2 == 0

namespace Flags

/-- The flags after a result, with the given carry and overflow. -/
def ofResult {n : Nat} (v : BitVec n) (carry overflow : Bool) : Flags :=
  ⟨carry, evenParity v, v == 0, v.msb, overflow⟩

/-- The flags after an addition. -/
def ofSum {n : Nat} (a b : BitVec n) : Flags :=
  ofResult (a + b) (a.uaddOverflow b) (a.saddOverflow b)

/-- The flags after a subtraction. -/
def ofDifference {n : Nat} (a b : BitVec n) : Flags :=
  ofResult (a - b) (a.ult b) (a.ssubOverflow b)

/-- The flags after an operation on bits. -/
def ofBits {n : Nat} (v : BitVec n) : Flags :=
  ofResult v false false

end Flags

/-- Whether a condition holds. -/
def Cond.holds (c : Cond) (f : Flags) : Bool :=
  match c with
  | jo => f.overflow
  | jno => !f.overflow
  | jb => f.carry
  | jae => !f.carry
  | je => f.zero
  | jne => !f.zero
  | jbe => f.carry || f.zero
  | ja => !(f.carry || f.zero)
  | js => f.sign
  | jns => !f.sign
  | jp => f.parity
  | jnp => !f.parity
  | jl => f.sign != f.overflow
  | jge => f.sign == f.overflow
  | jle => f.zero || f.sign != f.overflow
  | jg => !(f.zero || f.sign != f.overflow)

/-- The result of an arithmetic operation, none for a comparison, and the flags. -/
def Arith.eval {n : Nat} (op : Arith) (a b : BitVec n) : Option (BitVec n) × Flags :=
  match op with
  | add => (some (a + b), .ofSum a b)
  | sub => (some (a - b), .ofDifference a b)
  | cmp => (none, .ofDifference a b)
  | or => (some (a ||| b), .ofBits (a ||| b))
  | and => (some (a &&& b), .ofBits (a &&& b))
  | xor => (some (a ^^^ b), .ofBits (a ^^^ b))

/-- The result of a shift.  The amount counts modulo 64 on 64 bits and modulo 32 on others. -/
def Shift.eval {n : Nat} (op : Shift) (a : BitVec n) (amount : Nat) : BitVec n :=
  let k := amount % if n = 64 then 64 else 32
  match op with
  | shl => a <<< k
  | shr => a >>> k
  | sar => a.sshiftRight k

end CrossHart.Host
