import CrossHart.Word

/-!
# Guest registers

The thirty-two integer registers and the program counter.  Register 0 reads as zero and ignores
writes.
-/

namespace CrossHart

/-- The integer registers and the program counter. -/
structure Registers where
  x : Vector Word 32 := Vector.replicate 32 0
  pc : Word := 0
  deriving DecidableEq

namespace Registers

/-- The value of a register. -/
def get (r : Registers) (i : Nat) : Except Crash Word :=
  if i = 0 then .ok 0
  else if h : i < 32 then .ok r.x[i]
  else .error .outOfBounds

/-- The registers after a write to one of them. -/
def set (r : Registers) (i : Nat) (v : Word) : Except Crash Registers :=
  if i = 0 then .ok r
  else if h : i < 32 then .ok { r with x := r.x.set i v }
  else .error .outOfBounds

/-- The registers with any of them replaced, register 0 too. -/
def setRaw (r : Registers) (i : Nat) (v : Word) : Except Crash Registers :=
  if h : i < 32 then .ok { r with x := r.x.set i v } else .error .outOfBounds

/-- Register 0 reads as zero. -/
@[simp]
theorem get_zero (r : Registers) :
  r.get 0 = .ok 0
  := rfl

/-- A write to register 0 changes nothing. -/
@[simp]
theorem set_zero (r : Registers) (v : Word) :
  r.set 0 v = .ok r
  := rfl

end Registers

/-! ### The registers of the calling convention -/

/-- The stack pointer. -/
def stackPointer : Nat := 2

/-- The first argument and result register. -/
def firstArgument : Nat := 10

/-- The register with the number of a system call. -/
def callNumber : Nat := 17

end CrossHart
