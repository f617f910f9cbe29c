import CrossHart.Memory.Access
import CrossHart.Isa.Decode

/-!
# Exceptions

An instruction that cannot be carried out raises an exception: a cause and a value that says more
about it, an address or the bits of the instruction.
-/

namespace CrossHart

/-- The causes of exceptions. -/
inductive Cause where
  | instructionMisaligned
  | instructionAccessFault
  | illegalInstruction
  | breakpoint
  | loadMisaligned
  | loadAccessFault
  | storeMisaligned
  | storeAccessFault
  | ecallFromU
  deriving DecidableEq, Repr

namespace Cause

/-- The causes, in the order of their codes. -/
def all : List Cause :=
  [instructionMisaligned, instructionAccessFault, illegalInstruction, breakpoint, loadMisaligned,
    loadAccessFault, storeMisaligned, storeAccessFault, ecallFromU]

/-- The code of a cause. -/
def code : Cause → Nat
  | instructionMisaligned => 0
  | instructionAccessFault => 1
  | illegalInstruction => 2
  | breakpoint => 3
  | loadMisaligned => 4
  | loadAccessFault => 5
  | storeMisaligned => 6
  | storeAccessFault => 7
  | ecallFromU => 8

/-- The cause with a code. -/
def ofCode? (n : Nat) : Option Cause :=
  all[n]?

/-- A cause is found by its code. -/
@[simp]
theorem ofCode?_code (c : Cause) :
  ofCode? c.code = some c
  := by cases c <;> rfl

/-- The text of a cause. -/
def text : Cause → String
  | instructionMisaligned => "instruction address misaligned"
  | instructionAccessFault => "instruction access fault"
  | illegalInstruction => "illegal instruction"
  | breakpoint => "breakpoint"
  | loadMisaligned => "load address misaligned"
  | loadAccessFault => "load access fault"
  | storeMisaligned => "store address misaligned"
  | storeAccessFault => "store access fault"
  | ecallFromU => "environment call from U-mode"

/-- The cause of the exception for an access that is not allowed. -/
def ofAccess : Memory.Access → Cause
  | .read => loadAccessFault
  | .write => storeAccessFault
  | .execute => instructionAccessFault

end Cause

/-- An exception. -/
structure Exception where
  cause : Cause
  tval : Word
  deriving DecidableEq, Repr

namespace Exception

/-- The exception of an instruction that is not carried out. -/
def illegal (raw : BitVec 32) : Exception :=
  ⟨.illegalInstruction, raw.setWidth 64⟩

/-- The exception of a fault. -/
def ofFault (f : Memory.Fault) : Exception :=
  ⟨.ofAccess f.access, f.addr⟩

/-- The exception of bits that are no instruction. -/
def ofDecodeError (e : Isa.DecodeError) : Exception :=
  illegal e.word

end Exception

end CrossHart
