import CrossHart.Hart.Step

/-!
# Services for compiled code

Compiled code does not touch memory and does not carry out rare instructions itself; it calls one
of four services.  A service gives a value and says whether it failed; the exception of one that
failed is left in the hart.
-/

namespace CrossHart.Hart

open Isa

/-- The result of a service. -/
structure Reply where
  value : Word
  failed : Bool
  deriving DecidableEq, Repr

namespace Service

/-- The guest with an exception left in its hart. -/
def raised (e : Exception) : Guest → Guest
  | ⟨hart, memory⟩ => ⟨{ hart with cause := BitVec.ofNat 64 e.cause.code, tval := e.tval }, memory⟩

/-- The reply of an action on the guest. -/
def reply (a : Action Guest Exception Word) (g : Guest) : Except Crash (Reply × Guest) :=
  match a.on g with
  | .error crash => .error crash
  | .ok (.ok value, g) => .ok (⟨value, false⟩, g)
  | .ok (.error e, g) => .ok (⟨0, true⟩, raised e g)

/-- The load with a code, of an address. -/
def load (addr : Word) (code : Word) (g : Guest) : Except Crash (Reply × Guest) :=
  match LoadOp.ofCode? (code.toNat % 256) with
  | none => .error (.breach .badLoad)
  | some op => reply (op.extend <$> Hart.load addr op.size) g

/-- The store of the low bytes of a value. -/
def store (addr value size : Word) (g : Guest) : Except Crash (Reply × Guest) :=
  reply (do Hart.store addr (size.toNat % 256) value; return 0) g

/-- The arithmetic operation with a code, of 32 bits if bit 8 of the code is set. -/
def arith (code a b : Word) (g : Guest) : Except Crash (Reply × Guest) :=
  match AluOp.ofCode? (code.toNat % 256) with
  | none => .error (.breach .badAlu)
  | some op => .ok (⟨if code.getLsbD 8 then op.eval32 a b else op.eval a b, false⟩, g)

/-- One step of the instruction with the given bits and address. -/
def stepRaw (raw : BitVec 32) (pc : Word) : Action Guest Exception Word :=
  match decode raw pc with
  | .error e => throw (.ofDecodeError e)
  | .ok (instr, width) => do
    match ← step ⟨pc, raw, instr, width⟩ with
    | .continue => return 0
    | .ecall | .fenceI => Action.lift (.error (.breach .endsBlock))

/-- A signed addition to the budget of a guest. -/
def addBudget (n : Word) : Guest → Except Crash Guest
  | ⟨hart, memory⟩ => (Word.signedSum hart.budget n).map fun budget => ⟨{ hart with budget }, memory⟩

/-- A signed subtraction from the budget of a guest. -/
def subBudget (n : Word) : Guest → Except Crash Guest
  | ⟨hart, memory⟩ =>
    (Word.signedDiff hart.budget n).map fun budget => ⟨{ hart with budget }, memory⟩

/-- One step of an instruction.  The block was charged for `unretired` instructions that were not
carried out yet; these do not count while the instruction is carried out. -/
def interpret (raw pc unretired : Word) (g : Guest) : Except Crash (Reply × Guest) := do
  let g ← addBudget unretired g
  let (r, g) ← reply (stepRaw (raw.setWidth 32) pc) g
  let g ← subBudget unretired g
  return (r, g)

end Service

end CrossHart.Hart
