import CrossHart.Hart.Registers
import CrossHart.Hart.Exception
import CrossHart.Memory

/-!
# The hart

A hart is what executes guest instructions: registers, an account of how many instructions it may
still execute, the exception that was raised last on behalf of compiled code, and the address
reserved by the last load-reserved.  With memory it is a `Guest`.

The account is charged for a whole block when the block is entered.  `retired` counts the
instructions before the current run of compiled code, `budgetStart` is the account at its start.
-/

namespace CrossHart

/-- The reservation of a hart that holds none. -/
def noReservation : Word := -1

/-- The state of a hart. -/
structure Hart where
  regs : Registers := {}
  /-- The number of instructions that may still be executed, a signed word. -/
  budget : Word := 0
  /-- The budget at the start of the current run of compiled code. -/
  budgetStart : Word := 0
  /-- The number of instructions executed before the current run of compiled code. -/
  retired : Word := 0
  /-- The code of the cause of the last exception raised for compiled code. -/
  cause : Word := 0
  /-- The value of that exception. -/
  tval : Word := 0
  /-- The reserved address. -/
  reservation : Word := noReservation
  deriving DecidableEq

/-- The number of instructions executed so far, with those charged to the current run. -/
def Hart.instret (h : Hart) : Word :=
  h.retired + (h.budgetStart - h.budget)

/-- A hart and its memory. -/
structure Guest where
  hart : Hart := {}
  memory : Memory

namespace Guest

variable {ε : Type}

/-- An action on memory as an action on the guest. -/
def onMemory {α : Type} (raise : Memory.Fault → ε) (a : Action Memory Memory.Fault α) :
    Action Guest ε α :=
  .of fun ⟨hart, memory⟩ =>
    match a.on memory with
    | .error crash => .error crash
    | .ok (.ok v, memory) => .ok (.ok v, ⟨hart, memory⟩)
    | .ok (.error f, memory) => .ok (.error (raise f), ⟨hart, memory⟩)

/-- The value of a register. -/
def reg (i : Nat) : Action Guest ε Word :=
  .look fun g => g.hart.regs.get i

/-- A write to a register. -/
def setReg (i : Nat) (v : Word) : Action Guest ε Unit :=
  .change fun ⟨hart, memory⟩ => (hart.regs.set i v).map fun regs => ⟨{ hart with regs }, memory⟩

/-- A write to the program counter. -/
def setPc (pc : Word) : Action Guest ε Unit :=
  .change fun ⟨hart, memory⟩ => .ok ⟨{ hart with regs := { hart.regs with pc } }, memory⟩

/-- The reserved address. -/
def reservation : Action Guest ε Word :=
  .look fun g => .ok g.hart.reservation

/-- Reserving an address. -/
def reserve (addr : Word) : Action Guest ε Unit :=
  .change fun ⟨hart, memory⟩ => .ok ⟨{ hart with reservation := addr }, memory⟩

/-- The number of instructions executed so far. -/
def instret : Action Guest ε Word :=
  .look fun g => .ok g.hart.instret

end Guest

end CrossHart
