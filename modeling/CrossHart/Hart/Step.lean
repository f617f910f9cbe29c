import CrossHart.Hart.State
import CrossHart.Hart.Alu

/-!
# Single steps

`step` carries out one instruction.  When it raises an exception the program counter still points
at the instruction, and registers are as before; a store-conditional has then given up its
reservation all the same.
-/

namespace CrossHart.Hart

open Isa

/-- How an instruction ends that raises no exception. -/
inductive StepExit where
  /-- The program counter holds the address of the next instruction. -/
  | continue
  /-- A system call; the program counter still points at it. -/
  | ecall
  /-- The program counter holds the address of the next instruction, and compiled code no longer
  counts. -/
  | fenceI
  deriving DecidableEq, Repr

/-- The action of an instruction that is not a jump, a trap or a fence of instructions. -/
abbrev Effect := Action Guest Exception

/-- Loading, with a fault as the exception of the access. -/
def load (addr : Word) (size : Nat) : Effect Word :=
  Guest.onMemory .ofFault (Memory.load addr size)

/-- Storing, with a fault as the exception of the access. -/
def store (addr : Word) (size : Nat) (v : Word) : Effect Unit :=
  Guest.onMemory .ofFault (Memory.store addr size v)

/-! ### Atomics -/

/-- A word extended from the width of an atomic operation. -/
def extendTo (width : Width) (v : Word) : Word :=
  match width with
  | .word => (v.setWidth 32).signExtend 64
  | .double => v

/-- A word cut to the width of an atomic operation. -/
def truncateTo (width : Width) (v : Word) : Word :=
  match width with
  | .word => (v.setWidth 32).setWidth 64
  | .double => v

/-- What an atomic operation writes back, from the old value and the register operand. -/
def combine (op : AmoOp) (width : Width) (old src : Word) : Word :=
  match op with
  | .swap => src
  | .add => old + src
  | .xor => old ^^^ src
  | .and => old &&& src
  | .or => old ||| src
  | .min => if old.sle src then old else src
  | .max => if src.sle old then old else src
  | .minu => if (truncateTo width old).ult (truncateTo width src) then old else src
  | .maxu => if (truncateTo width old).ult (truncateTo width src) then src else old
  | .lr | .sc => old

/-- A load that reserves its address. -/
def loadReserved (width : Width) (rd : Nat) (addr : Word) : Effect Unit := do
  let v ← load addr width.size
  Guest.reserve addr
  Guest.setReg rd (extendTo width v)

/-- A store that happens only if its address is reserved, and leaves in `rd` whether it did not. -/
def storeConditional (width : Width) (rd rs2 : Nat) (addr : Word) : Effect Unit := do
  let reserved ← Guest.reservation
  Guest.reserve noReservation
  if reserved = addr then
    let v ← Guest.reg rs2
    store addr width.size v
    Guest.setReg rd 0
  else
    Guest.setReg rd 1

/-- A read, a computation and a write back.  Each fault counts as one of the store. -/
def readModifyWrite (op : AmoOp) (width : Width) (rd rs2 : Nat) (addr : Word) : Effect Unit := do
  let raise (_ : Memory.Fault) : Exception := ⟨.storeAccessFault, addr⟩
  discard <| Guest.onMemory raise (Memory.locate addr .write)
  let raw ← Guest.onMemory raise (Memory.load addr width.size)
  let old := extendTo width raw
  let src ← Guest.reg rs2
  Guest.onMemory raise
    (Memory.store addr width.size (combine op width old (extendTo width src)))
  Guest.setReg rd old

/-- An atomic operation.  Its address has to be a multiple of its width. -/
def atomic (op : AmoOp) (width : Width) (rd rs1 rs2 : Nat) : Effect Unit := do
  let addr ← Guest.reg rs1
  if addr.toNat % width.size ≠ 0 then
    throw ⟨if op = .lr then .loadMisaligned else .storeMisaligned, addr⟩
  match op with
  | .lr => loadReserved width rd addr
  | .sc => storeConditional width rd rs2 addr
  | _ => readModifyWrite op width rd rs2 addr

/-! ### Control and status registers -/

/-- The counters of cycles, time and instructions. -/
def isCounter (csr : Nat) : Bool :=
  csr == 0xc00 || csr == 0xc01 || csr == 0xc02

/-- Whether an operation on a control and status register writes it. -/
def writesCsr (op : CsrOp) (rs1 : Nat) : Bool :=
  match op with
  | .rw | .rwi => true
  | .rs | .rc | .rsi | .rci => rs1 != 0

/-- An operation on a control and status register.  There are only counters, all of them counting
instructions, and they cannot be written. -/
def accessCsr (raw : BitVec 32) (op : CsrOp) (rd rs1 csr : Nat) : Effect Unit :=
  if isCounter csr && !writesCsr op rs1 then do
    let n ← Guest.instret
    Guest.setReg rd n
  else throw (.illegal raw)

/-! ### Steps -/

/-- Going on at an address. -/
def goto (pc : Word) : Effect StepExit := do
  Guest.setPc pc
  return .continue

/-- One instruction.  The instructions on floating-point registers are illegal. -/
def step (d : Located) : Effect StepExit :=
  match d.instr with
  | .lui rd imm => do
    Guest.setReg rd imm
    goto d.next
  | .auipc rd imm => do
    Guest.setReg rd (d.pc + imm)
    goto d.next
  | .jal rd imm => do
    Guest.setReg rd d.next
    goto (d.pc + imm)
  | .jalr rd rs1 imm => do
    let base ← Guest.reg rs1
    Guest.setReg rd d.next
    goto ((base + imm) &&& ~~~1)
  | .branch op rs1 rs2 imm => do
    let a ← Guest.reg rs1
    let b ← Guest.reg rs2
    goto (if op.taken a b then d.pc + imm else d.next)
  | .load op rd rs1 imm => do
    let base ← Guest.reg rs1
    let raw ← load (base + imm) op.size
    Guest.setReg rd (op.extend raw)
    goto d.next
  | .store op rs1 rs2 imm => do
    let base ← Guest.reg rs1
    let v ← Guest.reg rs2
    store (base + imm) op.size v
    goto d.next
  | .opImm op rd rs1 imm => do
    let a ← Guest.reg rs1
    Guest.setReg rd (op.eval a imm)
    goto d.next
  | .opImm32 op rd rs1 imm => do
    let a ← Guest.reg rs1
    Guest.setReg rd (op.eval32 a imm)
    goto d.next
  | .op op rd rs1 rs2 => do
    let a ← Guest.reg rs1
    let b ← Guest.reg rs2
    Guest.setReg rd (op.eval a b)
    goto d.next
  | .op32 op rd rs1 rs2 => do
    let a ← Guest.reg rs1
    let b ← Guest.reg rs2
    Guest.setReg rd (op.eval32 a b)
    goto d.next
  | .amo op width rd rs1 rs2 _ _ => do
    atomic op width rd rs1 rs2
    goto d.next
  | .fence _ _ => goto d.next
  | .fenceI => do
    Guest.setPc d.next
    return .fenceI
  | .ecall => return .ecall
  | .ebreak => throw ⟨.breakpoint, d.pc⟩
  | .csr op rd rs1 csr => do
    accessCsr d.raw op rd rs1 csr
    goto d.next
  | .fpLoad .. | .fpStore .. | .fpFma .. | .fpOp .. => throw (.illegal d.raw)

end CrossHart.Hart
