import CrossHart.Crash
import CrossHart.Isa.Decode
import CrossHart.Isa.Text
import CrossHart.Memory

/-!
# Blocks

A block is a straight run of guest instructions: it is entered at its first instruction only, and
only its last instruction can transfer control.  Blocks are what is compiled.

Instructions are read through a function that gives the half-word at an address or a fault, so
that blocks can be formed from guest memory as well as from anything else.
-/

namespace CrossHart

open Isa

/-- The reasons for which a block is not compiled. -/
inductive CompileError where
  | decode (e : DecodeError)
  | fetch (f : Memory.Fault)
  | outOfCapacity (needed : Nat)
  deriving DecidableEq, Repr

/-- The text of a compilation error. -/
def CompileError.message : CompileError → String
  | decode e => "decode failed: " ++ e.message
  | fetch f => "instruction fetch failed: " ++ f.message
  | outOfCapacity needed =>
    "code cache out of capacity (" ++ needed.repr ++ " bytes requested)"

namespace Block

/-- How a block ends. -/
inductive Ending where
  /-- A conditional branch: two known addresses. -/
  | branch
  /-- A jump to a known address. -/
  | jump
  /-- A jump to an address in a register. -/
  | indirect
  /-- A system call or breakpoint. -/
  | trap
  /-- A fence of instructions. -/
  | fence
  /-- The greatest number of instructions; the next address follows. -/
  | limit
  deriving DecidableEq, Repr

/-- A block that no instruction ends stops at the limit. -/
instance : Inhabited Ending := ⟨.limit⟩

/-- The ways in which a block ends. -/
def Ending.all : List Ending := [.branch, .jump, .indirect, .trap, .fence, .limit]

/-- How a block ends with an instruction. -/
def Ending.ofInstr : Instr → Ending
  | .branch .. => branch
  | .jal .. => jump
  | .jalr .. => indirect
  | .ecall | .ebreak => trap
  | .fenceI => fence
  | _ => limit

end Block

/-- A block of guest instructions. -/
structure Block where
  pc : Word
  insns : List Located
  ending : Block.Ending := .limit
  deriving DecidableEq, Repr

namespace Block

/-- The address after the last instruction. -/
def endPc (b : Block) : Word :=
  match b.insns.getLast? with
  | some d => d.next
  | none => b.pc

/-- The number of guest bytes of a block. -/
def guestSize (b : Block) : Except Crash Word :=
  Word.diff b.endPc b.pc

/-- The number of instructions of a block. -/
def count (b : Block) : Nat :=
  b.insns.length

/-! ### Formation -/

section Formation

variable {σ : Type} (fetch : Word → Action σ Memory.Fault Half)

/-- The bits of the instruction at an address: one half-word, and a second one if the first asks
for it. -/
def fetchRaw (pc : Word) : Action σ Memory.Fault (BitVec 32) := do
  let low ← fetch pc
  if low.isFull then
    let high ← fetch (pc + 2)
    return high ++ low
  else
    return low.setWidth 32

/-- The instruction at an address. -/
def readInstr (pc : Word) : Action σ CompileError Located := do
  let raw ← ExceptT.adapt CompileError.fetch (fetchRaw fetch pc)
  match decode raw pc with
  | .ok (instr, width) => return ⟨pc, raw, instr, width⟩
  | .error e => throw (.decode e)

/-- The instructions from an address on, up to the first that ends a block, but at most `n + 1`;
they follow those read before, which are given in reverse.  Also how the block ends. -/
def collect : (n : Nat) → (pc : Word) → List Located → Action σ CompileError (List Located × Ending)
  | n, pc, before => do
    let d ← readInstr fetch pc
    if d.instr.endsBlock then
      return ((d :: before).reverse, .ofInstr d.instr)
    else
      match n with
      | 0 => return ((d :: before).reverse, .limit)
      | n + 1 => collect n d.next (d :: before)

/-- The block at an address, of at most `limit` instructions but not empty.  There is none if an
instruction in it cannot be read. -/
def form (pc : Word) (limit : Nat) : Action σ CompileError Block := do
  let (insns, ending) ← collect fetch (limit - 1) pc []
  return { pc, insns, ending }

end Formation

end Block

end CrossHart
