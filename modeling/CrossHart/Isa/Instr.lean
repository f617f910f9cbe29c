import CrossHart.Isa.Op

/-!
# Guest instructions

An instruction is one of the classes of the base set and its extensions, with the fields that
class needs.  Registers are numbers, and immediates are words, extended to 64 bits with their
sign.  A `Located` instruction is one that was read from an address: it knows its raw bits and
its width, by which a compressed instruction is told from the full one it stands for.
-/

namespace CrossHart.Isa

/-- A guest instruction. -/
inductive Instr where
  | lui (rd : Nat) (imm : Word)
  | auipc (rd : Nat) (imm : Word)
  | jal (rd : Nat) (imm : Word)
  | jalr (rd rs1 : Nat) (imm : Word)
  | branch (op : BranchOp) (rs1 rs2 : Nat) (imm : Word)
  | load (op : LoadOp) (rd rs1 : Nat) (imm : Word)
  | store (op : StoreOp) (rs1 rs2 : Nat) (imm : Word)
  | opImm (op : AluOp) (rd rs1 : Nat) (imm : Word)
  | opImm32 (op : AluOp) (rd rs1 : Nat) (imm : Word)
  | op (op : AluOp) (rd rs1 rs2 : Nat)
  | op32 (op : AluOp) (rd rs1 rs2 : Nat)
  | amo (op : AmoOp) (width : Width) (rd rs1 rs2 : Nat) (aq rl : Bool)
  | fence (pred succ : Nat)
  | fenceI
  | ecall
  | ebreak
  | csr (op : CsrOp) (rd rs1 csr : Nat)
  | fpLoad (fmt : FpFmt) (rd rs1 : Nat) (imm : Word)
  | fpStore (fmt : FpFmt) (rs1 rs2 : Nat) (imm : Word)
  | fpFma (op : FmaOp) (fmt : FpFmt) (rd rs1 rs2 rs3 rm : Nat)
  | fpOp (op : FpOp) (fmt : FpFmt) (rd rs1 rs2 rm : Nat)
  deriving DecidableEq, Repr

namespace Instr

/-- The instructions that end a block: transfers of control, and those that leave the block for
the engine's attention. -/
def endsBlock : Instr → Bool
  | jal .. | jalr .. | branch .. | ecall | ebreak | fenceI => true
  | _ => false

/-- The instructions on floating-point registers. -/
def isFloat : Instr → Bool
  | fpLoad .. | fpStore .. | fpFma .. | fpOp .. => true
  | _ => false

end Instr

/-- An instruction with the address it was read from, its raw bits and its width in bytes.  Of
the raw bits of a compressed instruction only the low half counts. -/
structure Located where
  pc : Word
  raw : BitVec 32
  instr : Instr
  width : Nat
  deriving DecidableEq, Repr

namespace Located

/-- The address after an instruction. -/
def next (d : Located) : Word :=
  d.pc + BitVec.ofNat 64 d.width

/-- Whether an instruction was compressed. -/
def isCompressed (d : Located) : Bool :=
  d.width == 2

end Located

end CrossHart.Isa
