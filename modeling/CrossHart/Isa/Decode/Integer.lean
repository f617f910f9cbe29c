import CrossHart.Isa.Format
import CrossHart.Isa.Instr

/-!
# Full-width integer encodings

The opcode tables of the base integer set and of the multiplication, atomic and control register
extensions.  A table gives `none` for a combination of minor opcodes that means nothing.
-/

namespace CrossHart.Isa

namespace BranchOp

/-- The comparison with a minor opcode. -/
def ofFunct3? : BitVec 3 → Option BranchOp
  | 0b000#3 => some beq
  | 0b001#3 => some bne
  | 0b100#3 => some blt
  | 0b101#3 => some bge
  | 0b110#3 => some bltu
  | 0b111#3 => some bgeu
  | _ => none

end BranchOp

namespace LoadOp

/-- The load with a minor opcode. -/
def ofFunct3? : BitVec 3 → Option LoadOp
  | 0b000#3 => some lb
  | 0b001#3 => some lh
  | 0b010#3 => some lw
  | 0b011#3 => some ld
  | 0b100#3 => some lbu
  | 0b101#3 => some lhu
  | 0b110#3 => some lwu
  | _ => none

end LoadOp

namespace StoreOp

/-- The store with a minor opcode. -/
def ofFunct3? : BitVec 3 → Option StoreOp
  | 0b000#3 => some sb
  | 0b001#3 => some sh
  | 0b010#3 => some sw
  | 0b011#3 => some sd
  | _ => none

end StoreOp

namespace AluOp

/-- The arithmetic operation of two registers with these minor opcodes. -/
def ofFunct? (upper : BitVec 7) (lower : BitVec 3) : Option AluOp :=
  match upper, lower with
  | 0b0000000#7, 0b000#3 => some add
  | 0b0100000#7, 0b000#3 => some sub
  | 0b0000000#7, 0b001#3 => some sll
  | 0b0000000#7, 0b010#3 => some slt
  | 0b0000000#7, 0b011#3 => some sltu
  | 0b0000000#7, 0b100#3 => some xor
  | 0b0000000#7, 0b101#3 => some srl
  | 0b0100000#7, 0b101#3 => some sra
  | 0b0000000#7, 0b110#3 => some or
  | 0b0000000#7, 0b111#3 => some and
  | 0b0000001#7, 0b000#3 => some mul
  | 0b0000001#7, 0b001#3 => some mulh
  | 0b0000001#7, 0b010#3 => some mulhsu
  | 0b0000001#7, 0b011#3 => some mulhu
  | 0b0000001#7, 0b100#3 => some div
  | 0b0000001#7, 0b101#3 => some divu
  | 0b0000001#7, 0b110#3 => some rem
  | 0b0000001#7, 0b111#3 => some remu
  | _, _ => none

/-- Whether an operation on two registers also exists on 32-bit words. -/
def hasWordForm : AluOp → Bool
  | add | sub | sll | srl | sra | mul | div | divu | rem | remu => true
  | slt | sltu | xor | or | and | mulh | mulhsu | mulhu => false

end AluOp

namespace AmoOp

/-- The atomic operation with an upper minor opcode. -/
def ofFunct5? : BitVec 5 → Option AmoOp
  | 0b00010#5 => some lr
  | 0b00011#5 => some sc
  | 0b00001#5 => some swap
  | 0b00000#5 => some add
  | 0b00100#5 => some xor
  | 0b01100#5 => some and
  | 0b01000#5 => some or
  | 0b10000#5 => some min
  | 0b10100#5 => some max
  | 0b11000#5 => some minu
  | 0b11100#5 => some maxu
  | _ => none

end AmoOp

namespace Width

/-- The operand width with a minor opcode. -/
def ofFunct3? : BitVec 3 → Option Width
  | 0b010#3 => some word
  | 0b011#3 => some double
  | _ => none

end Width

namespace CsrOp

/-- The control register access with a minor opcode. -/
def ofFunct3? : BitVec 3 → Option CsrOp
  | 0b001#3 => some rw
  | 0b010#3 => some rs
  | 0b011#3 => some rc
  | 0b101#3 => some rwi
  | 0b110#3 => some rsi
  | 0b111#3 => some rci
  | _ => none

end CsrOp

namespace Encoding

/-- Arithmetic with an immediate.  A shift takes six bits of the immediate as its amount and the
rest as a minor opcode. -/
def opImm? (w : Encoding) : Option Instr :=
  let amount := (w.field 20 6).setWidth 64
  let upper := w.field 26 6
  let make (op : AluOp) (imm : Word) := some (Instr.opImm op w.rd w.rs1 imm)
  match w.funct3 with
  | 0b000#3 => make .add w.immI
  | 0b010#3 => make .slt w.immI
  | 0b011#3 => make .sltu w.immI
  | 0b100#3 => make .xor w.immI
  | 0b110#3 => make .or w.immI
  | 0b111#3 => make .and w.immI
  | 0b001#3 => if upper = 0 then make .sll amount else none
  | _ =>
    if upper = 0 then make .srl amount
    else if upper = 0b010000#6 then make .sra amount
    else none

/-- Arithmetic on 32-bit words with an immediate. -/
def opImm32? (w : Encoding) : Option Instr :=
  let amount := (w.field 20 5).setWidth 64
  let make (op : AluOp) (imm : Word) := some (Instr.opImm32 op w.rd w.rs1 imm)
  match w.funct3 with
  | 0b000#3 => make .add w.immI
  | 0b001#3 => if w.funct7 = 0 then make .sll amount else none
  | 0b101#3 =>
    if w.funct7 = 0 then make .srl amount
    else if w.funct7 = 0b0100000#7 then make .sra amount
    else none
  | _ => none

/-- Arithmetic on two registers. -/
def op? (w : Encoding) : Option Instr := do
  let op ← AluOp.ofFunct? w.funct7 w.funct3
  return .op op w.rd w.rs1 w.rs2

/-- Arithmetic on the low words of two registers. -/
def op32? (w : Encoding) : Option Instr := do
  let op ← AluOp.ofFunct? w.funct7 w.funct3
  if op.hasWordForm then return .op32 op w.rd w.rs1 w.rs2 else none

/-- Atomic operations.  A reserving load has no second source. -/
def amo? (w : Encoding) : Option Instr := do
  let width ← Width.ofFunct3? w.funct3
  let op ← AmoOp.ofFunct5? (w.field 27 5)
  if op = .lr ∧ w.rs2 ≠ 0 then none
  else return .amo op width w.rd w.rs1 w.rs2 (w.getLsbD 26) (w.getLsbD 25)

/-- Fences. -/
def fence? (w : Encoding) : Option Instr :=
  match w.funct3 with
  | 0b000#3 => some (.fence (w.field 24 4).toNat (w.field 20 4).toNat)
  | 0b001#3 => some .fenceI
  | _ => none

/-- Calls to the environment and accesses to control and status registers. -/
def system? (w : Encoding) : Option Instr :=
  if w.funct3 = 0 then
    if w.rd ≠ 0 ∨ w.rs1 ≠ 0 then none
    else
      match w.field 20 12 with
      | 0#12 => some .ecall
      | 1#12 => some .ebreak
      | _ => none
  else do
    let op ← CsrOp.ofFunct3? w.funct3
    return .csr op w.rd w.rs1 (w.field 20 12).toNat

/-- Conditional branches. -/
def branch? (w : Encoding) : Option Instr := do
  let op ← BranchOp.ofFunct3? w.funct3
  return .branch op w.rs1 w.rs2 w.immB

/-- Integer loads. -/
def load? (w : Encoding) : Option Instr := do
  let op ← LoadOp.ofFunct3? w.funct3
  return .load op w.rd w.rs1 w.immI

/-- Integer stores. -/
def store? (w : Encoding) : Option Instr := do
  let op ← StoreOp.ofFunct3? w.funct3
  return .store op w.rs1 w.rs2 w.immS

end Encoding

end CrossHart.Isa
