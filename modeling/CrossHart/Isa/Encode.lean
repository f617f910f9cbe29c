import CrossHart.Isa.Decode.Integer
import CrossHart.Isa.Decode.Float

/-!
# Encoding

The full-width encoding of an instruction, by the formats and opcode tables of the instruction
set.  It means something for a well-formed instruction, one whose registers, immediate and minor
opcodes have a place in its format.
-/

namespace CrossHart.Isa

/-! ### Formats -/

namespace Encoding

/-- The format of operations on registers. -/
def ofR (opcode : BitVec 7) (funct3 : BitVec 3) (funct7 : BitVec 7) (rd rs1 rs2 : Nat) : Encoding :=
  funct7 ++ BitVec.ofNat 5 rs2 ++ BitVec.ofNat 5 rs1 ++ funct3 ++ BitVec.ofNat 5 rd ++ opcode

/-- The format of operations with an immediate. -/
def ofI (opcode : BitVec 7) (funct3 : BitVec 3) (imm : BitVec 12) (rd rs1 : Nat) : Encoding :=
  imm ++ BitVec.ofNat 5 rs1 ++ funct3 ++ BitVec.ofNat 5 rd ++ opcode

/-- The format of stores. -/
def ofS (opcode : BitVec 7) (funct3 : BitVec 3) (imm : Word) (rs1 rs2 : Nat) : Encoding :=
  imm.extractLsb' 5 7 ++ BitVec.ofNat 5 rs2 ++ BitVec.ofNat 5 rs1 ++ funct3 ++
    imm.extractLsb' 0 5 ++ opcode

/-- The format of branches. -/
def ofB (opcode : BitVec 7) (funct3 : BitVec 3) (imm : Word) (rs1 rs2 : Nat) : Encoding :=
  imm.extractLsb' 12 1 ++ imm.extractLsb' 5 6 ++ BitVec.ofNat 5 rs2 ++ BitVec.ofNat 5 rs1 ++
    funct3 ++ imm.extractLsb' 1 4 ++ imm.extractLsb' 11 1 ++ opcode

/-- The format of upper immediates. -/
def ofU (opcode : BitVec 7) (imm : Word) (rd : Nat) : Encoding :=
  imm.extractLsb' 12 20 ++ BitVec.ofNat 5 rd ++ opcode

/-- The format of jumps. -/
def ofJ (opcode : BitVec 7) (imm : Word) (rd : Nat) : Encoding :=
  imm.extractLsb' 20 1 ++ imm.extractLsb' 1 10 ++ imm.extractLsb' 11 1 ++ imm.extractLsb' 12 8 ++
    BitVec.ofNat 5 rd ++ opcode

end Encoding

/-! ### Minor opcodes -/

/-- The minor opcode of a comparison. -/
def BranchOp.funct3 : BranchOp → BitVec 3
  | beq => 0b000
  | bne => 0b001
  | blt => 0b100
  | bge => 0b101
  | bltu => 0b110
  | bgeu => 0b111

/-- The minor opcode of a load. -/
def LoadOp.funct3 : LoadOp → BitVec 3
  | lb => 0b000
  | lh => 0b001
  | lw => 0b010
  | ld => 0b011
  | lbu => 0b100
  | lhu => 0b101
  | lwu => 0b110

/-- The minor opcode of a store. -/
def StoreOp.funct3 : StoreOp → BitVec 3
  | sb => 0b000
  | sh => 0b001
  | sw => 0b010
  | sd => 0b011

namespace AluOp

/-- The minor opcode of an arithmetic operation. -/
def funct3 : AluOp → BitVec 3
  | add | sub | mul => 0b000
  | sll | mulh => 0b001
  | slt | mulhsu => 0b010
  | sltu | mulhu => 0b011
  | xor | div => 0b100
  | srl | sra | divu => 0b101
  | or | rem => 0b110
  | and | remu => 0b111

/-- The upper minor opcode of an arithmetic operation. -/
def funct7 : AluOp → BitVec 7
  | sub | sra => 0b0100000
  | mul | mulh | mulhsu | mulhu | div | divu | rem | remu => 0b0000001
  | add | sll | slt | sltu | xor | srl | or | and => 0b0000000

/-- The shifts. -/
def isShift : AluOp → Bool
  | sll | srl | sra => true
  | _ => false

/-- Whether an operation also exists with an immediate. -/
def hasImmForm : AluOp → Bool
  | add | slt | sltu | xor | or | and | sll | srl | sra => true
  | _ => false

end AluOp

/-- The upper minor opcode of an atomic operation. -/
def AmoOp.funct5 : AmoOp → BitVec 5
  | lr => 0b00010
  | sc => 0b00011
  | swap => 0b00001
  | add => 0b00000
  | xor => 0b00100
  | and => 0b01100
  | or => 0b01000
  | min => 0b10000
  | max => 0b10100
  | minu => 0b11000
  | maxu => 0b11100

/-- The minor opcode of an operand width. -/
def Width.funct3 : Width → BitVec 3
  | word => 0b010
  | double => 0b011

/-- The minor opcode of a control register access. -/
def CsrOp.funct3 : CsrOp → BitVec 3
  | rw => 0b001
  | rs => 0b010
  | rc => 0b011
  | rwi => 0b101
  | rsi => 0b110
  | rci => 0b111

namespace FpFmt

/-- The minor opcode of a load or store of a precision. -/
def funct3 : FpFmt → BitVec 3
  | s => 0b010
  | d => 0b011

/-- The field of an operation for its precision. -/
def field : FpFmt → BitVec 2
  | s => 0b00
  | d => 0b01

end FpFmt

/-- The opcode of a fused multiplication. -/
def FmaOp.opcode : FmaOp → BitVec 7
  | madd => 0x43
  | msub => 0x47
  | nmsub => 0x4b
  | nmadd => 0x4f

/-- The code of an integer type in the second source register. -/
def IntTy.code : IntTy → Nat
  | w => 0
  | wu => 1
  | l => 2
  | lu => 3

namespace FpOp

/-- The upper minor opcode of a floating-point operation. -/
def funct5 : FpOp → BitVec 5
  | add => 0b00000
  | sub => 0b00001
  | mul => 0b00010
  | div => 0b00011
  | sqrt => 0b01011
  | sgnJ | sgnJn | sgnJx => 0b00100
  | min | max => 0b00101
  | cvtFmt => 0b01000
  | eq | lt | le => 0b10100
  | cvtToInt _ => 0b11000
  | cvtFromInt _ => 0b11010
  | mvToInt | classify => 0b11100
  | mvFromInt => 0b11110

/-- The rounding field of an operation that uses it as a minor opcode. -/
def funct3? : FpOp → Option Nat
  | sgnJ | min | le | mvToInt | mvFromInt => some 0
  | sgnJn | max | lt | classify => some 1
  | sgnJx | eq => some 2
  | _ => none

/-- The second source register of an operation that uses it as a minor opcode. -/
def source? (fmt : FpFmt) : FpOp → Option Nat
  | sqrt | mvToInt | mvFromInt | classify => some 0
  | cvtFmt =>
    match fmt with
    | .s => some 1
    | .d => some 0
  | cvtToInt ty | cvtFromInt ty => some ty.code
  | _ => none

end FpOp

/-! ### Instructions -/

namespace Instr

/-- The full-width encoding of an instruction. -/
def encode : Instr → Encoding
  | lui rd imm => .ofU 0x37 imm rd
  | auipc rd imm => .ofU 0x17 imm rd
  | jal rd imm => .ofJ 0x6f imm rd
  | jalr rd rs1 imm => .ofI 0x67 0 (imm.setWidth 12) rd rs1
  | branch f rs1 rs2 imm => .ofB 0x63 f.funct3 imm rs1 rs2
  | load f rd rs1 imm => .ofI 0x03 f.funct3 (imm.setWidth 12) rd rs1
  | store f rs1 rs2 imm => .ofS 0x23 f.funct3 imm rs1 rs2
  | opImm f rd rs1 imm =>
    if f.isShift then
      .ofI 0x13 f.funct3 (f.funct7.extractLsb' 1 6 ++ imm.extractLsb' 0 6) rd rs1
    else .ofI 0x13 f.funct3 (imm.setWidth 12) rd rs1
  | opImm32 f rd rs1 imm =>
    if f.isShift then .ofI 0x1b f.funct3 (f.funct7 ++ imm.extractLsb' 0 5) rd rs1
    else .ofI 0x1b f.funct3 (imm.setWidth 12) rd rs1
  | op f rd rs1 rs2 => .ofR 0x33 f.funct3 f.funct7 rd rs1 rs2
  | op32 f rd rs1 rs2 => .ofR 0x3b f.funct3 f.funct7 rd rs1 rs2
  | amo f width rd rs1 rs2 aq rl =>
    .ofR 0x2f width.funct3 (f.funct5 ++ BitVec.ofBool aq ++ BitVec.ofBool rl) rd rs1 rs2
  | fence pred succ => .ofI 0x0f 0 (0#4 ++ BitVec.ofNat 4 pred ++ BitVec.ofNat 4 succ) 0 0
  | fenceI => .ofI 0x0f 1 0 0 0
  | ecall => .ofI 0x73 0 0 0 0
  | ebreak => .ofI 0x73 0 1 0 0
  | csr f rd rs1 n => .ofI 0x73 f.funct3 (BitVec.ofNat 12 n) rd rs1
  | fpLoad fmt rd rs1 imm => .ofI 0x07 fmt.funct3 (imm.setWidth 12) rd rs1
  | fpStore fmt rs1 rs2 imm => .ofS 0x27 fmt.funct3 imm rs1 rs2
  | fpFma f fmt rd rs1 rs2 rs3 rm =>
    .ofR f.opcode (BitVec.ofNat 3 rm) (BitVec.ofNat 5 rs3 ++ fmt.field) rd rs1 rs2
  | fpOp f fmt rd rs1 rs2 rm =>
    .ofR 0x53 (BitVec.ofNat 3 rm) (f.funct5 ++ fmt.field) rd rs1 rs2

/-- Whether an immediate is the extension of its low `n` bits. -/
def Fits (n : Nat) (imm : Word) : Prop :=
  (imm.setWidth n).signExtend 64 = imm

instance (n : Nat) (imm : Word) : Decidable (Fits n imm) :=
  inferInstanceAs (Decidable (_ = _))

/-- Whether a number is one of a rounding mode. -/
def IsRounding (rm : Nat) : Prop :=
  rm < 8 ∧ rm ≠ 5 ∧ rm ≠ 6

instance (rm : Nat) : Decidable (IsRounding rm) :=
  inferInstanceAs (Decidable (_ ∧ _))

/-- Whether the registers, immediate and minor opcodes of an instruction have a place in its
format. -/
def WellFormed : Instr → Prop
  | lui rd imm | auipc rd imm => rd < 32 ∧ Fits 32 imm ∧ imm.extractLsb' 0 12 = 0
  | jal rd imm => rd < 32 ∧ Fits 21 imm ∧ imm.getLsbD 0 = false
  | jalr rd rs1 imm => rd < 32 ∧ rs1 < 32 ∧ Fits 12 imm
  | branch _ rs1 rs2 imm => rs1 < 32 ∧ rs2 < 32 ∧ Fits 13 imm ∧ imm.getLsbD 0 = false
  | load _ rd rs1 imm => rd < 32 ∧ rs1 < 32 ∧ Fits 12 imm
  | store _ rs1 rs2 imm => rs1 < 32 ∧ rs2 < 32 ∧ Fits 12 imm
  | opImm f rd rs1 imm =>
    rd < 32 ∧ rs1 < 32 ∧ f.hasImmForm ∧ if f.isShift then imm.toNat < 64 else Fits 12 imm
  | opImm32 f rd rs1 imm =>
    rd < 32 ∧ rs1 < 32 ∧ (f = .add ∨ f.isShift) ∧
      if f.isShift then imm.toNat < 32 else Fits 12 imm
  | op _ rd rs1 rs2 => rd < 32 ∧ rs1 < 32 ∧ rs2 < 32
  | op32 f rd rs1 rs2 => rd < 32 ∧ rs1 < 32 ∧ rs2 < 32 ∧ f.hasWordForm
  | amo f _ rd rs1 rs2 _ _ => rd < 32 ∧ rs1 < 32 ∧ rs2 < 32 ∧ (f = .lr → rs2 = 0)
  | fence pred succ => pred < 16 ∧ succ < 16
  | fenceI | ecall | ebreak => True
  | csr _ rd rs1 n => rd < 32 ∧ rs1 < 32 ∧ n < 4096
  | fpLoad _ rd rs1 imm => rd < 32 ∧ rs1 < 32 ∧ Fits 12 imm
  | fpStore _ rs1 rs2 imm => rs1 < 32 ∧ rs2 < 32 ∧ Fits 12 imm
  | fpFma _ _ rd rs1 rs2 rs3 rm =>
    rd < 32 ∧ rs1 < 32 ∧ rs2 < 32 ∧ rs3 < 32 ∧ IsRounding rm
  | fpOp f fmt rd rs1 rs2 rm =>
    rd < 32 ∧ rs1 < 32 ∧ rs2 < 32 ∧ (∀ n, f.source? fmt = some n → rs2 = n) ∧
      match f.funct3? with
      | some n => rm = n
      | none => IsRounding rm

end Instr

end CrossHart.Isa
