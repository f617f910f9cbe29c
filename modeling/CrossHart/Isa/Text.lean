import CrossHart.Isa.Instr
import CrossHart.Text.Hex

/-!
# Assembler text

Instructions are written the way assemblers write them, with a few of the usual short forms: a
jump that links nothing, a return, a no-operation, and loading a small constant.
-/

namespace CrossHart.Isa

open CrossHart.Text

/-- The names of the registers in the calling convention. -/
def abiNames : List String :=
  ["zero", "ra", "sp", "gp", "tp", "t0", "t1", "t2", "s0", "s1", "a0", "a1", "a2", "a3", "a4",
    "a5", "a6", "a7", "s2", "s3", "s4", "s5", "s6", "s7", "s8", "s9", "s10", "s11", "t3", "t4",
    "t5", "t6"]

/-- The name of a register; of a number out of range the low five bits count. -/
def regName (r : Nat) : String :=
  (abiNames[r % 32]?).getD ""

/-- The name of a floating-point register. -/
def fregName (r : Nat) : String :=
  "f" ++ toString (r % 32)

/-- The mnemonic of a comparison. -/
def BranchOp.mnemonic : BranchOp → String
  | beq => "beq" | bne => "bne" | blt => "blt" | bge => "bge" | bltu => "bltu" | bgeu => "bgeu"

/-- The mnemonic of a load. -/
def LoadOp.mnemonic : LoadOp → String
  | lb => "lb" | lh => "lh" | lw => "lw" | ld => "ld" | lbu => "lbu" | lhu => "lhu" | lwu => "lwu"

/-- The mnemonic of a store. -/
def StoreOp.mnemonic : StoreOp → String
  | sb => "sb" | sh => "sh" | sw => "sw" | sd => "sd"

/-- The mnemonic of an arithmetic operation on registers. -/
def AluOp.mnemonic : AluOp → String
  | add => "add" | sub => "sub" | sll => "sll" | slt => "slt" | sltu => "sltu" | xor => "xor"
  | srl => "srl" | sra => "sra" | or => "or" | and => "and" | mul => "mul" | mulh => "mulh"
  | mulhsu => "mulhsu" | mulhu => "mulhu" | div => "div" | divu => "divu" | rem => "rem"
  | remu => "remu"

/-- The mnemonic of an arithmetic operation with an immediate. -/
def AluOp.immMnemonic : AluOp → String
  | slt => "slti" | sltu => "sltiu" | add => "addi" | xor => "xori" | or => "ori" | and => "andi"
  | sll => "slli" | srl => "srli" | sra => "srai"
  | op => op.mnemonic

/-- The mnemonic of a 32-bit arithmetic operation with an immediate. -/
def AluOp.imm32Mnemonic : AluOp → String
  | add => "addiw" | sll => "slliw" | srl => "srliw" | sra => "sraiw"
  | op => op.mnemonic

/-- The mnemonic of an atomic operation. -/
def AmoOp.mnemonic : AmoOp → String
  | lr => "lr" | sc => "sc" | swap => "amoswap" | add => "amoadd" | xor => "amoxor"
  | and => "amoand" | or => "amoor" | min => "amomin" | max => "amomax" | minu => "amominu"
  | maxu => "amomaxu"

/-- The letter of an operand width. -/
def Width.letter : Width → String
  | word => "w"
  | double => "d"

/-- The mnemonic of an access to a control and status register. -/
def CsrOp.mnemonic : CsrOp → String
  | rw => "csrrw" | rs => "csrrs" | rc => "csrrc" | rwi => "csrrwi" | rsi => "csrrsi"
  | rci => "csrrci"

/-- The letter of a precision. -/
def FpFmt.letter : FpFmt → String
  | s => "s"
  | d => "d"

/-- The letter of the integer as wide as a precision. -/
def FpFmt.bits : FpFmt → String
  | s => "w"
  | d => "d"

/-- The letters of an integer type. -/
def IntTy.letters : IntTy → String
  | w => "w" | wu => "wu" | l => "l" | lu => "lu"

/-- The mnemonic of a fused multiplication. -/
def FmaOp.mnemonic : FmaOp → String
  | madd => "fmadd" | msub => "fmsub" | nmsub => "fnmsub" | nmadd => "fnmadd"

/-- The mnemonic of a floating-point operation. -/
def FpOp.mnemonic : FpOp → String
  | add => "fadd" | sub => "fsub" | mul => "fmul" | div => "fdiv" | sqrt => "fsqrt"
  | sgnJ => "fsgnj" | sgnJn => "fsgnjn" | sgnJx => "fsgnjx" | min => "fmin" | max => "fmax"
  | cvtFmt | cvtToInt _ | cvtFromInt _ => "fcvt"
  | eq => "feq" | lt => "flt" | le => "fle"
  | mvToInt | mvFromInt => "fmv"
  | .classify => "fclass"

namespace Instr

/-- The ordering marks of an atomic operation. -/
def orderText (aq rl : Bool) : String :=
  match aq, rl with
  | true, true => ".aqrl"
  | true, false => ".aq"
  | false, true => ".rl"
  | false, false => ""

/-- The upper 20 bits of a 32-bit immediate, as they are written. -/
def upperText (imm : Word) : String :=
  hex0x ((imm.sshiftRight 12).setWidth 20).toNat

/-- An address operand: an offset from a register. -/
def addrText (imm : Word) (base : Nat) : String :=
  toString imm.toInt ++ "(" ++ regName base ++ ")"

/-- Operands, divided by commas. -/
def operands (xs : List String) : String :=
  ", ".intercalate xs

/-- The text of a floating-point operation. -/
def fpText (op : FpOp) (fmt : FpFmt) (rd rs1 rs2 : Nat) : String :=
  let name := op.mnemonic
  let f := fmt.letter
  match op with
  | .sqrt => name ++ "." ++ f ++ " " ++ operands [fregName rd, fregName rs1]
  | .cvtFmt =>
    let source := match fmt with | .s => "d" | .d => "s"
    name ++ "." ++ f ++ "." ++ source ++ " " ++ operands [fregName rd, fregName rs1]
  | .cvtToInt ty =>
    name ++ "." ++ ty.letters ++ "." ++ f ++ " " ++ operands [regName rd, fregName rs1]
  | .cvtFromInt ty =>
    name ++ "." ++ f ++ "." ++ ty.letters ++ " " ++ operands [fregName rd, regName rs1]
  | .mvToInt => name ++ ".x." ++ fmt.bits ++ " " ++ operands [regName rd, fregName rs1]
  | .mvFromInt => name ++ "." ++ fmt.bits ++ ".x " ++ operands [fregName rd, regName rs1]
  | .classify => name ++ "." ++ f ++ " " ++ operands [regName rd, fregName rs1]
  | .eq | .lt | .le =>
    name ++ "." ++ f ++ " " ++ operands [regName rd, fregName rs1, fregName rs2]
  | _ => name ++ "." ++ f ++ " " ++ operands [fregName rd, fregName rs1, fregName rs2]

/-- The assembler text of an instruction. -/
def text : Instr → String
  | lui rd imm => "lui " ++ operands [regName rd, upperText imm]
  | auipc rd imm => "auipc " ++ operands [regName rd, upperText imm]
  | jal rd imm =>
    if rd = 0 then "j " ++ signed imm.toInt
    else "jal " ++ operands [regName rd, signed imm.toInt]
  | jalr rd rs1 imm =>
    if rd = 0 ∧ rs1 = 1 ∧ imm = 0 then "ret"
    else "jalr " ++ operands [regName rd, addrText imm rs1]
  | branch o rs1 rs2 imm =>
    o.mnemonic ++ " " ++ operands [regName rs1, regName rs2, signed imm.toInt]
  | load o rd rs1 imm => o.mnemonic ++ " " ++ operands [regName rd, addrText imm rs1]
  | store o rs1 rs2 imm => o.mnemonic ++ " " ++ operands [regName rs2, addrText imm rs1]
  | opImm o rd rs1 imm =>
    if o = .add ∧ rd = 0 ∧ rs1 = 0 ∧ imm = 0 then "nop"
    else if o = .add ∧ rs1 = 0 then "li " ++ operands [regName rd, toString imm.toInt]
    else o.immMnemonic ++ " " ++ operands [regName rd, regName rs1, toString imm.toInt]
  | opImm32 o rd rs1 imm =>
    o.imm32Mnemonic ++ " " ++ operands [regName rd, regName rs1, toString imm.toInt]
  | op o rd rs1 rs2 => o.mnemonic ++ " " ++ operands [regName rd, regName rs1, regName rs2]
  | op32 o rd rs1 rs2 => o.mnemonic ++ "w " ++ operands [regName rd, regName rs1, regName rs2]
  | amo o width rd rs1 rs2 aq rl =>
    let name := o.mnemonic ++ "." ++ width.letter ++ orderText aq rl
    let address := "(" ++ regName rs1 ++ ")"
    if o = .lr then name ++ " " ++ operands [regName rd, address]
    else name ++ " " ++ operands [regName rd, regName rs2, address]
  | fence .. => "fence"
  | fenceI => "fence.i"
  | ecall => "ecall"
  | ebreak => "ebreak"
  | csr o rd rs1 number =>
    let source := if o.isImm then toString rs1 else regName rs1
    o.mnemonic ++ " " ++ operands [regName rd, hex0x number, source]
  | fpLoad fmt rd rs1 imm =>
    (match fmt with | .s => "flw " | .d => "fld ") ++ operands [fregName rd, addrText imm rs1]
  | fpStore fmt rs1 rs2 imm =>
    (match fmt with | .s => "fsw " | .d => "fsd ") ++ operands [fregName rs2, addrText imm rs1]
  | fpFma o fmt rd rs1 rs2 rs3 _ =>
    o.mnemonic ++ "." ++ fmt.letter ++ " " ++
      operands [fregName rd, fregName rs1, fregName rs2, fregName rs3]
  | fpOp o fmt rd rs1 rs2 _ => fpText o fmt rd rs1 rs2

end Instr

/-- The line of a listing for an instruction: address, raw bits and text. -/
def Located.line (d : Located) : String :=
  let raw :=
    if d.isCompressed then hexPadded 4 (d.raw.toNat % 0x10000) ++ "      "
    else hexPadded 8 d.raw.toNat ++ "  "
  hex0x d.pc.toNat ++ ": " ++ raw ++ d.instr.text

end CrossHart.Isa
