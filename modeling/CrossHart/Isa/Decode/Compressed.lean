import CrossHart.Isa.Instr

/-!
# Compressed encodings

A 16-bit encoding stands for a full instruction.  The encodings fall into three quadrants by
their low two bits; short register fields name `x8` to `x15`.
-/

namespace CrossHart.Isa

/-- A compressed encoding. -/
abbrev Half := BitVec 16

namespace Half

/-- The bits of an encoding from `lo` up, `len` of them. -/
abbrev field (h : Half) (lo len : Nat) : BitVec len :=
  h.extractLsb' lo len

/-- The destination register. -/
def rd (h : Half) : Nat := (h.field 7 5).toNat

/-- The second source register. -/
def rs2 (h : Half) : Nat := (h.field 2 5).toNat

/-- The short register in the low bits. -/
def shortLow (h : Half) : Nat := 8 + (h.field 2 3).toNat

/-- The short register in the middle bits. -/
def shortMid (h : Half) : Nat := 8 + (h.field 7 3).toNat

/-- The minor opcode. -/
def funct3 (h : Half) : BitVec 3 := h.field 13 3

/-- The bits of the small immediate. -/
def small (h : Half) : BitVec 6 :=
  h.field 12 1 ++ h.field 2 5

/-- The small immediate. -/
def imm6 (h : Half) : Word :=
  h.small.signExtend 64

/-- The amount of a shift. -/
def amount (h : Half) : Word :=
  h.small.setWidth 64

/-- The offset of a word access. -/
def offsetW (h : Half) : Word :=
  (h.field 5 1 ++ h.field 10 3 ++ h.field 6 1 ++ 0#2).setWidth 64

/-- The offset of a double-word access. -/
def offsetD (h : Half) : Word :=
  (h.field 5 2 ++ h.field 10 3 ++ 0#3).setWidth 64

/-- The offset of a jump. -/
def offsetJ (h : Half) : Word :=
  (h.field 12 1 ++ h.field 8 1 ++ h.field 9 2 ++ h.field 6 1 ++ h.field 7 1 ++ h.field 2 1 ++
    h.field 11 1 ++ h.field 3 3 ++ 0#1).signExtend 64

/-- The offset of a branch. -/
def offsetB (h : Half) : Word :=
  (h.field 12 1 ++ h.field 5 2 ++ h.field 2 1 ++ h.field 10 2 ++ h.field 3 2 ++ 0#1).signExtend 64

/-- The offset of a word loaded from the stack. -/
def stackLoadW (h : Half) : Word :=
  (h.field 2 2 ++ h.field 12 1 ++ h.field 4 3 ++ 0#2).setWidth 64

/-- The offset of a double word loaded from the stack. -/
def stackLoadD (h : Half) : Word :=
  (h.field 2 3 ++ h.field 12 1 ++ h.field 5 2 ++ 0#3).setWidth 64

/-- The offset of a word stored to the stack. -/
def stackStoreW (h : Half) : Word :=
  (h.field 7 2 ++ h.field 9 4 ++ 0#2).setWidth 64

/-- The offset of a double word stored to the stack. -/
def stackStoreD (h : Half) : Word :=
  (h.field 7 3 ++ h.field 10 3 ++ 0#3).setWidth 64

/-- The amount added to the stack pointer to name a place on the stack. -/
def stackAddress (h : Half) : BitVec 10 :=
  h.field 7 4 ++ h.field 11 2 ++ h.field 5 1 ++ h.field 6 1 ++ 0#2

/-- The amount by which the stack pointer moves. -/
def stackMove (h : Half) : BitVec 10 :=
  h.field 12 1 ++ h.field 3 2 ++ h.field 5 1 ++ h.field 2 1 ++ h.field 6 1 ++ 0#4

/-- The encodings that end in `00`. -/
def quadrant0? (h : Half) : Option Instr :=
  match h.funct3 with
  | 0b000#3 =>
    -- Covers the half-word of zeros as well.
    if h.stackAddress = 0 then none
    else some (.opImm .add h.shortLow 2 (h.stackAddress.setWidth 64))
  | 0b001#3 => some (.fpLoad .d h.shortLow h.shortMid h.offsetD)
  | 0b010#3 => some (.load .lw h.shortLow h.shortMid h.offsetW)
  | 0b011#3 => some (.load .ld h.shortLow h.shortMid h.offsetD)
  | 0b101#3 => some (.fpStore .d h.shortMid h.shortLow h.offsetD)
  | 0b110#3 => some (.store .sw h.shortMid h.shortLow h.offsetW)
  | 0b111#3 => some (.store .sd h.shortMid h.shortLow h.offsetD)
  | _ => none

/-- The arithmetic among the encodings that end in `01`. -/
def arithmetic? (h : Half) : Option Instr :=
  let rd := h.shortMid
  let rs2 := h.shortLow
  match h.field 10 2 with
  | 0b00#2 => some (.opImm .srl rd rd h.amount)
  | 0b01#2 => some (.opImm .sra rd rd h.amount)
  | 0b10#2 => some (.opImm .and rd rd h.imm6)
  | _ =>
    match h.field 12 1, h.field 5 2 with
    | 0b0#1, 0b00#2 => some (.op .sub rd rd rs2)
    | 0b0#1, 0b01#2 => some (.op .xor rd rd rs2)
    | 0b0#1, 0b10#2 => some (.op .or rd rd rs2)
    | 0b0#1, _ => some (.op .and rd rd rs2)
    | _, 0b00#2 => some (.op32 .sub rd rd rs2)
    | _, 0b01#2 => some (.op32 .add rd rd rs2)
    | _, _ => none

/-- The encodings that end in `01`. -/
def quadrant1? (h : Half) : Option Instr :=
  let rd := h.rd
  match h.funct3 with
  | 0b000#3 => some (.opImm .add rd rd h.imm6)
  | 0b001#3 => if rd = 0 then none else some (.opImm32 .add rd rd h.imm6)
  | 0b010#3 => some (.opImm .add rd 0 h.imm6)
  | 0b011#3 =>
    if rd = 2 then
      if h.stackMove = 0 then none else some (.opImm .add 2 2 (h.stackMove.signExtend 64))
    else if h.small = 0 then none
    else some (.lui rd (h.imm6 <<< 12))
  | 0b100#3 => h.arithmetic?
  | 0b101#3 => some (.jal 0 h.offsetJ)
  | 0b110#3 => some (.branch .beq h.shortMid 0 h.offsetB)
  | _ => some (.branch .bne h.shortMid 0 h.offsetB)

/-- The jumps, moves and additions among the encodings that end in `10`. -/
def transfer? (h : Half) : Option Instr :=
  let rd := h.rd
  let rs2 := h.rs2
  if h.getLsbD 12 then
    if rs2 ≠ 0 then some (.op .add rd rd rs2)
    else if rd ≠ 0 then some (.jalr 1 rd 0)
    else some .ebreak
  else
    if rs2 ≠ 0 then some (.op .add rd 0 rs2)
    else if rd ≠ 0 then some (.jalr 0 rd 0)
    else none

/-- The encodings that end in `10`. -/
def quadrant2? (h : Half) : Option Instr :=
  let rd := h.rd
  match h.funct3 with
  | 0b000#3 => some (.opImm .sll rd rd h.amount)
  | 0b001#3 => some (.fpLoad .d rd 2 h.stackLoadD)
  | 0b010#3 => if rd = 0 then none else some (.load .lw rd 2 h.stackLoadW)
  | 0b011#3 => if rd = 0 then none else some (.load .ld rd 2 h.stackLoadD)
  | 0b100#3 => h.transfer?
  | 0b101#3 => some (.fpStore .d 2 h.rs2 h.stackStoreD)
  | 0b110#3 => some (.store .sw 2 h.rs2 h.stackStoreW)
  | _ => some (.store .sd 2 h.rs2 h.stackStoreD)

/-- The instruction a compressed encoding stands for. -/
def decode? (h : Half) : Option Instr :=
  match h.field 0 2 with
  | 0b00#2 => h.quadrant0?
  | 0b01#2 => h.quadrant1?
  | 0b10#2 => h.quadrant2?
  | _ => none

end Half

end CrossHart.Isa
