import CrossHart.Word

/-!
# Instruction formats

Where the fields of a 32-bit instruction are.  Immediates are scattered over the word in one way
for each format and are extended with their sign.
-/

namespace CrossHart.Isa

/-- A full-width encoding. -/
abbrev Encoding := BitVec 32

namespace Encoding

/-- The bits of an encoding from `lo` up, `len` of them. -/
abbrev field (w : Encoding) (lo len : Nat) : BitVec len :=
  w.extractLsb' lo len

/-- The major opcode. -/
def opcode (w : Encoding) : BitVec 7 := w.field 0 7

/-- The destination register. -/
def rd (w : Encoding) : Nat := (w.field 7 5).toNat

/-- The first source register. -/
def rs1 (w : Encoding) : Nat := (w.field 15 5).toNat

/-- The second source register. -/
def rs2 (w : Encoding) : Nat := (w.field 20 5).toNat

/-- The third source register of the fused multiplications. -/
def rs3 (w : Encoding) : Nat := (w.field 27 5).toNat

/-- The minor opcode. -/
def funct3 (w : Encoding) : BitVec 3 := w.field 12 3

/-- The upper minor opcode. -/
def funct7 (w : Encoding) : BitVec 7 := w.field 25 7

/-- The immediate of loads and of arithmetic. -/
def immI (w : Encoding) : Word :=
  (w.field 20 12).signExtend 64

/-- The immediate of stores. -/
def immS (w : Encoding) : Word :=
  (w.field 25 7 ++ w.field 7 5).signExtend 64

/-- The immediate of branches. -/
def immB (w : Encoding) : Word :=
  (w.field 31 1 ++ w.field 7 1 ++ w.field 25 6 ++ w.field 8 4 ++ 0#1).signExtend 64

/-- The immediate that fills the upper bits. -/
def immU (w : Encoding) : Word :=
  (w.field 12 20 ++ 0#12).signExtend 64

/-- The immediate of jumps. -/
def immJ (w : Encoding) : Word :=
  (w.field 31 1 ++ w.field 12 8 ++ w.field 20 1 ++ w.field 21 10 ++ 0#1).signExtend 64

end Encoding

end CrossHart.Isa
