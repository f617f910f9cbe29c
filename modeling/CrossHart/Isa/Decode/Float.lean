import CrossHart.Isa.Format
import CrossHart.Isa.Instr

/-!
# Floating-point encodings

The opcode tables of single and double precision.  A rounding field holds one of six modes; the
remaining two values are reserved.
-/

namespace CrossHart.Isa

namespace FpFmt

/-- The precision of a load or store with a minor opcode. -/
def ofFunct3? : BitVec 3 → Option FpFmt
  | 0b010#3 => some s
  | 0b011#3 => some d
  | _ => none

/-- The precision of an operation. -/
def ofField? : BitVec 2 → Option FpFmt
  | 0b00#2 => some s
  | 0b01#2 => some d
  | _ => none

end FpFmt

/-- The integer type with a code. -/
def IntTy.ofCode? (n : Nat) : Option IntTy :=
  IntTy.all[n]?

/-- Whether a rounding field is in use. -/
def validRounding (rm : BitVec 3) : Bool :=
  rm ≠ 0b101#3 ∧ rm ≠ 0b110#3

/-- The floating-point operation with these opcode fields; the second source register takes part
in the choice where an operation has only one operand. -/
def FpOp.ofFields? (upper : BitVec 5) (fmt : FpFmt) (rm : BitVec 3) (rs2 : Nat) : Option FpOp :=
  match upper with
  | 0b00000#5 => some add
  | 0b00001#5 => some sub
  | 0b00010#5 => some mul
  | 0b00011#5 => some div
  | 0b01011#5 => if rs2 = 0 then some sqrt else none
  | 0b00100#5 =>
    match rm with
    | 0b000#3 => some sgnJ
    | 0b001#3 => some sgnJn
    | 0b010#3 => some sgnJx
    | _ => none
  | 0b00101#5 =>
    match rm with
    | 0b000#3 => some min
    | 0b001#3 => some max
    | _ => none
  | 0b01000#5 => if rs2 = (match fmt with | .s => 1 | .d => 0) then some cvtFmt else none
  | 0b10100#5 =>
    match rm with
    | 0b010#3 => some eq
    | 0b001#3 => some lt
    | 0b000#3 => some le
    | _ => none
  | 0b11000#5 => (IntTy.ofCode? rs2).map cvtToInt
  | 0b11010#5 => (IntTy.ofCode? rs2).map cvtFromInt
  | 0b11100#5 =>
    if rs2 = 0 then
      match rm with
      | 0b000#3 => some mvToInt
      | 0b001#3 => some .classify
      | _ => none
    else none
  | 0b11110#5 => if rs2 = 0 ∧ rm = 0 then some mvFromInt else none
  | _ => none

namespace Encoding

/-- Floating-point loads. -/
def fpLoad? (w : Encoding) : Option Instr := do
  let fmt ← FpFmt.ofFunct3? w.funct3
  return .fpLoad fmt w.rd w.rs1 w.immI

/-- Floating-point stores. -/
def fpStore? (w : Encoding) : Option Instr := do
  let fmt ← FpFmt.ofFunct3? w.funct3
  return .fpStore fmt w.rs1 w.rs2 w.immS

/-- Fused multiplications. -/
def fpFma? (op : FmaOp) (w : Encoding) : Option Instr :=
  if validRounding w.funct3 then do
    let fmt ← FpFmt.ofField? (w.field 25 2)
    return .fpFma op fmt w.rd w.rs1 w.rs2 w.rs3 w.funct3.toNat
  else none

/-- The other floating-point operations. -/
def fpOp? (w : Encoding) : Option Instr := do
  let fmt ← FpFmt.ofField? (w.field 25 2)
  let op ← FpOp.ofFields? (w.field 27 5) fmt w.funct3 w.rs2
  if op.isRounded ∧ !validRounding w.funct3 then none
  else return .fpOp op fmt w.rd w.rs1 w.rs2 w.funct3.toNat

end Encoding

end CrossHart.Isa
