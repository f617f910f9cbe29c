import CrossHart.Word

/-!
# Guest operations

The operation part of the guest's instructions: comparisons of branches, widths of loads and
stores, arithmetic, atomics, control and status registers, and floating point.
-/

namespace CrossHart.Isa

/-- The comparisons of conditional branches. -/
inductive BranchOp where
  | beq | bne | blt | bge | bltu | bgeu
  deriving DecidableEq, Inhabited, Repr

namespace BranchOp

/-- The comparisons, in the order of their codes. -/
def all : List BranchOp := [beq, bne, blt, bge, bltu, bgeu]

/-- Whether a branch on two register values is taken. -/
def taken (op : BranchOp) (a b : Word) : Bool :=
  match op with
  | beq => a == b
  | bne => a != b
  | blt => a.slt b
  | bge => !a.slt b
  | bltu => a.ult b
  | bgeu => !a.ult b

end BranchOp

/-- The integer loads. -/
inductive LoadOp where
  | lb | lh | lw | ld | lbu | lhu | lwu
  deriving DecidableEq, Inhabited, Repr

namespace LoadOp

/-- The loads, in the order of their codes. -/
def all : List LoadOp := [lb, lh, lw, ld, lbu, lhu, lwu]

/-- The number of bytes a load reads. -/
def size : LoadOp → Nat
  | lb | lbu => 1
  | lh | lhu => 2
  | lw | lwu => 4
  | ld => 8

/-- Whether a load extends the sign. -/
def isSigned : LoadOp → Bool
  | lb | lh | lw | ld => true
  | lbu | lhu | lwu => false

/-- The word a load leaves in its register, from the bytes it read. -/
def extend (op : LoadOp) (raw : Word) : Word :=
  match op with
  | lb => (raw.setWidth 8).signExtend 64
  | lh => (raw.setWidth 16).signExtend 64
  | lw => (raw.setWidth 32).signExtend 64
  | ld => raw
  | lbu => (raw.setWidth 8).setWidth 64
  | lhu => (raw.setWidth 16).setWidth 64
  | lwu => (raw.setWidth 32).setWidth 64

/-- The code by which compiled code names a load. -/
def code : LoadOp → Nat
  | lb => 0 | lh => 1 | lw => 2 | ld => 3 | lbu => 4 | lhu => 5 | lwu => 6

/-- The load with a code. -/
def ofCode? (n : Nat) : Option LoadOp :=
  all[n]?

/-- A load is found by its code. -/
@[simp]
theorem ofCode?_code (op : LoadOp) :
  ofCode? op.code = some op
  := by cases op <;> rfl

end LoadOp

/-- The integer stores. -/
inductive StoreOp where
  | sb | sh | sw | sd
  deriving DecidableEq, Inhabited, Repr

namespace StoreOp

/-- The stores, by growing size. -/
def all : List StoreOp := [sb, sh, sw, sd]

/-- The number of bytes a store writes. -/
def size : StoreOp → Nat
  | sb => 1 | sh => 2 | sw => 4 | sd => 8

end StoreOp

/-- Integer arithmetic, with the multiplications and divisions. -/
inductive AluOp where
  | add | sub | sll | slt | sltu | xor | srl | sra | or | and
  | mul | mulh | mulhsu | mulhu | div | divu | rem | remu
  deriving DecidableEq, Inhabited, Repr

namespace AluOp

/-- The arithmetic operations, in the order of their codes. -/
def all : List AluOp :=
  [add, sub, sll, slt, sltu, xor, srl, sra, or, and,
    mul, mulh, mulhsu, mulhu, div, divu, rem, remu]

/-- The multiplications, divisions and remainders. -/
def isMulDiv : AluOp → Bool
  | mul | mulh | mulhsu | mulhu | div | divu | rem | remu => true
  | _ => false

/-- The code by which compiled code names an arithmetic operation. -/
def code : AluOp → Nat
  | add => 0 | sub => 1 | sll => 2 | slt => 3 | sltu => 4 | xor => 5 | srl => 6 | sra => 7
  | or => 8 | and => 9 | mul => 10 | mulh => 11 | mulhsu => 12 | mulhu => 13 | div => 14
  | divu => 15 | rem => 16 | remu => 17

/-- The arithmetic operation with a code. -/
def ofCode? (n : Nat) : Option AluOp :=
  all[n]?

/-- An arithmetic operation is found by its code. -/
@[simp]
theorem ofCode?_code (op : AluOp) :
  ofCode? op.code = some op
  := by cases op <;> rfl

end AluOp

/-- The operations on memory that are carried out as one. -/
inductive AmoOp where
  | lr | sc | swap | add | xor | and | or | min | max | minu | maxu
  deriving DecidableEq, Inhabited, Repr

/-- The atomic operations. -/
def AmoOp.all : List AmoOp := [lr, sc, swap, add, xor, and, or, min, max, minu, maxu]

/-- The operand width of an atomic operation. -/
inductive Width where
  | word | double
  deriving DecidableEq, Inhabited, Repr

namespace Width

/-- Both widths. -/
def all : List Width := [word, double]

/-- The number of bytes of an operand. -/
def size : Width → Nat
  | word => 4
  | double => 8

end Width

/-- Accesses to control and status registers; those ending in `i` take a small number instead of
a register. -/
inductive CsrOp where
  | rw | rs | rc | rwi | rsi | rci
  deriving DecidableEq, Inhabited, Repr

namespace CsrOp

/-- The accesses to control and status registers. -/
def all : List CsrOp := [rw, rs, rc, rwi, rsi, rci]

/-- Whether the operand is a number. -/
def isImm : CsrOp → Bool
  | rwi | rsi | rci => true
  | rw | rs | rc => false

end CsrOp

/-- Single and double precision. -/
inductive FpFmt where
  | s | d
  deriving DecidableEq, Inhabited, Repr

/-- Both precisions. -/
def FpFmt.all : List FpFmt := [.s, .d]

/-- The integer types that floating-point numbers convert to and from. -/
inductive IntTy where
  | w | wu | l | lu
  deriving DecidableEq, Inhabited, Repr

/-- The integer types, in the order of their codes. -/
def IntTy.all : List IntTy := [w, wu, l, lu]

/-- The fused multiplications. -/
inductive FmaOp where
  | madd | msub | nmsub | nmadd
  deriving DecidableEq, Inhabited, Repr

/-- The fused multiplications. -/
def FmaOp.all : List FmaOp := [madd, msub, nmsub, nmadd]

/-- The other floating-point operations.  `cvtFmt` converts between the precisions, to the one
the instruction names. -/
inductive FpOp where
  | add | sub | mul | div | sqrt | sgnJ | sgnJn | sgnJx | min | max | cvtFmt | eq | lt | le
  | cvtToInt (ty : IntTy)
  | cvtFromInt (ty : IntTy)
  | mvToInt | mvFromInt | classify
  deriving DecidableEq, Inhabited, Repr

namespace FpOp

/-- The floating-point operations. -/
def all : List FpOp :=
  [add, sub, mul, div, sqrt, sgnJ, sgnJn, sgnJx, min, max, cvtFmt, eq, lt, le] ++
    IntTy.all.map cvtToInt ++ IntTy.all.map cvtFromInt ++ [mvToInt, mvFromInt, .classify]

/-- Whether the result of an operation is rounded, so that the instruction names a rounding. -/
def isRounded : FpOp → Bool
  | add | sub | mul | div | sqrt | cvtFmt | cvtToInt _ | cvtFromInt _ => true
  | _ => false

end FpOp

end CrossHart.Isa
