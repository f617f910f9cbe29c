import CrossHart.Isa.Op

/-!
# Arithmetic

What the arithmetic operations compute on 64-bit words, and on the low halves of words.
-/

namespace CrossHart.Isa.AluOp

/-- The upper half of the product of two words, each extended to 128 bits in its own way. -/
def upperProduct (a b : BitVec 128) : Word :=
  (a * b).extractLsb' 64 64

/-- The result of an operation on two words.  A division by zero gives all ones, and the
remainder is then the dividend. -/
def eval (op : AluOp) (a b : Word) : Word :=
  match op with
  | add => a + b
  | sub => a - b
  | sll => a <<< (b.toNat % 64)
  | slt => Word.ofBool (a.slt b)
  | sltu => Word.ofBool (a.ult b)
  | xor => a ^^^ b
  | srl => a >>> (b.toNat % 64)
  | sra => a.sshiftRight (b.toNat % 64)
  | or => a ||| b
  | and => a &&& b
  | mul => a * b
  | mulh => upperProduct (a.signExtend 128) (b.signExtend 128)
  | mulhsu => upperProduct (a.signExtend 128) (b.setWidth 128)
  | mulhu => upperProduct (a.setWidth 128) (b.setWidth 128)
  | div => if b = 0 then -1 else a.sdiv b
  | divu => if b = 0 then -1 else a / b
  | rem => if b = 0 then a else a.srem b
  | remu => if b = 0 then a else a % b

/-- The 32-bit result of an operation on the low halves of two words.  An operation without a
form for 32 bits gives the low half of its 64-bit result. -/
def evalLow (op : AluOp) (a b : Word) : BitVec 32 :=
  let x := a.setWidth 32
  let y := b.setWidth 32
  match op with
  | add => x + y
  | sub => x - y
  | sll => x <<< (y.toNat % 32)
  | srl => x >>> (y.toNat % 32)
  | sra => x.sshiftRight (y.toNat % 32)
  | mul => x * y
  | div => if y = 0 then -1 else x.sdiv y
  | divu => if y = 0 then -1 else x / y
  | rem => if y = 0 then x else x.srem y
  | remu => if y = 0 then x else x % y
  | slt | sltu | xor | or | and | mulh | mulhsu | mulhu => (op.eval a b).setWidth 32

/-- The result of an operation on the low halves of two words, extended with its sign. -/
def eval32 (op : AluOp) (a b : Word) : Word :=
  (op.evalLow a b).signExtend 64

end CrossHart.Isa.AluOp
