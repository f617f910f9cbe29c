import CrossHart.Hart.Alu
import CrossHart.Isa.Decode.Integer
import Mathlib.Algebra.Ring.Int.Defs
import Mathlib.Algebra.Ring.Nat

/-!
# Arithmetic on integers

A word of `w` bits stands for a natural number and, read with its sign, for an integer.  Every arithmetic
operation is one on these numbers, of whose result the low bits are kept.  An operation that also exists
on 32-bit words is the same one there, on the low halves of its operands.  Nothing is lost on the way: the
products of which the upper half is taken fit into 128 bits.
-/

namespace CrossHart.Isa.AluOp

/-- The one quotient that is no signed number of its width: that of the least number by `-1`. -/
def Overflows {w : Nat} (a b : BitVec w) : Prop :=
  a.toInt = -2 ^ (w - 1) ∧ b.toInt = -1

instance {w : Nat} (a b : BitVec w) : Decidable (Overflows a b) :=
  inferInstanceAs (Decidable (_ ∧ _))

/-- What an operation computes from two words of `w` bits.  Shifts are by a number below `w`.  Upper halves
of products and shifts of negative numbers are rounded down, quotients towards zero. -/
@[simp]
def onIntegers (op : AluOp) {w : Nat} (a b : BitVec w) : Int :=
  match op with
  | add => a.toInt + b.toInt
  | sub => a.toInt - b.toInt
  | sll => a.toNat * 2 ^ (b.toNat % w)
  | slt => if a.toInt < b.toInt then 1 else 0
  | sltu => if a.toNat < b.toNat then 1 else 0
  | xor => (a.toNat ^^^ b.toNat : Nat)
  | srl => a.toNat / 2 ^ (b.toNat % w)
  | sra => a.toInt / 2 ^ (b.toNat % w)
  | or => (a.toNat ||| b.toNat : Nat)
  | and => (a.toNat &&& b.toNat : Nat)
  | mul => a.toInt * b.toInt
  | mulh => a.toInt * b.toInt / 2 ^ w
  | mulhsu => a.toInt * b.toNat / 2 ^ w
  | mulhu => a.toNat * b.toNat / 2 ^ w
  | div => if b.toInt = 0 then -1 else if Overflows a b then a.toInt else a.toInt.tdiv b.toInt
  | divu => if b.toNat = 0 then -1 else a.toNat / b.toNat
  | rem => if b.toInt = 0 then a.toInt else if Overflows a b then 0 else a.toInt.tmod b.toInt
  | remu => if b.toNat = 0 then a.toNat else a.toNat % b.toNat

/-! ### Operations of any width -/

section

variable {w : Nat} {a b : BitVec w}

/-- A word is determined by its number. -/
theorem eq_ofInt_of_toNat {n : Nat} (h : a.toNat = n) :
  a = BitVec.ofInt w n
  := by
  rw [← h, BitVec.ofInt_natCast, BitVec.ofNat_toNat, BitVec.setWidth_eq]

/-- A word is determined by its number with a sign. -/
theorem eq_ofInt_of_toInt {n : Int} (h : a.toInt = n) :
  a = BitVec.ofInt w n
  := by
  rw [← h, BitVec.ofInt_toInt]

theorem ofInt_neg_one :
  BitVec.ofInt w (-1) = -1
  := BitVec.ofInt_neg

theorem eq_zero_iff_toNat :
  b = 0 ↔ b.toNat = 0
  := BitVec.toNat_inj.symm

theorem eq_zero_iff_toInt :
  b = 0 ↔ b.toInt = 0
  := by
  rw [← BitVec.toInt_inj]
  exact iff_of_eq (congrArg _ BitVec.toInt_zero)

theorem Overflows.sdiv_eq (h : Overflows a b) :
  a.sdiv b = a
  := by
  obtain rfl | hw := Nat.eq_zero_or_pos w
  · exact Subsingleton.elim _ _
  have ha : a = BitVec.intMin w := by
    apply BitVec.eq_of_toInt_eq
    rw [h.1, BitVec.toInt_intMin_of_pos hw]
  have hb : b = -1 := by
    rw [eq_ofInt_of_toInt h.2, ofInt_neg_one]
  rw [ha, hb]
  exact BitVec.intMin_sdiv_neg_one

variable (a b)

theorem add_eq :
  a + b = BitVec.ofInt w (add.onIntegers a b)
  := by
  rw [onIntegers, BitVec.ofInt_add, BitVec.ofInt_toInt, BitVec.ofInt_toInt]

theorem sub_eq :
  a - b = BitVec.ofInt w (sub.onIntegers a b)
  := by
  rw [onIntegers, Int.sub_eq_add_neg, BitVec.ofInt_add, BitVec.ofInt_neg, BitVec.ofInt_toInt,
    BitVec.ofInt_toInt, BitVec.sub_eq_add_neg]

theorem shiftLeft_eq :
  a <<< (b.toNat % w) = BitVec.ofInt w (sll.onIntegers a b)
  := by
  apply BitVec.eq_of_toNat_eq
  rw [onIntegers, BitVec.toNat_shiftLeft, Nat.shiftLeft_eq]
  norm_cast

theorem ushiftRight_eq :
  a >>> (b.toNat % w) = BitVec.ofInt w (srl.onIntegers a b)
  := by
  rw [onIntegers]
  norm_cast
  apply eq_ofInt_of_toNat
  rw [BitVec.toNat_ushiftRight, Nat.shiftRight_eq_div_pow]

theorem sshiftRight_eq :
  a.sshiftRight (b.toNat % w) = BitVec.ofInt w (sra.onIntegers a b)
  := by
  rw [onIntegers, BitVec.sshiftRight_eq, Int.shiftRight_eq_div_pow]
  norm_cast

theorem mul_eq :
  a * b = BitVec.ofInt w (mul.onIntegers a b)
  := by
  rw [onIntegers, BitVec.ofInt_mul, BitVec.ofInt_toInt, BitVec.ofInt_toInt]

theorem sdiv_eq :
  (if b = 0 then -1 else a.sdiv b) = BitVec.ofInt w (div.onIntegers a b)
  := by
  simp only [onIntegers, eq_zero_iff_toInt]
  split
  case isTrue => exact ofInt_neg_one.symm
  case isFalse =>
    split
    case isTrue overflows => rw [overflows.sdiv_eq, BitVec.ofInt_toInt]
    case isFalse =>
      apply BitVec.eq_of_toInt_eq
      rw [BitVec.toInt_sdiv, BitVec.toInt_ofInt]

theorem udiv_eq :
  (if b = 0 then -1 else a / b) = BitVec.ofInt w (divu.onIntegers a b)
  := by
  simp only [onIntegers, eq_zero_iff_toNat]
  split
  case isTrue => exact ofInt_neg_one.symm
  case isFalse =>
    norm_cast
    exact eq_ofInt_of_toNat BitVec.toNat_udiv

theorem srem_eq :
  (if b = 0 then a else a.srem b) = BitVec.ofInt w (rem.onIntegers a b)
  := by
  simp only [onIntegers, eq_zero_iff_toInt]
  split
  case isTrue => exact eq_ofInt_of_toInt rfl
  case isFalse =>
    apply eq_ofInt_of_toInt
    rw [BitVec.toInt_srem]
    split
    case isTrue overflows => rw [overflows.2, Int.tmod_neg, Int.tmod_one]
    case isFalse => rfl

theorem umod_eq :
  (if b = 0 then a else a % b) = BitVec.ofInt w (remu.onIntegers a b)
  := by
  simp only [onIntegers, eq_zero_iff_toNat]
  split
  case isTrue => exact eq_ofInt_of_toNat rfl
  case isFalse =>
    norm_cast
    exact eq_ofInt_of_toNat BitVec.toNat_umod

end

/-! ### Products of 128 bits -/

/-- No step on the way to a result overflows: shifts are by less than the width, and the products of which
the upper half is taken are those of the integers. -/
structure StepsFit (a b : Word) : Prop where
  shift : b.toNat % 64 < 64 ∧ (b.setWidth 32).toNat % 32 < 32
  signed : (a.signExtend 128 * b.signExtend 128).toInt = a.toInt * b.toInt
  mixed : (a.signExtend 128 * b.setWidth 128).toInt = a.toInt * b.toNat
  unsigned : (a.setWidth 128 * b.setWidth 128).toNat = a.toNat * b.toNat

/-- Products of numbers of 64 bits, with a sign or without, are numbers of 128 bits with a sign. -/
theorem bmod_mul {x y : Int} (hx : x.natAbs ≤ 2 ^ 63) (hy : y.natAbs < 2 ^ 64) :
  (x * y).bmod (2 ^ 128) = x * y
  := by
  have hle : (x * y).natAbs ≤ 2 ^ 63 * (2 ^ 64 - 1) := by
    rw [Int.natAbs_mul]
    exact Nat.mul_le_mul hx (Nat.le_pred_of_lt hy)
  apply Int.bmod_eq_of_le <;> omega

theorem stepsFit (a b : Word) :
  StepsFit a b
  := by
  have habs (c : Word) : c.toInt.natAbs ≤ 2 ^ 63 := by
    have hle : -0x8000000000000000 ≤ c.toInt := c.le_toInt
    have hlt : c.toInt < 0x8000000000000000 := c.toInt_lt
    omega
  have hwide : (b.setWidth 128).toInt = b.toNat := by
    have hlt := b.isLt
    rw [BitVec.toInt_setWidth]
    apply Int.bmod_eq_of_le <;> omega
  refine ⟨⟨Nat.mod_lt _ (by decide), Nat.mod_lt _ (by decide)⟩, ?_, ?_, ?_⟩
  · rw [BitVec.toInt_mul, BitVec.toInt_signExtend_of_le (by decide),
      BitVec.toInt_signExtend_of_le (by decide), bmod_mul (habs a)]
    exact Nat.lt_of_le_of_lt (habs b) (by decide)
  · rw [BitVec.toInt_mul, BitVec.toInt_signExtend_of_le (by decide), hwide, bmod_mul (habs a)]
    exact b.isLt
  · have hle : a.toNat * b.toNat ≤ (2 ^ 64 - 1) * (2 ^ 64 - 1) :=
      Nat.mul_le_mul (Nat.le_pred_of_lt a.isLt) (Nat.le_pred_of_lt b.isLt)
    rw [BitVec.toNat_mul, BitVec.toNat_setWidth_of_le (by decide), BitVec.toNat_setWidth_of_le (by decide)]
    exact Nat.mod_eq_of_lt (by omega)

/-- The upper half of a number of 128 bits, with its sign or without. -/
theorem extractLsb'_eq_ofInt (v : BitVec 128) :
  v.extractLsb' 64 64 = BitVec.ofInt 64 (v.toInt / 2 ^ 64) ∧
    v.extractLsb' 64 64 = BitVec.ofInt 64 (v.toNat / 2 ^ 64)
  := by
  have hlt := v.isLt
  constructor
  all_goals
    apply BitVec.eq_of_toNat_eq
    rw [BitVec.extractLsb'_toNat, BitVec.toNat_ofInt, Nat.shiftRight_eq_div_pow]
  · rw [BitVec.toInt_eq_toNat_cond]
    omega
  · omega

/-! ### Results -/

/-- A truth value as a word. -/
theorem ofBool_eq (p : Prop) [Decidable p] :
  Word.ofBool (decide p) = BitVec.ofInt 64 (if p then 1 else 0)
  := by
  by_cases h : p
  · simp [Word.ofBool, h]
  · simp [Word.ofBool, h]

theorem eval_eq_ofInt (op : AluOp) (a b : Word) :
  op.eval a b = BitVec.ofInt 64 (op.onIntegers a b)
  := by
  obtain ⟨-, hsigned, hmixed, hunsigned⟩ := stepsFit a b
  cases op with
  | add => exact add_eq a b
  | sub => exact sub_eq a b
  | sll => exact shiftLeft_eq a b
  | slt => exact ofBool_eq (a.toInt < b.toInt)
  | sltu => exact ofBool_eq (a.toNat < b.toNat)
  | xor => exact eq_ofInt_of_toNat (BitVec.toNat_xor a b)
  | srl => exact ushiftRight_eq a b
  | sra => exact sshiftRight_eq a b
  | or => exact eq_ofInt_of_toNat (BitVec.toNat_or a b)
  | and => exact eq_ofInt_of_toNat (BitVec.toNat_and a b)
  | mul => exact mul_eq a b
  | mulh => rw [eval, upperProduct, (extractLsb'_eq_ofInt _).1, hsigned, onIntegers]
  | mulhsu => rw [eval, upperProduct, (extractLsb'_eq_ofInt _).1, hmixed, onIntegers]
  | mulhu =>
    rw [eval, upperProduct, (extractLsb'_eq_ofInt _).2, hunsigned, onIntegers]
    norm_cast
  | div => exact sdiv_eq a b
  | divu => exact udiv_eq a b
  | rem => exact srem_eq a b
  | remu => exact umod_eq a b

theorem evalLow_eq_ofInt {op : AluOp} (form : op.hasWordForm = true) (a b : Word) :
  op.evalLow a b = BitVec.ofInt 32 (op.onIntegers (a.setWidth 32) (b.setWidth 32))
  := by
  cases op with
  | add => exact add_eq _ _
  | sub => exact sub_eq _ _
  | sll => exact shiftLeft_eq _ _
  | srl => exact ushiftRight_eq _ _
  | sra => exact sshiftRight_eq _ _
  | mul => exact mul_eq _ _
  | div => exact sdiv_eq _ _
  | divu => exact udiv_eq _ _
  | rem => exact srem_eq _ _
  | remu => exact umod_eq _ _
  | _ => cases form

/-- An operation gives on all words the low 64 bits of what it computes on integers.  Where it exists on
32-bit words, it gives there the low 32 bits, extended with their sign, of what it computes on the low
halves, and depends on nothing else.  No step on the way overflows. -/
theorem operations_compute_on_integers (op : AluOp) (a b : Word) :
  op.eval a b = BitVec.ofInt 64 (op.onIntegers a b) ∧
  (op.hasWordForm = true →
    op.eval32 a b = (BitVec.ofInt 32 (op.onIntegers (a.setWidth 32) (b.setWidth 32))).signExtend 64 ∧
    ∀ a' b' : Word, a'.setWidth 32 = a.setWidth 32 → b'.setWidth 32 = b.setWidth 32 →
      op.eval32 a' b' = op.eval32 a b) ∧
  StepsFit a b
  := by
  refine ⟨eval_eq_ofInt op a b, fun form => ⟨?_, fun a' b' ha hb => ?_⟩, stepsFit a b⟩
  · rw [eval32, evalLow_eq_ofInt form]
  · rw [eval32, eval32, evalLow_eq_ofInt form, evalLow_eq_ofInt form, ha, hb]

/-- The quotients of the least numbers of 64 and of 32 bits by `-1`. -/
theorem operations_compute_on_integers_of_least :
  div.hasWordForm = true ∧ div.eval 0x8000000000000000 (-1) = 0x8000000000000000 ∧
    div.eval32 0x1234567880000000 (-1) = 0xffffffff80000000
  := by
  obtain ⟨hquotient, -⟩ := operations_compute_on_integers div 0x8000000000000000 (-1)
  obtain ⟨-, hlow, -⟩ := operations_compute_on_integers div 0x1234567880000000 (-1)
  refine ⟨rfl, ?_, ?_⟩
  · rw [hquotient]
    decide
  · rw [(hlow rfl).1]
    decide

end CrossHart.Isa.AluOp
