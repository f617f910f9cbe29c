import CrossHart.Proofs.Isa.Decoded
import Mathlib.Algebra.Ring.Nat

/-!
# Fields of encodings

A full-width encoding is its fields, one after the other.  So a word is in one of the formats, with
given contents, exactly if each of its fields is read as given.  Immediates are no exception: though
they are scattered over the word, the parts of an immediate that fits its format are read back as
that immediate.
-/

namespace CrossHart.Isa

/-! ### Fields side by side -/

theorem append_inj {n m : Nat} {a a' : BitVec n} {b b' : BitVec m} :
  a ++ b = a' ++ b' ↔ a = a' ∧ b = b'
  := by
  constructor
  · intro h
    constructor
    · rw [← BitVec.extractLsb'_append_eq_left (a := a) (b := b), h,
        BitVec.extractLsb'_append_eq_left]
    · rw [← BitVec.extractLsb'_append_eq_right (a := a) (b := b), h,
        BitVec.extractLsb'_append_eq_right]
  · rintro ⟨rfl, rfl⟩
    rfl

theorem eq_append_iff {n m : Nat} {x : BitVec (n + m)} {a : BitVec n} {b : BitVec m} :
  x = a ++ b ↔ x.extractLsb' m n = a ∧ x.extractLsb' 0 m = b
  := by
  rw [← append_inj, BitVec.extractLsb'_append_extractLsb']

/-- A field is made of two smaller ones. -/
theorem field_eq_append_iff {l lo n m : Nat} {x : BitVec l} {a : BitVec n} {b : BitVec m} :
  x.extractLsb' lo (n + m) = a ++ b ↔ x.extractLsb' (lo + m) n = a ∧ x.extractLsb' lo m = b
  := by
  rw [← append_inj, BitVec.extractLsb'_append_extractLsb'_eq_extractLsb' rfl]

theorem append_eq_field_iff {l lo n m : Nat} {x : BitVec l} {a : BitVec n} {b : BitVec m} :
  a ++ b = x.extractLsb' lo (n + m) ↔ a = x.extractLsb' (lo + m) n ∧ b = x.extractLsb' lo m
  := by
  rw [eq_comm, field_eq_append_iff, eq_comm (a := a), eq_comm (a := b)]

theorem toNat_eq_iff {n v : Nat} {x : BitVec n} (h : v < 2 ^ n) :
  x.toNat = v ↔ x = BitVec.ofNat n v
  := by
  rw [← BitVec.toNat_inj, BitVec.toNat_ofNat, Nat.mod_eq_of_lt h]

/-- The bits of an immediate are found by what it is extended from. -/
theorem signExtend_eq_iff {n : Nat} {v : BitVec n} {imm : Word} (small : n ≤ 64)
    (fits : Instr.Fits n imm) :
  v.signExtend 64 = imm ↔ v = imm.extractLsb' 0 n
  := by
  rw [← BitVec.setWidth_eq_extractLsb' small]
  constructor
  · rintro rfl
    apply BitVec.eq_of_getLsbD_eq
    intro i hi
    rw [BitVec.getLsbD_setWidth, BitVec.getLsbD_signExtend, if_pos hi]
    simp only [hi, Nat.lt_of_lt_of_le hi small, decide_true, Bool.true_and]
  · rintro rfl
    exact fits

theorem low_signExtend_append {n k : Nat} (v : BitVec n) (small : n + k ≤ 64) :
  ((v ++ 0#k).signExtend 64).extractLsb' 0 k = 0#k
  := by
  have hbits := (signExtend_eq_iff small (Instr.fits_signExtend (v ++ 0#k) (Nat.le_refl _))).mp rfl
  exact (append_eq_field_iff.mp hbits).2.symm

/-- The bits of an amount without a sign. -/
theorem setWidth_eq_iff {n : Nat} {v : BitVec n} {imm : Word} (small : n ≤ 64)
    (fits : imm.toNat < 2 ^ n) :
  v.setWidth 64 = imm ↔ v = imm.extractLsb' 0 n
  := by
  rw [← BitVec.setWidth_eq_extractLsb' small]
  constructor
  · rintro rfl
    rw [BitVec.setWidth_setWidth_of_le v small, BitVec.setWidth_eq]
  · rintro rfl
    rw [← BitVec.toNat_inj, BitVec.toNat_setWidth, BitVec.toNat_setWidth, Nat.mod_eq_of_lt fits,
      Nat.mod_eq_of_lt imm.isLt]

theorem field_eq_ofBool_iff {l k : Nat} {x : BitVec l} {b : Bool} :
  x.extractLsb' k 1 = BitVec.ofBool b ↔ x.getLsbD k = b
  := by
  rw [BitVec.getLsbD_eq_extractLsb']
  generalize x.extractLsb' k 1 = c
  revert c
  cases b <;> decide

/-! ### Formats -/

namespace Encoding

variable {w : Encoding} {opcode : BitVec 7} {funct3 : BitVec 3} {rd rs1 rs2 : Nat}

theorem eq_ofR_iff {funct7 : BitVec 7} (hrd : rd < 32) (hrs1 : rs1 < 32) (hrs2 : rs2 < 32) :
  w = ofR opcode funct3 funct7 rd rs1 rs2 ↔
    w.opcode = opcode ∧ w.funct3 = funct3 ∧ w.funct7 = funct7 ∧ w.rd = rd ∧ w.rs1 = rs1 ∧
      w.rs2 = rs2
  := by
  rw [ofR, eq_append_iff (n := 25) (m := 7), field_eq_append_iff (n := 20) (m := 5),
    field_eq_append_iff (n := 17) (m := 3), field_eq_append_iff (n := 12) (m := 5),
    field_eq_append_iff (n := 7) (m := 5), Encoding.rd, toNat_eq_iff hrd, Encoding.rs1,
    toNat_eq_iff hrs1, Encoding.rs2, toNat_eq_iff hrs2]
  constructor
  · rintro ⟨⟨⟨⟨⟨h7, h2⟩, h1⟩, h3⟩, hd⟩, ho⟩
    exact ⟨ho, h3, h7, hd, h1, h2⟩
  · rintro ⟨ho, h3, h7, hd, h1, h2⟩
    exact ⟨⟨⟨⟨⟨h7, h2⟩, h1⟩, h3⟩, hd⟩, ho⟩

theorem eq_ofI_iff {imm : BitVec 12} (hrd : rd < 32) (hrs1 : rs1 < 32) :
  w = ofI opcode funct3 imm rd rs1 ↔
    w.opcode = opcode ∧ w.funct3 = funct3 ∧ w.field 20 12 = imm ∧ w.rd = rd ∧ w.rs1 = rs1
  := by
  rw [ofI, eq_append_iff (n := 25) (m := 7), field_eq_append_iff (n := 20) (m := 5),
    field_eq_append_iff (n := 17) (m := 3), field_eq_append_iff (n := 12) (m := 5),
    Encoding.rd, toNat_eq_iff hrd, Encoding.rs1, toNat_eq_iff hrs1]
  constructor
  · rintro ⟨⟨⟨⟨himm, h1⟩, h3⟩, hd⟩, ho⟩
    exact ⟨ho, h3, himm, hd, h1⟩
  · rintro ⟨ho, h3, himm, hd, h1⟩
    exact ⟨⟨⟨⟨himm, h1⟩, h3⟩, hd⟩, ho⟩

theorem immI_eq_iff {imm : Word} (fits : Instr.Fits 12 imm) :
  w.immI = imm ↔ w.field 20 12 = imm.setWidth 12
  := by
  rw [immI, signExtend_eq_iff (by decide) fits, BitVec.setWidth_eq_extractLsb' (by decide)]

theorem eq_ofS_iff {imm : Word} (hrs1 : rs1 < 32) (hrs2 : rs2 < 32) (fits : Instr.Fits 12 imm) :
  w = ofS opcode funct3 imm rs1 rs2 ↔
    w.opcode = opcode ∧ w.funct3 = funct3 ∧ w.immS = imm ∧ w.rs1 = rs1 ∧ w.rs2 = rs2
  := by
  rw [ofS, eq_append_iff (n := 25) (m := 7), field_eq_append_iff (n := 20) (m := 5),
    field_eq_append_iff (n := 17) (m := 3), field_eq_append_iff (n := 12) (m := 5),
    field_eq_append_iff (n := 7) (m := 5), Encoding.rs1, toNat_eq_iff hrs1, Encoding.rs2,
    toNat_eq_iff hrs2, immS, signExtend_eq_iff (by decide) fits,
    append_eq_field_iff (n := 7) (m := 5)]
  constructor
  · rintro ⟨⟨⟨⟨⟨hhi, h2⟩, h1⟩, h3⟩, hlo⟩, ho⟩
    exact ⟨ho, h3, ⟨hhi, hlo⟩, h1, h2⟩
  · rintro ⟨ho, h3, ⟨hhi, hlo⟩, h1, h2⟩
    exact ⟨⟨⟨⟨⟨hhi, h2⟩, h1⟩, h3⟩, hlo⟩, ho⟩

theorem eq_ofB_iff {imm : Word} (hrs1 : rs1 < 32) (hrs2 : rs2 < 32) (fits : Instr.Fits 13 imm)
    (even : imm.getLsbD 0 = false) :
  w = ofB opcode funct3 imm rs1 rs2 ↔
    w.opcode = opcode ∧ w.funct3 = funct3 ∧ w.immB = imm ∧ w.rs1 = rs1 ∧ w.rs2 = rs2
  := by
  rw [ofB, eq_append_iff (n := 25) (m := 7), field_eq_append_iff (n := 24) (m := 1),
    field_eq_append_iff (n := 20) (m := 4), field_eq_append_iff (n := 17) (m := 3),
    field_eq_append_iff (n := 12) (m := 5), field_eq_append_iff (n := 7) (m := 5),
    field_eq_append_iff (n := 1) (m := 6), Encoding.rs1, toNat_eq_iff hrs1, Encoding.rs2,
    toNat_eq_iff hrs2, immB, signExtend_eq_iff (by decide) fits,
    append_eq_field_iff (n := 12) (m := 1), append_eq_field_iff (n := 8) (m := 4),
    append_eq_field_iff (n := 2) (m := 6), append_eq_field_iff (n := 1) (m := 1),
    (field_eq_ofBool_iff (b := false)).mpr even]
  constructor
  · rintro ⟨⟨⟨⟨⟨⟨⟨h12, h10⟩, h2⟩, h1⟩, h3⟩, h4⟩, h11⟩, ho⟩
    exact ⟨ho, h3, ⟨⟨⟨⟨h12, h11⟩, h10⟩, h4⟩, rfl⟩, h1, h2⟩
  · rintro ⟨ho, h3, ⟨⟨⟨⟨h12, h11⟩, h10⟩, h4⟩, -⟩, h1, h2⟩
    exact ⟨⟨⟨⟨⟨⟨⟨h12, h10⟩, h2⟩, h1⟩, h3⟩, h4⟩, h11⟩, ho⟩

theorem eq_ofU_iff {imm : Word} (hrd : rd < 32) (fits : Instr.Fits 32 imm)
    (upper : imm.extractLsb' 0 12 = 0) :
  w = ofU opcode imm rd ↔ w.opcode = opcode ∧ w.immU = imm ∧ w.rd = rd
  := by
  rw [ofU, eq_append_iff (n := 25) (m := 7), field_eq_append_iff (n := 20) (m := 5),
    Encoding.rd, toNat_eq_iff hrd, immU, signExtend_eq_iff (by decide) fits,
    append_eq_field_iff (n := 20) (m := 12), upper]
  constructor
  · rintro ⟨⟨himm, hd⟩, ho⟩
    exact ⟨ho, ⟨himm, rfl⟩, hd⟩
  · rintro ⟨ho, ⟨himm, -⟩, hd⟩
    exact ⟨⟨himm, hd⟩, ho⟩

theorem eq_ofJ_iff {imm : Word} (hrd : rd < 32) (fits : Instr.Fits 21 imm)
    (even : imm.getLsbD 0 = false) :
  w = ofJ opcode imm rd ↔ w.opcode = opcode ∧ w.immJ = imm ∧ w.rd = rd
  := by
  rw [ofJ, eq_append_iff (n := 25) (m := 7), field_eq_append_iff (n := 20) (m := 5),
    field_eq_append_iff (n := 12) (m := 8), field_eq_append_iff (n := 11) (m := 1),
    field_eq_append_iff (n := 1) (m := 10), Encoding.rd, toNat_eq_iff hrd, immJ,
    signExtend_eq_iff (by decide) fits, append_eq_field_iff (n := 20) (m := 1),
    append_eq_field_iff (n := 10) (m := 10), append_eq_field_iff (n := 9) (m := 1),
    append_eq_field_iff (n := 1) (m := 8), (field_eq_ofBool_iff (b := false)).mpr even]
  constructor
  · rintro ⟨⟨⟨⟨⟨h20, h10⟩, h11⟩, h19⟩, hd⟩, ho⟩
    exact ⟨ho, ⟨⟨⟨⟨h20, h19⟩, h11⟩, h10⟩, rfl⟩, hd⟩
  · rintro ⟨ho, ⟨⟨⟨⟨h20, h19⟩, h11⟩, h10⟩, -⟩, hd⟩
    exact ⟨⟨⟨⟨⟨h20, h10⟩, h11⟩, h19⟩, hd⟩, ho⟩

end Encoding

end CrossHart.Isa
