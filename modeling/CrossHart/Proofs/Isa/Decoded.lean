import Mathlib.Data.Bool.Basic
import Mathlib.Data.List.Basic
import Mathlib.Tactic.SplitIfs
import CrossHart.Isa.Decode
import CrossHart.Isa.Encode

/-!
# Decoded instructions

Whatever bits an instruction is decoded from, its registers exist and its immediate is the extension
of 32 bits.
-/

namespace CrossHart.Isa

namespace Instr

/-- Operands as the engine expects them: registers that exist, and immediates of 32 bits. -/
def IsProper : Instr → Prop
  | lui rd _ | auipc rd _ | jal rd _ => rd < 32
  | branch _ rs1 rs2 _ => rs1 < 32 ∧ rs2 < 32
  | jalr rd rs1 imm | load _ rd rs1 imm | opImm _ rd rs1 imm | opImm32 _ rd rs1 imm =>
    rd < 32 ∧ rs1 < 32 ∧ Fits 32 imm
  | store _ rs1 rs2 imm => rs1 < 32 ∧ rs2 < 32 ∧ Fits 32 imm
  | op _ rd rs1 rs2 | op32 _ rd rs1 rs2 | amo _ _ rd rs1 rs2 _ _ => rd < 32 ∧ rs1 < 32 ∧ rs2 < 32
  | csr _ rd _ _ => rd < 32
  | _ => True

/-- A field extended with its sign. -/
theorem fits_signExtend {n k : Nat} (v : BitVec n) (h : n ≤ k) :
  Fits k (v.signExtend 64)
  := by
  apply BitVec.eq_of_getLsbD_eq
  intro i hi
  simp only [BitVec.getLsbD_signExtend, BitVec.getLsbD_setWidth, BitVec.msb_setWidth]
  grind

/-- A field with no sign. -/
theorem fits_setWidth {n k : Nat} (v : BitVec n) (h : n < k) :
  Fits k (v.setWidth 64)
  := by
  apply BitVec.eq_of_getLsbD_eq
  intro i hi
  simp only [BitVec.getLsbD_signExtend, BitVec.getLsbD_setWidth, BitVec.msb_setWidth]
  have := v.getLsbD_of_ge
  grind

end Instr

open Instr

/-! ### Full-width encodings -/

namespace Encoding

theorem rd_lt (w : Encoding) : w.rd < 32 := (w.field 7 5).isLt

theorem rs1_lt (w : Encoding) : w.rs1 < 32 := (w.field 15 5).isLt

theorem rs2_lt (w : Encoding) : w.rs2 < 32 := (w.field 20 5).isLt

theorem fits_immI (w : Encoding) : Fits 32 w.immI := fits_signExtend _ (by decide)

theorem fits_immS (w : Encoding) : Fits 32 w.immS := fits_signExtend _ (by decide)

theorem isProper_opImm {w : Encoding} {i : Instr} (h : w.opImm? = some i) :
  i.IsProper
  := by
  have hi := w.fits_immI
  have ha : Fits 32 ((w.field 20 6).setWidth 64) := fits_setWidth _ (by decide)
  have hmake {op : AluOp} {imm : Word} (fits : Fits 32 imm)
      (h : some (Instr.opImm op w.rd w.rs1 imm) = some i) : i.IsProper := by
    cases h
    exact ⟨w.rd_lt, w.rs1_lt, fits⟩
  unfold opImm? at h
  dsimp only at h
  split at h
  case h_7 => split_ifs at h; exact hmake ha h
  case h_8 => split_ifs at h <;> exact hmake ha h
  all_goals exact hmake hi h

theorem isProper_opImm32 {w : Encoding} {i : Instr} (h : w.opImm32? = some i) :
  i.IsProper
  := by
  have hi := w.fits_immI
  have ha : Fits 32 ((w.field 20 5).setWidth 64) := fits_setWidth _ (by decide)
  have hmake {op : AluOp} {imm : Word} (fits : Fits 32 imm)
      (h : some (Instr.opImm32 op w.rd w.rs1 imm) = some i) : i.IsProper := by
    cases h
    exact ⟨w.rd_lt, w.rs1_lt, fits⟩
  unfold opImm32? at h
  dsimp only at h
  split at h
  case h_1 => exact hmake hi h
  case h_2 => split_ifs at h; exact hmake ha h
  case h_3 => split_ifs at h <;> exact hmake ha h
  case h_4 => cases h

/-- The tables of operations that the compiler leaves to single steps. -/
theorem isProper_rest {w : Encoding} {i : Instr}
    (h : w.amo? = some i ∨ w.fence? = some i ∨ w.system? = some i ∨ w.fpLoad? = some i ∨
      w.fpStore? = some i ∨ (∃ op, w.fpFma? op = some i) ∨ w.fpOp? = some i) :
  i.IsProper
  := by
  obtain h | h | h | h | h | ⟨op, h⟩ | h := h
  · simp only [amo?, Option.bind_eq_bind, Option.bind_eq_some_iff] at h
    obtain ⟨_, -, _, -, h⟩ := h
    split at h <;> cases h
    exact ⟨w.rd_lt, w.rs1_lt, w.rs2_lt⟩
  · unfold fence? at h
    split at h <;> cases h <;> trivial
  · unfold system? at h
    split at h
    · split at h
      · cases h
      · split at h <;> cases h <;> trivial
    · obtain ⟨_, -, h⟩ := Option.bind_eq_some_iff.mp h
      cases h
      exact w.rd_lt
  · obtain ⟨_, -, h⟩ := Option.bind_eq_some_iff.mp h
    cases h
    trivial
  · obtain ⟨_, -, h⟩ := Option.bind_eq_some_iff.mp h
    cases h
    trivial
  · unfold fpFma? at h
    split at h
    · obtain ⟨_, -, h⟩ := Option.bind_eq_some_iff.mp h
      cases h
      trivial
    · cases h
  · simp only [fpOp?, Option.bind_eq_bind, Option.bind_eq_some_iff] at h
    obtain ⟨_, -, _, -, h⟩ := h
    split at h <;> cases h
    trivial

theorem isProper_of_decode {w : Encoding} {i : Instr} (h : w.decode? = some i) :
  i.IsProper
  := by
  have hd := w.rd_lt
  have h1 := w.rs1_lt
  have h2 := w.rs2_lt
  unfold decode? at h
  split at h
  case h_1 => cases h; exact hd
  case h_2 => cases h; exact hd
  case h_3 => cases h; exact hd
  case h_4 =>
    split at h <;> cases h
    exact ⟨hd, h1, w.fits_immI⟩
  case h_5 =>
    obtain ⟨_, -, h⟩ := Option.bind_eq_some_iff.mp h
    cases h
    exact ⟨h1, h2⟩
  case h_6 =>
    obtain ⟨_, -, h⟩ := Option.bind_eq_some_iff.mp h
    cases h
    exact ⟨hd, h1, w.fits_immI⟩
  case h_7 =>
    obtain ⟨_, -, h⟩ := Option.bind_eq_some_iff.mp h
    cases h
    exact ⟨h1, h2, w.fits_immS⟩
  case h_8 => exact isProper_opImm h
  case h_9 => exact isProper_opImm32 h
  case h_10 =>
    obtain ⟨_, -, h⟩ := Option.bind_eq_some_iff.mp h
    cases h
    exact ⟨hd, h1, h2⟩
  case h_11 =>
    obtain ⟨op, -, h⟩ := Option.bind_eq_some_iff.mp h
    split at h <;> cases h
    exact ⟨hd, h1, h2⟩
  case h_22 => cases h
  case h_12 => exact isProper_rest (.inl h)
  case h_13 => exact isProper_rest (.inr (.inl h))
  case h_14 => exact isProper_rest (.inr (.inr (.inl h)))
  all_goals exact isProper_rest (w := w) (by grind)

end Encoding

/-! ### Compressed encodings -/

namespace Half

theorem rd_lt (h : Half) : h.rd < 32 := (h.field 7 5).isLt

theorem rs2_lt (h : Half) : h.rs2 < 32 := (h.field 2 5).isLt

theorem shortLow_lt (h : Half) : h.shortLow < 32 := by
  have := (h.field 2 3).isLt
  unfold shortLow
  omega

theorem shortMid_lt (h : Half) : h.shortMid < 32 := by
  have := (h.field 7 3).isLt
  unfold shortMid
  omega

theorem fits_imm6 (h : Half) : Fits 32 h.imm6 := fits_signExtend _ (by decide)

theorem fits_amount (h : Half) : Fits 32 h.amount := fits_setWidth _ (by decide)

theorem isProper_quadrant0 {h : Half} {i : Instr} (hi : h.quadrant0? = some i) :
  i.IsProper
  := by
  have hlow := h.shortLow_lt
  have hmid := h.shortMid_lt
  unfold quadrant0? at hi
  split at hi
  case h_1 =>
    split_ifs at hi
    cases hi
    exact ⟨hlow, by decide, fits_setWidth _ (by decide)⟩
  case h_3 => cases hi; exact ⟨hlow, hmid, fits_setWidth _ (by decide)⟩
  case h_4 => cases hi; exact ⟨hlow, hmid, fits_setWidth _ (by decide)⟩
  case h_6 => cases hi; exact ⟨hmid, hlow, fits_setWidth _ (by decide)⟩
  case h_7 => cases hi; exact ⟨hmid, hlow, fits_setWidth _ (by decide)⟩
  all_goals cases hi <;> trivial

theorem isProper_arithmetic {h : Half} {i : Instr} (hi : h.arithmetic? = some i) :
  i.IsProper
  := by
  have hlow := h.shortLow_lt
  have hmid := h.shortMid_lt
  unfold arithmetic? at hi
  dsimp only at hi
  split at hi
  case h_1 => cases hi; exact ⟨hmid, hmid, h.fits_amount⟩
  case h_2 => cases hi; exact ⟨hmid, hmid, h.fits_amount⟩
  case h_3 => cases hi; exact ⟨hmid, hmid, h.fits_imm6⟩
  case h_4 => split at hi <;> cases hi <;> exact ⟨hmid, hmid, hlow⟩

theorem isProper_quadrant1 {h : Half} {i : Instr} (hi : h.quadrant1? = some i) :
  i.IsProper
  := by
  have hrd := h.rd_lt
  have hmid := h.shortMid_lt
  have himm := h.fits_imm6
  unfold quadrant1? at hi
  dsimp only at hi
  split at hi
  case h_1 => cases hi; exact ⟨hrd, hrd, himm⟩
  case h_2 => split_ifs at hi; cases hi; exact ⟨hrd, hrd, himm⟩
  case h_3 => cases hi; exact ⟨hrd, by decide, himm⟩
  case h_4 =>
    split_ifs at hi <;> cases hi
    · exact ⟨by decide, by decide, fits_signExtend _ (by decide)⟩
    · exact hrd
  case h_5 => exact isProper_arithmetic hi
  case h_6 => cases hi; exact Nat.zero_lt_succ 31
  all_goals cases hi; exact ⟨hmid, by decide⟩

theorem isProper_quadrant2 {h : Half} {i : Instr} (hi : h.quadrant2? = some i) :
  i.IsProper
  := by
  have hrd := h.rd_lt
  have hrs2 := h.rs2_lt
  unfold quadrant2? at hi
  dsimp only at hi
  split at hi
  case h_1 => cases hi; exact ⟨hrd, hrd, h.fits_amount⟩
  case h_3 => split_ifs at hi; cases hi; exact ⟨hrd, by decide, fits_setWidth _ (by decide)⟩
  case h_4 => split_ifs at hi; cases hi; exact ⟨hrd, by decide, fits_setWidth _ (by decide)⟩
  case h_5 =>
    unfold transfer? at hi
    dsimp only at hi
    split_ifs at hi <;> cases hi
    · exact ⟨hrd, hrd, hrs2⟩
    · exact ⟨by decide, hrd, by decide⟩
    · trivial
    · exact ⟨hrd, by decide, hrs2⟩
    · exact ⟨by decide, hrd, by decide⟩
  case h_7 => cases hi; exact ⟨by decide, hrs2, fits_setWidth _ (by decide)⟩
  case h_8 => cases hi; exact ⟨by decide, hrs2, fits_setWidth _ (by decide)⟩
  all_goals cases hi; trivial

theorem isProper_of_decode {h : Half} {i : Instr} (hi : h.decode? = some i) :
  i.IsProper
  := by
  unfold decode? at hi
  split at hi
  · exact isProper_quadrant0 hi
  · exact isProper_quadrant1 hi
  · exact isProper_quadrant2 hi
  · cases hi

end Half

/-! ### Located instructions -/

/-- An instruction whose bits are those it was decoded from. -/
def Located.IsDecoded (d : Located) : Prop :=
  decode d.raw d.pc = .ok (d.instr, d.width)

theorem Located.IsDecoded.proper {d : Located} (h : d.IsDecoded) :
  d.instr.IsProper
  := by
  obtain ⟨pc, raw, instr, width⟩ := d
  unfold IsDecoded decode at h
  split at h
  · split at h
    case h_1 hi =>
      cases h
      exact Encoding.isProper_of_decode hi
    case h_2 => cases h
  · split at h
    case h_1 hi =>
      cases h
      exact Half.isProper_of_decode hi
    case h_2 => cases h

/-- An instruction is of two or four bytes. -/
theorem Located.IsDecoded.width_eq {d : Located} (h : d.IsDecoded) :
  d.width = 2 ∨ d.width = 4
  := by
  obtain ⟨pc, raw, instr, width⟩ := d
  unfold IsDecoded decode at h
  split at h
  · split at h <;> cases h
    exact .inr rfl
  · split at h <;> cases h
    exact .inl rfl

/-- The first half-word tells how wide an instruction is. -/
theorem Located.IsDecoded.width_eq_low {d : Located} (h : d.IsDecoded) :
  d.width = Half.width (Encoding.low d.raw)
  := by
  obtain ⟨pc, raw, instr, width⟩ := d
  unfold IsDecoded decode at h
  rw [Half.width]
  split at h
  case isTrue hfull =>
    rw [if_pos hfull]
    split at h <;> cases h
    rfl
  case isFalse hhalf =>
    rw [if_neg hhalf]
    split at h <;> cases h
    rfl

end CrossHart.Isa
