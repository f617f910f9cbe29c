import CrossHart.Proofs.Isa.Format
import Mathlib.Tactic.Common

/-!
# Decoding is the inverse of encoding

A well-formed instruction is decoded from its encoding.  The other way round, an instruction that is
decoded from a word is well-formed, and the word is its encoding.  Only the fences are decoded from
other words too, as most of their fields are ignored.
-/

namespace CrossHart.Isa

open Instr

/-! ### Tables

A table gives an operation for exactly the minor opcodes that the operation is encoded with. -/

theorem BranchOp.ofFunct3?_eq_some {f : BitVec 3} {op : BranchOp} :
  ofFunct3? f = some op ↔ f = op.funct3
  := by
  revert f
  cases op <;> decide

theorem LoadOp.ofFunct3?_eq_some {f : BitVec 3} {op : LoadOp} :
  ofFunct3? f = some op ↔ f = op.funct3
  := by
  revert f
  cases op <;> decide

theorem StoreOp.ofFunct3?_eq_some {f : BitVec 3} {op : StoreOp} :
  ofFunct3? f = some op ↔ f = op.funct3
  := by
  revert f
  cases op <;> decide

theorem AluOp.ofFunct?_eq_some {upper : BitVec 7} {lower : BitVec 3} {op : AluOp} :
  ofFunct? upper lower = some op ↔ upper = op.funct7 ∧ lower = op.funct3
  := by
  constructor
  · intro h
    unfold ofFunct? at h
    split at h <;> cases h <;> exact ⟨rfl, rfl⟩
  · rintro ⟨rfl, rfl⟩
    cases op <;> rfl

theorem AmoOp.ofFunct5?_eq_some {f : BitVec 5} {op : AmoOp} :
  ofFunct5? f = some op ↔ f = op.funct5
  := by
  revert f
  cases op <;> decide

theorem Width.ofFunct3?_eq_some {f : BitVec 3} {width : Width} :
  ofFunct3? f = some width ↔ f = width.funct3
  := by
  revert f
  cases width <;> decide

theorem CsrOp.ofFunct3?_eq_some {f : BitVec 3} {op : CsrOp} :
  ofFunct3? f = some op ↔ f = op.funct3
  := by
  revert f
  cases op <;> decide

theorem FpFmt.ofFunct3?_eq_some {f : BitVec 3} {fmt : FpFmt} :
  ofFunct3? f = some fmt ↔ f = fmt.funct3
  := by
  revert f
  cases fmt <;> decide

theorem FpFmt.ofField?_eq_some {f : BitVec 2} {fmt : FpFmt} :
  ofField? f = some fmt ↔ f = fmt.field
  := by
  revert f
  cases fmt <;> decide

theorem IntTy.ofCode?_eq_some {n : Nat} {ty : IntTy} :
  ofCode? n = some ty ↔ n = ty.code
  := by
  constructor
  · intro h
    match n with
    | 0 | 1 | 2 | 3 => cases h; rfl
    | n + 4 => cases h
  · rintro rfl
    cases ty <;> rfl

theorem validRounding_iff {rm : BitVec 3} :
  validRounding rm ↔ Instr.IsRounding rm.toNat
  := by
  revert rm
  decide

namespace FpOp

/-- An operation is rounded if its rounding field is no minor opcode. -/
theorem funct3?_of_isRounded {op : FpOp} :
  op.isRounded ↔ op.funct3? = none
  := by
  cases op <;> simp [isRounded, funct3?]

/-- The fields of a floating-point operation: an upper minor opcode, and a source register and a
rounding field where those are minor opcodes. -/
theorem ofFields?_eq_some {upper : BitVec 5} {fmt : FpFmt} {rm : BitVec 3} {rs2 : Nat} {op : FpOp} :
  ofFields? upper fmt rm rs2 = some op ↔
    upper = op.funct5 ∧ (∀ n, op.source? fmt = some n → rs2 = n) ∧
      ∀ n, op.funct3? = some n → rm.toNat = n
  := by
  constructor
  · intro h
    unfold ofFields? at h
    split at h
    case h_1 | h_2 | h_3 | h_4 =>
      cases h
      exact ⟨rfl, nofun, nofun⟩
    case h_6 | h_7 | h_9 =>
      split at h <;> cases h <;> exact ⟨rfl, nofun, fun _ h => Option.some.inj h⟩
    case h_5 =>
      split at h <;> cases h
      case isTrue hs => exact ⟨rfl, fun _ h => hs.trans (Option.some.inj h), nofun⟩
    case h_8 =>
      cases fmt with
      | s | d =>
        dsimp only at h
        split at h <;> cases h
        rename_i hs
        exact ⟨rfl, fun _ h => hs.trans (Option.some.inj h), nofun⟩
    case h_10 | h_11 =>
      obtain ⟨ty, hty, rfl⟩ := Option.map_eq_some_iff.mp h
      exact ⟨rfl, fun _ h => (IntTy.ofCode?_eq_some.mp hty).trans (Option.some.inj h), nofun⟩
    case h_12 =>
      split at h
      case isTrue hs =>
        split at h <;> cases h <;>
          exact ⟨rfl, fun _ h => hs.trans (Option.some.inj h), fun _ h => Option.some.inj h⟩
      case isFalse => cases h
    case h_13 =>
      split at h <;> cases h
      case isTrue hs =>
        obtain ⟨rfl, rfl⟩ := hs
        exact ⟨rfl, fun _ h => Option.some.inj h, fun _ h => Option.some.inj h⟩
    case h_14 => cases h
  · rintro ⟨rfl, hsource, hrounding⟩
    have hrm {n : Nat} (h : op.funct3? = some n) : rm = BitVec.ofNat 3 n := by
      rw [← hrounding n h, BitVec.ofNat_toNat, BitVec.setWidth_eq]
    cases op with
    | add | sub | mul | div => rfl
    | sqrt =>
      cases hsource 0 rfl
      rfl
    | cvtFmt =>
      cases fmt with
      | s =>
        cases hsource 1 rfl
        rfl
      | d =>
        cases hsource 0 rfl
        rfl
    | cvtToInt ty | cvtFromInt ty =>
      cases hsource ty.code rfl
      cases ty <;> rfl
    | sgnJ | min | le =>
      cases hrm (n := 0) rfl
      rfl
    | sgnJn | max | lt =>
      cases hrm (n := 1) rfl
      rfl
    | sgnJx | eq =>
      cases hrm (n := 2) rfl
      rfl
    | mvToInt | mvFromInt =>
      cases hsource 0 rfl
      cases hrm (n := 0) rfl
      rfl
    | classify =>
      cases hsource 0 rfl
      cases hrm (n := 1) rfl
      rfl

end FpOp

namespace Encoding

/-- Arithmetic with an immediate: a shift has the upper part of its immediate as a minor opcode. -/
theorem opImm?_eq_some {w : Encoding} {i : Instr} :
  w.opImm? = some i ↔
    ∃ op imm, i = .opImm op w.rd w.rs1 imm ∧ op.hasImmForm ∧ w.funct3 = op.funct3 ∧
      if op.isShift then
        w.field 26 6 = op.funct7.extractLsb' 1 6 ∧ imm = (w.field 20 6).setWidth 64
      else imm = w.immI
  := by
  constructor
  · intro h
    unfold opImm? at h
    dsimp only at h
    split at h
    case h_1 h3 | h_2 h3 | h_3 h3 | h_4 h3 | h_5 h3 | h_6 h3 =>
      cases h
      exact ⟨_, _, rfl, rfl, h3, rfl⟩
    case h_7 h3 =>
      split at h <;> cases h
      rename_i hupper
      exact ⟨_, _, rfl, rfl, h3, hupper, rfl⟩
    case h_8 =>
      have h3 : w.funct3 = 0b101 := by
        generalize w.funct3 = f at *
        revert f
        decide
      split at h
      case isTrue hupper =>
        cases h
        exact ⟨_, _, rfl, rfl, h3, hupper, rfl⟩
      case isFalse =>
        split at h <;> cases h
        rename_i hupper
        exact ⟨_, _, rfl, rfl, h3, hupper, rfl⟩
  · rintro ⟨op, imm, rfl, hform, h3, himm⟩
    unfold opImm?
    rw [h3]
    cases op with
    | add | slt | sltu | xor | or | and =>
      cases himm
      rfl
    | sll | srl =>
      obtain ⟨hupper, rfl⟩ := himm
      exact if_pos hupper
    | sra =>
      obtain ⟨hupper, rfl⟩ := himm
      dsimp only [AluOp.funct3]
      rw [hupper]
      rfl
    | _ => cases hform

theorem opImm32?_eq_some {w : Encoding} {i : Instr} :
  w.opImm32? = some i ↔
    ∃ op imm, i = .opImm32 op w.rd w.rs1 imm ∧ (op = .add ∨ op.isShift) ∧ w.funct3 = op.funct3 ∧
      if op.isShift then w.funct7 = op.funct7 ∧ imm = (w.field 20 5).setWidth 64
      else imm = w.immI
  := by
  constructor
  · intro h
    unfold opImm32? at h
    dsimp only at h
    split at h
    case h_1 h3 =>
      cases h
      exact ⟨_, _, rfl, .inl rfl, h3, rfl⟩
    case h_2 h3 =>
      split at h <;> cases h
      rename_i hupper
      exact ⟨_, _, rfl, .inr rfl, h3, hupper, rfl⟩
    case h_3 h3 =>
      split at h
      case isTrue hupper =>
        cases h
        exact ⟨_, _, rfl, .inr rfl, h3, hupper, rfl⟩
      case isFalse =>
        split at h <;> cases h
        rename_i hupper
        exact ⟨_, _, rfl, .inr rfl, h3, hupper, rfl⟩
    case h_4 => cases h
  · rintro ⟨op, imm, rfl, hform, h3, himm⟩
    unfold opImm32?
    rw [h3]
    cases op with
    | add =>
      cases himm
      rfl
    | sll | srl =>
      obtain ⟨hupper, rfl⟩ := himm
      exact if_pos hupper
    | sra =>
      obtain ⟨hupper, rfl⟩ := himm
      dsimp only [AluOp.funct3]
      rw [hupper]
      rfl
    | _ => cases hform with
      | inl h => cases h
      | inr h => cases h

/-! ### Encodings whose fields are put together

Where a minor opcode, an immediate or a register shares a field of the format with something else, the
fields of a word are related to those of the instruction once more. -/

section

variable {w : Encoding} {rd rs1 rs2 : Nat}

theorem eq_encode_opImm_iff {op : AluOp} {imm : Word} (hrd : rd < 32) (hrs1 : rs1 < 32)
    (himm : if op.isShift then imm.toNat < 64 else Fits 12 imm) :
  w = encode (.opImm op rd rs1 imm) ↔
    w.opcode = 0x13 ∧ w.funct3 = op.funct3 ∧ w.rd = rd ∧ w.rs1 = rs1 ∧
      if op.isShift then
        w.field 26 6 = op.funct7.extractLsb' 1 6 ∧ imm = (w.field 20 6).setWidth 64
      else imm = w.immI
  := by
  rw [encode]
  split at himm
  case isTrue hshift =>
    rw [if_pos hshift, if_pos hshift, eq_ofI_iff hrd hrs1, field_eq_append_iff (n := 6) (m := 6),
      eq_comm (a := imm), setWidth_eq_iff (by decide) himm]
    constructor
    · rintro ⟨ho, h3, himm, hd, h1⟩
      exact ⟨ho, h3, hd, h1, himm⟩
    · rintro ⟨ho, h3, hd, h1, himm⟩
      exact ⟨ho, h3, himm, hd, h1⟩
  case isFalse hshift =>
    rw [if_neg hshift, if_neg hshift, eq_ofI_iff hrd hrs1, eq_comm (a := imm), immI_eq_iff himm]
    constructor
    · rintro ⟨ho, h3, himm, hd, h1⟩
      exact ⟨ho, h3, hd, h1, himm⟩
    · rintro ⟨ho, h3, hd, h1, himm⟩
      exact ⟨ho, h3, himm, hd, h1⟩

theorem eq_encode_opImm32_iff {op : AluOp} {imm : Word} (hrd : rd < 32) (hrs1 : rs1 < 32)
    (himm : if op.isShift then imm.toNat < 32 else Fits 12 imm) :
  w = encode (.opImm32 op rd rs1 imm) ↔
    w.opcode = 0x1b ∧ w.funct3 = op.funct3 ∧ w.rd = rd ∧ w.rs1 = rs1 ∧
      if op.isShift then w.funct7 = op.funct7 ∧ imm = (w.field 20 5).setWidth 64
      else imm = w.immI
  := by
  rw [encode]
  split at himm
  case isTrue hshift =>
    rw [if_pos hshift, if_pos hshift, eq_ofI_iff hrd hrs1, field_eq_append_iff (n := 7) (m := 5),
      eq_comm (a := imm), setWidth_eq_iff (by decide) himm]
    constructor
    · rintro ⟨ho, h3, himm, hd, h1⟩
      exact ⟨ho, h3, hd, h1, himm⟩
    · rintro ⟨ho, h3, hd, h1, himm⟩
      exact ⟨ho, h3, himm, hd, h1⟩
  case isFalse hshift =>
    rw [if_neg hshift, if_neg hshift, eq_ofI_iff hrd hrs1, eq_comm (a := imm), immI_eq_iff himm]
    constructor
    · rintro ⟨ho, h3, himm, hd, h1⟩
      exact ⟨ho, h3, hd, h1, himm⟩
    · rintro ⟨ho, h3, hd, h1, himm⟩
      exact ⟨ho, h3, himm, hd, h1⟩

theorem eq_encode_amo_iff {op : AmoOp} {width : Width} {aq rl : Bool} (hrd : rd < 32)
    (hrs1 : rs1 < 32) (hrs2 : rs2 < 32) :
  w = encode (.amo op width rd rs1 rs2 aq rl) ↔
    w.opcode = 0x2f ∧ w.funct3 = width.funct3 ∧ w.field 27 5 = op.funct5 ∧ w.getLsbD 26 = aq ∧
      w.getLsbD 25 = rl ∧ w.rd = rd ∧ w.rs1 = rs1 ∧ w.rs2 = rs2
  := by
  rw [encode, eq_ofR_iff hrd hrs1 hrs2, funct7, field_eq_append_iff (n := 6) (m := 1),
    field_eq_append_iff (n := 5) (m := 1), field_eq_ofBool_iff, field_eq_ofBool_iff]
  constructor
  · rintro ⟨ho, h3, ⟨⟨h5, haq⟩, hrl⟩, hd, h1, h2⟩
    exact ⟨ho, h3, h5, haq, hrl, hd, h1, h2⟩
  · rintro ⟨ho, h3, h5, haq, hrl, hd, h1, h2⟩
    exact ⟨ho, h3, ⟨⟨h5, haq⟩, hrl⟩, hd, h1, h2⟩

theorem eq_encode_fpFma_iff {op : FmaOp} {fmt : FpFmt} {rs3 rm : Nat} (hrd : rd < 32)
    (hrs1 : rs1 < 32) (hrs2 : rs2 < 32) (hrs3 : rs3 < 32) (hrm : rm < 8) :
  w = encode (.fpFma op fmt rd rs1 rs2 rs3 rm) ↔
    w.opcode = op.opcode ∧ w.funct3.toNat = rm ∧ w.rs3 = rs3 ∧ w.field 25 2 = fmt.field ∧
      w.rd = rd ∧ w.rs1 = rs1 ∧ w.rs2 = rs2
  := by
  rw [encode, eq_ofR_iff hrd hrs1 hrs2, funct7, field_eq_append_iff (n := 5) (m := 2),
    toNat_eq_iff hrm, Encoding.rs3, toNat_eq_iff hrs3]
  constructor
  · rintro ⟨ho, h3, ⟨hs, hfmt⟩, hregs⟩
    exact ⟨ho, h3, hs, hfmt, hregs⟩
  · rintro ⟨ho, h3, hs, hfmt, hregs⟩
    exact ⟨ho, h3, ⟨hs, hfmt⟩, hregs⟩

theorem eq_encode_fpOp_iff {op : FpOp} {fmt : FpFmt} {rm : Nat} (hrd : rd < 32)
    (hrs1 : rs1 < 32) (hrs2 : rs2 < 32) (hrm : rm < 8) :
  w = encode (.fpOp op fmt rd rs1 rs2 rm) ↔
    w.opcode = 0x53 ∧ w.funct3.toNat = rm ∧ w.field 27 5 = op.funct5 ∧ w.field 25 2 = fmt.field ∧
      w.rd = rd ∧ w.rs1 = rs1 ∧ w.rs2 = rs2
  := by
  rw [encode, eq_ofR_iff hrd hrs1 hrs2, funct7, field_eq_append_iff (n := 5) (m := 2),
    toNat_eq_iff hrm]
  constructor
  · rintro ⟨ho, h3, ⟨h5, hfmt⟩, hregs⟩
    exact ⟨ho, h3, h5, hfmt, hregs⟩
  · rintro ⟨ho, h3, h5, hfmt, hregs⟩
    exact ⟨ho, h3, ⟨h5, hfmt⟩, hregs⟩

theorem eq_encode_fence_iff {pred succ : Nat} (hpred : pred < 16) (hsucc : succ < 16) :
  w = encode (.fence pred succ) ↔
    w.opcode = 0x0f ∧ w.funct3 = 0 ∧ (w.field 24 4).toNat = pred ∧ (w.field 20 4).toNat = succ ∧
      w.field 28 4 = 0 ∧ w.rd = 0 ∧ w.rs1 = 0
  := by
  rw [encode, eq_ofI_iff (by decide) (by decide), field_eq_append_iff (n := 8) (m := 4),
    field_eq_append_iff (n := 4) (m := 4), toNat_eq_iff hpred, toNat_eq_iff hsucc]
  constructor
  · rintro ⟨ho, h3, ⟨⟨hmode, hpred⟩, hsucc⟩, hd, h1⟩
    exact ⟨ho, h3, hpred, hsucc, hmode, hd, h1⟩
  · rintro ⟨ho, h3, hpred, hsucc, hmode, hd, h1⟩
    exact ⟨ho, h3, ⟨⟨hmode, hpred⟩, hsucc⟩, hd, h1⟩

end

/-! ### Decoding an encoding -/

/-- A well-formed instruction is decoded from its encoding. -/
theorem decode?_of_eq_encode {w : Encoding} {i : Instr} (h : i.WellFormed) (hw : w = i.encode) :
  w.decode? = some i
  := by
  cases i with
  | lui rd imm | auipc rd imm =>
    obtain ⟨hrd, fits, upper⟩ := h
    obtain ⟨ho, rfl, rfl⟩ := (eq_ofU_iff hrd fits upper).mp hw
    rw [decode?, ho]
    rfl
  | jal rd imm =>
    obtain ⟨hrd, fits, even⟩ := h
    obtain ⟨ho, rfl, rfl⟩ := (eq_ofJ_iff hrd fits even).mp hw
    rw [decode?, ho]
    rfl
  | jalr rd rs1 imm =>
    obtain ⟨hrd, hrs1, fits⟩ := h
    obtain ⟨ho, h3, himm, rfl, rfl⟩ := (eq_ofI_iff hrd hrs1).mp hw
    rw [decode?, ho, ← (immI_eq_iff fits).mpr himm]
    exact if_pos h3
  | branch op rs1 rs2 imm =>
    obtain ⟨hrs1, hrs2, fits, even⟩ := h
    obtain ⟨ho, h3, rfl, rfl, rfl⟩ := (eq_ofB_iff hrs1 hrs2 fits even).mp hw
    rw [decode?, ho]
    exact Option.bind_eq_some_iff.mpr ⟨op, BranchOp.ofFunct3?_eq_some.mpr h3, rfl⟩
  | load op rd rs1 imm =>
    obtain ⟨hrd, hrs1, fits⟩ := h
    obtain ⟨ho, h3, himm, rfl, rfl⟩ := (eq_ofI_iff hrd hrs1).mp hw
    rw [decode?, ho, ← (immI_eq_iff fits).mpr himm]
    exact Option.bind_eq_some_iff.mpr ⟨op, LoadOp.ofFunct3?_eq_some.mpr h3, rfl⟩
  | store op rs1 rs2 imm =>
    obtain ⟨hrs1, hrs2, fits⟩ := h
    obtain ⟨ho, h3, rfl, rfl, rfl⟩ := (eq_ofS_iff hrs1 hrs2 fits).mp hw
    rw [decode?, ho]
    exact Option.bind_eq_some_iff.mpr ⟨op, StoreOp.ofFunct3?_eq_some.mpr h3, rfl⟩
  | opImm op rd rs1 imm =>
    obtain ⟨hrd, hrs1, hform, himm⟩ := h
    obtain ⟨ho, h3, rfl, rfl, hbits⟩ := (eq_encode_opImm_iff hrd hrs1 himm).mp hw
    rw [decode?, ho]
    exact opImm?_eq_some.mpr ⟨op, imm, rfl, hform, h3, hbits⟩
  | opImm32 op rd rs1 imm =>
    obtain ⟨hrd, hrs1, hform, himm⟩ := h
    obtain ⟨ho, h3, rfl, rfl, hbits⟩ := (eq_encode_opImm32_iff hrd hrs1 himm).mp hw
    rw [decode?, ho]
    exact opImm32?_eq_some.mpr ⟨op, imm, rfl, hform, h3, hbits⟩
  | op op rd rs1 rs2 =>
    obtain ⟨hrd, hrs1, hrs2⟩ := h
    obtain ⟨ho, h3, h7, rfl, rfl, rfl⟩ := (eq_ofR_iff hrd hrs1 hrs2).mp hw
    rw [decode?, ho]
    exact Option.bind_eq_some_iff.mpr ⟨op, AluOp.ofFunct?_eq_some.mpr ⟨h7, h3⟩, rfl⟩
  | op32 op rd rs1 rs2 =>
    obtain ⟨hrd, hrs1, hrs2, hform⟩ := h
    obtain ⟨ho, h3, h7, rfl, rfl, rfl⟩ := (eq_ofR_iff hrd hrs1 hrs2).mp hw
    rw [decode?, ho]
    exact Option.bind_eq_some_iff.mpr ⟨op, AluOp.ofFunct?_eq_some.mpr ⟨h7, h3⟩, if_pos hform⟩
  | amo op width rd rs1 rs2 aq rl =>
    obtain ⟨hrd, hrs1, hrs2, hlr⟩ := h
    obtain ⟨ho, h3, h5, rfl, rfl, rfl, rfl, rfl⟩ := (eq_encode_amo_iff hrd hrs1 hrs2).mp hw
    rw [decode?, ho]
    apply Option.bind_eq_some_iff.mpr
    use width, Width.ofFunct3?_eq_some.mpr h3
    apply Option.bind_eq_some_iff.mpr
    use op, AmoOp.ofFunct5?_eq_some.mpr h5
    apply if_neg
    rintro ⟨rfl, hne⟩
    exact hne (hlr rfl)
  | fence pred succ =>
    obtain ⟨hpred, hsucc⟩ := h
    obtain ⟨ho, h3, rfl, rfl, -⟩ := (eq_encode_fence_iff hpred hsucc).mp hw
    rw [decode?, ho]
    change w.fence? = _
    rw [fence?, h3]
    rfl
  | fenceI =>
    obtain ⟨ho, h3, -⟩ := (eq_ofI_iff (by decide) (by decide)).mp hw
    rw [decode?, ho]
    change w.fence? = _
    rw [fence?, h3]
    rfl
  | ecall | ebreak =>
    cases hw
    rfl
  | csr op rd rs1 n =>
    obtain ⟨hrd, hrs1, hn⟩ := h
    obtain ⟨ho, h3, himm, rfl, rfl⟩ := (eq_ofI_iff hrd hrs1).mp hw
    have hne : ¬w.funct3 = 0 := by
      rw [h3]
      cases op <;> decide
    rw [decode?, ho, ← (toNat_eq_iff hn).mpr himm]
    change w.system? = _
    rw [system?, if_neg hne]
    exact Option.bind_eq_some_iff.mpr ⟨op, CsrOp.ofFunct3?_eq_some.mpr h3, rfl⟩
  | fpLoad fmt rd rs1 imm =>
    obtain ⟨hrd, hrs1, fits⟩ := h
    obtain ⟨ho, h3, himm, rfl, rfl⟩ := (eq_ofI_iff hrd hrs1).mp hw
    rw [decode?, ho, ← (immI_eq_iff fits).mpr himm]
    exact Option.bind_eq_some_iff.mpr ⟨fmt, FpFmt.ofFunct3?_eq_some.mpr h3, rfl⟩
  | fpStore fmt rs1 rs2 imm =>
    obtain ⟨hrs1, hrs2, fits⟩ := h
    obtain ⟨ho, h3, rfl, rfl, rfl⟩ := (eq_ofS_iff hrs1 hrs2 fits).mp hw
    rw [decode?, ho]
    exact Option.bind_eq_some_iff.mpr ⟨fmt, FpFmt.ofFunct3?_eq_some.mpr h3, rfl⟩
  | fpFma op fmt rd rs1 rs2 rs3 rm =>
    obtain ⟨hrd, hrs1, hrs2, hrs3, hrm⟩ := h
    obtain ⟨ho, rfl, rfl, hfmt, rfl, rfl, rfl⟩ :=
      (eq_encode_fpFma_iff hrd hrs1 hrs2 hrs3 hrm.1).mp hw
    have hfma : w.fpFma? op = some (.fpFma op fmt w.rd w.rs1 w.rs2 w.rs3 w.funct3.toNat) := by
      rw [fpFma?, if_pos (validRounding_iff.mpr hrm)]
      exact Option.bind_eq_some_iff.mpr ⟨fmt, FpFmt.ofField?_eq_some.mpr hfmt, rfl⟩
    rw [decode?, ho]
    cases op <;> exact hfma
  | fpOp op fmt rd rs1 rs2 rm =>
    obtain ⟨hrd, hrs1, hrs2, hsource, hrm⟩ := h
    have hlt : rm < 8 := by
      split at hrm
      case h_1 n hn =>
        subst hrm
        cases op <;> cases hn <;> decide
      case h_2 => exact hrm.1
    obtain ⟨ho, rfl, h5, hfmt, rfl, rfl, rfl⟩ := (eq_encode_fpOp_iff hrd hrs1 hrs2 hlt).mp hw
    rw [decode?, ho]
    apply Option.bind_eq_some_iff.mpr
    use fmt, FpFmt.ofField?_eq_some.mpr hfmt
    apply Option.bind_eq_some_iff.mpr
    use op
    constructor
    · apply FpOp.ofFields?_eq_some.mpr
      refine ⟨h5, hsource, ?_⟩
      intro n hn
      rw [hn] at hrm
      exact hrm
    · apply if_neg
      rintro ⟨hrounded, hinvalid⟩
      rw [FpOp.funct3?_of_isRounded.mp hrounded] at hrm
      rw [validRounding_iff.mpr hrm] at hinvalid
      cases hinvalid

/-! ### Encoding what was decoded -/

end Encoding

/-- The instructions with fields that are ignored. -/
def Instr.isFence : Instr → Bool
  | fence .. | fenceI => true
  | _ => false

namespace Encoding

/-- The word of a fence, with the fields that are ignored made zero. -/
def withoutIgnored (w : Encoding) : Encoding :=
  if w.funct3 = 0 then .ofI w.opcode 0 (0#4 ++ w.field 24 4 ++ w.field 20 4) 0 0
  else .ofI w.opcode w.funct3 0 0 0

/-- What an instruction has to do with a word that it is decoded from. -/
def Yields (w : Encoding) (i : Instr) : Prop :=
  i.WellFormed ∧ (i.encode = w ∨ i.isFence ∧ i.encode = w.withoutIgnored)

theorem Yields.of_eq {w : Encoding} {i : Instr} (h : i.WellFormed) (hw : w = i.encode) :
  w.Yields i
  := ⟨h, .inl hw.symm⟩

section

variable {w : Encoding} {i : Instr}

theorem fits_immI_low (w : Encoding) : Fits 12 w.immI := fits_signExtend _ (Nat.le_refl _)

theorem fits_immS_low (w : Encoding) : Fits 12 w.immS := fits_signExtend _ (Nat.le_refl _)

theorem yields_upper (w : Encoding) (ho : w.opcode = 0x37 ∧ i = .lui w.rd w.immU ∨
      w.opcode = 0x17 ∧ i = .auipc w.rd w.immU) :
  w.Yields i
  := by
  have hfits : Fits 32 w.immU := fits_signExtend _ (Nat.le_refl _)
  have hlow : w.immU.extractLsb' 0 12 = 0 := low_signExtend_append _ (by decide)
  rcases ho with ⟨ho, rfl⟩ | ⟨ho, rfl⟩
  all_goals
    refine .of_eq ⟨w.rd_lt, hfits, hlow⟩ ?_
    exact (eq_ofU_iff w.rd_lt hfits hlow).mpr ⟨ho, rfl, rfl⟩

theorem yields_jal (ho : w.opcode = 0x6f) :
  w.Yields (.jal w.rd w.immJ)
  := by
  have hfits : Fits 21 w.immJ := fits_signExtend _ (Nat.le_refl _)
  have heven : w.immJ.getLsbD 0 = false :=
    (field_eq_ofBool_iff (b := false)).mp (low_signExtend_append _ (by decide))
  refine .of_eq ⟨w.rd_lt, hfits, heven⟩ ?_
  exact (eq_ofJ_iff w.rd_lt hfits heven).mpr ⟨ho, rfl, rfl⟩

theorem yields_jalr (ho : w.opcode = 0x67) (h3 : w.funct3 = 0) :
  w.Yields (.jalr w.rd w.rs1 w.immI)
  := by
  have hfits := w.fits_immI_low
  refine .of_eq ⟨w.rd_lt, w.rs1_lt, hfits⟩ ?_
  exact (eq_ofI_iff w.rd_lt w.rs1_lt).mpr ⟨ho, h3, (immI_eq_iff hfits).mp rfl, rfl, rfl⟩

theorem yields_branch? (ho : w.opcode = 0x63) (h : w.branch? = some i) :
  w.Yields i
  := by
  obtain ⟨op, hop, hi⟩ := Option.bind_eq_some_iff.mp h
  cases hi
  have hfits : Fits 13 w.immB := fits_signExtend _ (Nat.le_refl _)
  have heven : w.immB.getLsbD 0 = false :=
    (field_eq_ofBool_iff (b := false)).mp (low_signExtend_append _ (by decide))
  refine .of_eq ⟨w.rs1_lt, w.rs2_lt, hfits, heven⟩ ?_
  apply (eq_ofB_iff w.rs1_lt w.rs2_lt hfits heven).mpr
  exact ⟨ho, BranchOp.ofFunct3?_eq_some.mp hop, rfl, rfl, rfl⟩

theorem yields_load? (ho : w.opcode = 0x03) (h : w.load? = some i) :
  w.Yields i
  := by
  obtain ⟨op, hop, hi⟩ := Option.bind_eq_some_iff.mp h
  cases hi
  have hfits := w.fits_immI_low
  refine .of_eq ⟨w.rd_lt, w.rs1_lt, hfits⟩ ?_
  apply (eq_ofI_iff w.rd_lt w.rs1_lt).mpr
  exact ⟨ho, LoadOp.ofFunct3?_eq_some.mp hop, (immI_eq_iff hfits).mp rfl, rfl, rfl⟩

theorem yields_store? (ho : w.opcode = 0x23) (h : w.store? = some i) :
  w.Yields i
  := by
  obtain ⟨op, hop, hi⟩ := Option.bind_eq_some_iff.mp h
  cases hi
  have hfits := w.fits_immS_low
  refine .of_eq ⟨w.rs1_lt, w.rs2_lt, hfits⟩ ?_
  apply (eq_ofS_iff w.rs1_lt w.rs2_lt hfits).mpr
  exact ⟨ho, StoreOp.ofFunct3?_eq_some.mp hop, rfl, rfl, rfl⟩

theorem amount_or_fits {n : Nat} {v : BitVec n} {op : AluOp} {imm : Word} {p : Prop}
    (small : n ≤ 64) (h : if op.isShift then p ∧ imm = v.setWidth 64 else imm = w.immI) :
  if op.isShift then imm.toNat < 2 ^ n else Fits 12 imm
  := by
  split
  case isTrue hshift =>
    rw [if_pos hshift] at h
    rw [h.2, BitVec.toNat_setWidth_of_le small]
    exact v.isLt
  case isFalse hshift =>
    rw [if_neg hshift] at h
    rw [h]
    exact w.fits_immI_low

theorem yields_opImm? (ho : w.opcode = 0x13) (h : w.opImm? = some i) :
  w.Yields i
  := by
  obtain ⟨op, imm, rfl, hform, h3, hbits⟩ := opImm?_eq_some.mp h
  have himm := amount_or_fits (by decide) hbits
  refine .of_eq ⟨w.rd_lt, w.rs1_lt, hform, himm⟩ ?_
  exact (eq_encode_opImm_iff w.rd_lt w.rs1_lt himm).mpr ⟨ho, h3, rfl, rfl, hbits⟩

theorem yields_opImm32? (ho : w.opcode = 0x1b) (h : w.opImm32? = some i) :
  w.Yields i
  := by
  obtain ⟨op, imm, rfl, hform, h3, hbits⟩ := opImm32?_eq_some.mp h
  have himm := amount_or_fits (by decide) hbits
  refine .of_eq ⟨w.rd_lt, w.rs1_lt, hform, himm⟩ ?_
  exact (eq_encode_opImm32_iff w.rd_lt w.rs1_lt himm).mpr ⟨ho, h3, rfl, rfl, hbits⟩

theorem yields_op? (ho : w.opcode = 0x33) (h : w.op? = some i) :
  w.Yields i
  := by
  obtain ⟨op, hop, hi⟩ := Option.bind_eq_some_iff.mp h
  cases hi
  obtain ⟨h7, h3⟩ := AluOp.ofFunct?_eq_some.mp hop
  refine .of_eq ⟨w.rd_lt, w.rs1_lt, w.rs2_lt⟩ ?_
  exact (eq_ofR_iff w.rd_lt w.rs1_lt w.rs2_lt).mpr ⟨ho, h3, h7, rfl, rfl, rfl⟩

theorem yields_op32? (ho : w.opcode = 0x3b) (h : w.op32? = some i) :
  w.Yields i
  := by
  obtain ⟨op, hop, hi⟩ := Option.bind_eq_some_iff.mp h
  split at hi
  case isTrue hform =>
    cases hi
    obtain ⟨h7, h3⟩ := AluOp.ofFunct?_eq_some.mp hop
    refine .of_eq ⟨w.rd_lt, w.rs1_lt, w.rs2_lt, hform⟩ ?_
    exact (eq_ofR_iff w.rd_lt w.rs1_lt w.rs2_lt).mpr ⟨ho, h3, h7, rfl, rfl, rfl⟩
  case isFalse => cases hi

theorem yields_amo? (ho : w.opcode = 0x2f) (h : w.amo? = some i) :
  w.Yields i
  := by
  obtain ⟨width, hwidth, h⟩ := Option.bind_eq_some_iff.mp h
  obtain ⟨op, hop, hi⟩ := Option.bind_eq_some_iff.mp h
  split at hi
  case isTrue => cases hi
  case isFalse hsource =>
    cases hi
    have hlr (h : op = .lr) : w.rs2 = 0 := by
      by_contra hne
      exact hsource ⟨h, hne⟩
    refine .of_eq ⟨w.rd_lt, w.rs1_lt, w.rs2_lt, hlr⟩ ?_
    apply (eq_encode_amo_iff w.rd_lt w.rs1_lt w.rs2_lt).mpr
    exact ⟨ho, Width.ofFunct3?_eq_some.mp hwidth, AmoOp.ofFunct5?_eq_some.mp hop, rfl, rfl, rfl,
      rfl, rfl⟩

theorem yields_fence? (ho : w.opcode = 0x0f) (h : w.fence? = some i) :
  w.Yields i
  := by
  unfold fence? at h
  split at h
  case h_1 h3 =>
    cases h
    refine ⟨⟨(w.field 24 4).isLt, (w.field 20 4).isLt⟩, .inr ⟨rfl, ?_⟩⟩
    rw [withoutIgnored, if_pos (show w.funct3 = 0 from h3), ho, encode, BitVec.ofNat_toNat, BitVec.ofNat_toNat,
      BitVec.setWidth_eq, BitVec.setWidth_eq]
  case h_2 h3 =>
    cases h
    refine ⟨trivial, .inr ⟨rfl, ?_⟩⟩
    rw [withoutIgnored, if_neg (by rw [h3]; decide), ho, h3]
    rfl
  case h_3 => cases h

theorem yields_system? (ho : w.opcode = 0x73) (h : w.system? = some i) :
  w.Yields i
  := by
  unfold system? at h
  split at h
  case isTrue h3 =>
    split at h
    case isTrue => cases h
    case isFalse hregs =>
      obtain ⟨hd, h1⟩ := not_or.mp hregs
      rw [not_not] at hd h1
      split at h
      case h_1 himm | h_2 himm =>
        cases h
        refine .of_eq trivial ?_
        exact (eq_ofI_iff (by decide) (by decide)).mpr ⟨ho, h3, himm, hd, h1⟩
      case h_3 => cases h
  case isFalse =>
    obtain ⟨op, hop, hi⟩ := Option.bind_eq_some_iff.mp h
    cases hi
    refine .of_eq ⟨w.rd_lt, w.rs1_lt, (w.field 20 12).isLt⟩ ?_
    apply (eq_ofI_iff w.rd_lt w.rs1_lt).mpr
    refine ⟨ho, CsrOp.ofFunct3?_eq_some.mp hop, ?_, rfl, rfl⟩
    rw [BitVec.ofNat_toNat, BitVec.setWidth_eq]

theorem yields_fpLoad? (ho : w.opcode = 0x07) (h : w.fpLoad? = some i) :
  w.Yields i
  := by
  obtain ⟨fmt, hfmt, hi⟩ := Option.bind_eq_some_iff.mp h
  cases hi
  have hfits := w.fits_immI_low
  refine .of_eq ⟨w.rd_lt, w.rs1_lt, hfits⟩ ?_
  apply (eq_ofI_iff w.rd_lt w.rs1_lt).mpr
  exact ⟨ho, FpFmt.ofFunct3?_eq_some.mp hfmt, (immI_eq_iff hfits).mp rfl, rfl, rfl⟩

theorem yields_fpStore? (ho : w.opcode = 0x27) (h : w.fpStore? = some i) :
  w.Yields i
  := by
  obtain ⟨fmt, hfmt, hi⟩ := Option.bind_eq_some_iff.mp h
  cases hi
  have hfits := w.fits_immS_low
  refine .of_eq ⟨w.rs1_lt, w.rs2_lt, hfits⟩ ?_
  apply (eq_ofS_iff w.rs1_lt w.rs2_lt hfits).mpr
  exact ⟨ho, FpFmt.ofFunct3?_eq_some.mp hfmt, rfl, rfl, rfl⟩

theorem yields_fpFma? (op : FmaOp) (ho : w.opcode = op.opcode) (h : w.fpFma? op = some i) :
  w.Yields i
  := by
  unfold fpFma? at h
  split at h
  case isTrue hrm =>
    obtain ⟨fmt, hfmt, hi⟩ := Option.bind_eq_some_iff.mp h
    cases hi
    have hrs3 : w.rs3 < 32 := (w.field 27 5).isLt
    refine .of_eq ⟨w.rd_lt, w.rs1_lt, w.rs2_lt, hrs3, validRounding_iff.mp hrm⟩ ?_
    apply (eq_encode_fpFma_iff w.rd_lt w.rs1_lt w.rs2_lt hrs3 w.funct3.isLt).mpr
    exact ⟨ho, rfl, rfl, FpFmt.ofField?_eq_some.mp hfmt, rfl, rfl, rfl⟩
  case isFalse => cases h

theorem yields_fpOp? (ho : w.opcode = 0x53) (h : w.fpOp? = some i) :
  w.Yields i
  := by
  obtain ⟨fmt, hfmt, h⟩ := Option.bind_eq_some_iff.mp h
  obtain ⟨op, hop, hi⟩ := Option.bind_eq_some_iff.mp h
  split at hi
  case isTrue => cases hi
  case isFalse hvalid =>
    cases hi
    obtain ⟨h5, hsource, hminor⟩ := FpOp.ofFields?_eq_some.mp hop
    refine .of_eq ⟨w.rd_lt, w.rs1_lt, w.rs2_lt, hsource, ?_⟩ ?_
    · split
      case h_1 n hn => exact hminor n hn
      case h_2 hn =>
        apply validRounding_iff.mp
        by_contra hrm
        apply hvalid
        rw [FpOp.funct3?_of_isRounded.mpr hn, (Bool.not_eq_true _).mp hrm]
        exact ⟨rfl, rfl⟩
    · apply (eq_encode_fpOp_iff w.rd_lt w.rs1_lt w.rs2_lt w.funct3.isLt).mpr
      exact ⟨ho, rfl, h5, FpFmt.ofField?_eq_some.mp hfmt, rfl, rfl, rfl⟩

/-- What is decoded from a word is well-formed, and the word is its encoding. -/
theorem yields_of_decode? (h : w.decode? = some i) :
  w.Yields i
  := by
  unfold decode? at h
  split at h
  case h_1 ho =>
    cases h
    exact yields_upper w (.inl ⟨ho, rfl⟩)
  case h_2 ho =>
    cases h
    exact yields_upper w (.inr ⟨ho, rfl⟩)
  case h_3 ho =>
    cases h
    exact yields_jal ho
  case h_4 ho =>
    split at h <;> cases h
    rename_i h3
    exact yields_jalr ho h3
  case h_5 ho => exact yields_branch? ho h
  case h_6 ho => exact yields_load? ho h
  case h_7 ho => exact yields_store? ho h
  case h_8 ho => exact yields_opImm? ho h
  case h_9 ho => exact yields_opImm32? ho h
  case h_10 ho => exact yields_op? ho h
  case h_11 ho => exact yields_op32? ho h
  case h_12 ho => exact yields_amo? ho h
  case h_13 ho => exact yields_fence? ho h
  case h_14 ho => exact yields_system? ho h
  case h_15 ho => exact yields_fpLoad? ho h
  case h_16 ho => exact yields_fpStore? ho h
  case h_17 ho => exact yields_fpFma? .madd ho h
  case h_18 ho => exact yields_fpFma? .msub ho h
  case h_19 ho => exact yields_fpFma? .nmsub ho h
  case h_20 ho => exact yields_fpFma? .nmadd ho h
  case h_21 ho => exact yields_fpOp? ho h
  case h_22 => cases h

end

end Encoding

end CrossHart.Isa
