import CrossHart.Proofs.Isa.Compressed

/-!
# Decoding and the instruction set

Decoding agrees with the tables of the instruction set: with the assembler for full-width encodings,
and with the expansions of the compressed instructions.

* A half-word that does not start a full-width encoding is the encoding of a compressed instruction,
  or it is reserved.  This is a fact of the tables alone.
* The encoding of a compressed instruction is decoded to what the instruction stands for, which is
  well-formed, and a reserved half-word is not decoded.
-/

namespace CrossHart.Isa

open Instr (Fits)

namespace Half

variable {h : Half}

/-! ### The half-words of each quadrant -/

theorem funct3_cases (f : BitVec 3) :
  f = 0b000 ∨ f = 0b001 ∨ f = 0b010 ∨ f = 0b011 ∨ f = 0b100 ∨ f = 0b101 ∨ f = 0b110 ∨ f = 0b111
  := by
  revert f
  decide

theorem pair_cases (b : BitVec 2) :
  b = 0b00 ∨ b = 0b01 ∨ b = 0b10 ∨ b = 0b11
  := by
  revert b
  decide

theorem bit_cases (b : BitVec 1) :
  b = 0 ∨ b = 1
  := by
  revert b
  decide

/-- A half-word is the encoding of a compressed instruction, or reserved. -/
def Tabled (h : Half) : Prop :=
  (∃ c : Compressed, c.WellFormed ∧ h = c.encode) ∨ h.Reserved

theorem Tabled.intro (c : Compressed) (wellFormed : c.WellFormed) (eq : h = c.encode) :
  h.Tabled
  := .inl ⟨c, wellFormed, eq⟩

theorem tabled_load (item : Item) (ho : h.field 0 2 = 0b00) (h3 : h.funct3 = 0#1 ++ item.code) :
  h.Tabled
  := by
  have hoffset := item.isOffset_offset h
  have hbits := (item.offset_eq_iff hoffset).mp rfl
  apply Tabled.intro (.load item h.shortLow h.shortMid (item.offset h))
  · exact ⟨h.isShort_shortLow, h.isShort_shortMid, hoffset⟩
  · apply (eq_ofCL_iff h.isShort_shortMid h.isShort_shortLow).mpr
    exact ⟨ho, h3, hbits.1, rfl, hbits.2, rfl⟩

theorem tabled_store (item : Item) (ho : h.field 0 2 = 0b00) (h3 : h.funct3 = 1#1 ++ item.code) :
  h.Tabled
  := by
  have hoffset := item.isOffset_offset h
  have hbits := (item.offset_eq_iff hoffset).mp rfl
  apply Tabled.intro (.store item h.shortMid h.shortLow (item.offset h))
  · exact ⟨h.isShort_shortMid, h.isShort_shortLow, hoffset⟩
  · apply (eq_ofCL_iff h.isShort_shortMid h.isShort_shortLow).mpr
    exact ⟨ho, h3, hbits.1, rfl, hbits.2, rfl⟩

theorem tabled_quadrant0 (ho : h.field 0 2 = 0b00) :
  h.Tabled
  := by
  rcases funct3_cases h.funct3 with h3 | h3 | h3 | h3 | h3 | h3 | h3 | h3
  · have hoffset : IsOffset 10 2 (h.stackAddress.setWidth 64) :=
      isOffset_setWidth (n := 8) _ (by decide)
    have hbits := (stackAddress_eq_iff hoffset).mp rfl
    by_cases hzero : h.stackAddress.setWidth 64 = 0#64
    · right
      apply Reserved.addi4spn ho h3
      rw [hbits, hzero]
      decide
    · apply Tabled.intro (.addi4spn h.shortLow (h.stackAddress.setWidth 64))
      · exact ⟨h.isShort_shortLow, hoffset, hzero⟩
      · exact (eq_ofCIW_iff h.isShort_shortLow).mpr ⟨ho, h3, hbits, rfl⟩
  · exact tabled_load .float ho h3
  · exact tabled_load .word ho h3
  · exact tabled_load .double ho h3
  · right
    exact .quadrant0 ho h3
  · exact tabled_store .float ho h3
  · exact tabled_store .word ho h3
  · exact tabled_store .double ho h3

theorem fits_imm6_low (h : Half) : Fits 6 h.imm6 := Instr.fits_signExtend _ (Nat.le_refl _)

theorem amount_lt (h : Half) : h.amount.toNat < 64 := by
  rw [amount, BitVec.toNat_setWidth_of_le (by decide)]
  exact h.small.isLt

theorem tabled_short (op : ShortOp) (ho : h.field 0 2 = 0b01) (h3 : h.funct3 = 0b100)
    (hhi : h.field 10 3 = op.funct.1) (hlo : h.field 5 2 = op.funct.2) :
  h.Tabled
  := by
  apply Tabled.intro (.arith op h.shortMid h.shortLow)
  · exact ⟨h.isShort_shortMid, h.isShort_shortLow⟩
  · apply (eq_ofCL_iff h.isShort_shortMid h.isShort_shortLow).mpr
    exact ⟨ho, h3, hhi, rfl, hlo, rfl⟩

theorem tabled_arithmetic (ho : h.field 0 2 = 0b01) (h3 : h.funct3 = 0b100) :
  h.Tabled
  := by
  have hhi {b : BitVec 1} {f : BitVec 2} (hb : h.field 12 1 = b) (hf : h.field 10 2 = f) :
      h.field 10 3 = b ++ f := field_eq_append_iff.mpr ⟨hb, hf⟩
  have hbits := (imm6_eq_iff h.fits_imm6_low).mp rfl
  have hamount := (amount_eq_iff h.amount_lt).mp rfl
  rcases pair_cases (h.field 10 2) with hf | hf | hf | hf
  · apply Tabled.intro (.srli h.shortMid h.amount) ⟨h.isShort_shortMid, h.amount_lt⟩
    exact (eq_ofCB_iff h.isShort_shortMid).mpr ⟨ho, h3, hhi hamount.1 hf, rfl, hamount.2⟩
  · apply Tabled.intro (.srai h.shortMid h.amount) ⟨h.isShort_shortMid, h.amount_lt⟩
    exact (eq_ofCB_iff h.isShort_shortMid).mpr ⟨ho, h3, hhi hamount.1 hf, rfl, hamount.2⟩
  · apply Tabled.intro (.andi h.shortMid h.imm6) ⟨h.isShort_shortMid, h.fits_imm6_low⟩
    exact (eq_ofCB_iff h.isShort_shortMid).mpr ⟨ho, h3, hhi hbits.1 hf, rfl, hbits.2⟩
  · rcases bit_cases (h.field 12 1) with hb | hb
    · rcases pair_cases (h.field 5 2) with hlo | hlo | hlo | hlo
      · exact tabled_short .sub ho h3 (hhi hb hf) hlo
      · exact tabled_short .xor ho h3 (hhi hb hf) hlo
      · exact tabled_short .or ho h3 (hhi hb hf) hlo
      · exact tabled_short .and ho h3 (hhi hb hf) hlo
    · have hfunct6 : h.field 10 6 = 0b100111 :=
        (field_eq_append_iff (n := 3) (m := 3)).mpr ⟨h3, hhi hb hf⟩
      rcases pair_cases (h.field 5 2) with hlo | hlo | hlo | hlo
      · exact tabled_short .subw ho h3 (hhi hb hf) hlo
      · exact tabled_short .addw ho h3 (hhi hb hf) hlo
      · right
        exact .arith ho hfunct6 ((field_eq_append_iff (b := 0#1)).mp hlo).1
      · right
        exact .arith ho hfunct6 ((field_eq_append_iff (b := 1#1)).mp hlo).1

/-- The half-words that put a constant in the upper part of a register or move the stack pointer. -/
theorem tabled_upper (ho : h.field 0 2 = 0b01) (h3 : h.funct3 = 0b011) :
  h.Tabled
  := by
  by_cases hrd : h.rd = 2
  · have hmove : IsDisplacement 10 4 (h.stackMove.signExtend 64) := by
      unfold stackMove
      exact isDisplacement_signExtend (n := 6) (k := 4) _ (by decide)
    have hbits := (stackMove_eq_iff hmove).mp rfl
    by_cases hzero : h.stackMove.signExtend 64 = 0#64
    · right
      rw [hzero] at hbits
      exact .upper ho h3 hbits.1 hbits.2
    · apply Tabled.intro (.addi16sp (h.stackMove.signExtend 64)) ⟨hmove, hzero⟩
      exact (eq_ofCI_iff (by decide)).mpr ⟨ho, h3, hbits.1, hrd, hbits.2⟩
  · have hupper : IsDisplacement 18 12 (h.imm6 <<< 12) := by
      rw [imm6_shiftLeft]
      exact isDisplacement_signExtend (n := 6) (k := 12) _ (by decide)
    have hbits := (upper_eq_iff hupper).mp rfl
    by_cases hzero : h.imm6 <<< 12 = 0#64
    · right
      rw [hzero] at hbits
      exact .upper ho h3 hbits.1 hbits.2
    · apply Tabled.intro (.lui h.rd (h.imm6 <<< 12)) ⟨h.rd_lt, hrd, hupper, hzero⟩
      exact (eq_ofCI_iff h.rd_lt).mpr ⟨ho, h3, hbits.1, rfl, hbits.2⟩

theorem tabled_quadrant1 (ho : h.field 0 2 = 0b01) :
  h.Tabled
  := by
  have hbits := (imm6_eq_iff h.fits_imm6_low).mp rfl
  have hbranch : IsDisplacement 9 1 h.offsetB :=
    isDisplacement_signExtend (n := 8) (k := 1) _ (by decide)
  have hoffset := (offsetB_eq_iff hbranch).mp rfl
  rcases funct3_cases h.funct3 with h3 | h3 | h3 | h3 | h3 | h3 | h3 | h3
  · apply Tabled.intro (.addi h.rd h.imm6) ⟨h.rd_lt, h.fits_imm6_low⟩
    exact (eq_ofCI_iff h.rd_lt).mpr ⟨ho, h3, hbits.1, rfl, hbits.2⟩
  · by_cases hrd : h.rd = 0
    · right
      exact .addiw ho h3 hrd
    · apply Tabled.intro (.addiw h.rd h.imm6) ⟨h.rd_lt, hrd, h.fits_imm6_low⟩
      exact (eq_ofCI_iff h.rd_lt).mpr ⟨ho, h3, hbits.1, rfl, hbits.2⟩
  · apply Tabled.intro (.li h.rd h.imm6) ⟨h.rd_lt, h.fits_imm6_low⟩
    exact (eq_ofCI_iff h.rd_lt).mpr ⟨ho, h3, hbits.1, rfl, hbits.2⟩
  · exact tabled_upper ho h3
  · exact tabled_arithmetic ho h3
  · have hjump : IsDisplacement 12 1 h.offsetJ :=
      isDisplacement_signExtend (n := 11) (k := 1) _ (by decide)
    apply Tabled.intro (.j h.offsetJ) hjump
    exact eq_ofCJ_iff.mpr ⟨ho, h3, (offsetJ_eq_iff hjump).mp rfl⟩
  · apply Tabled.intro (.beqz h.shortMid h.offsetB) ⟨h.isShort_shortMid, hbranch⟩
    exact (eq_ofCB_iff h.isShort_shortMid).mpr ⟨ho, h3, hoffset.1, rfl, hoffset.2⟩
  · apply Tabled.intro (.bnez h.shortMid h.offsetB) ⟨h.isShort_shortMid, hbranch⟩
    exact (eq_ofCB_iff h.isShort_shortMid).mpr ⟨ho, h3, hoffset.1, rfl, hoffset.2⟩

theorem tabled_loadStack (item : Item) (ho : h.field 0 2 = 0b10)
    (h3 : h.funct3 = 0#1 ++ item.code) (hrd : item ≠ .float → h.rd ≠ 0) :
  h.Tabled
  := by
  have hoffset := item.isOffset_stackLoad h
  have hbits := (item.stackLoad_eq_iff hoffset).mp rfl
  apply Tabled.intro (.loadStack item h.rd (item.stackLoad h)) ⟨h.rd_lt, hrd, hoffset⟩
  exact (eq_ofCI_iff h.rd_lt).mpr ⟨ho, h3, hbits.1, rfl, hbits.2⟩

theorem tabled_storeStack (item : Item) (ho : h.field 0 2 = 0b10)
    (h3 : h.funct3 = 1#1 ++ item.code) :
  h.Tabled
  := by
  have hoffset := item.isOffset_stackStore h
  apply Tabled.intro (.storeStack item h.rs2 (item.stackStore h)) ⟨h.rs2_lt, hoffset⟩
  exact (eq_ofCSS_iff h.rs2_lt).mpr ⟨ho, h3, (item.stackStore_eq_iff hoffset).mp rfl, rfl⟩

theorem tabled_transfer (ho : h.field 0 2 = 0b10) (h3 : h.funct3 = 0b100) :
  h.Tabled
  := by
  have hfunct4 : h.field 12 4 = 0b1000 ∨ h.field 12 4 = 0b1001 := by
    rcases bit_cases (h.field 12 1) with hb | hb
    · left
      exact (field_eq_append_iff (n := 3) (m := 1) (b := 0)).mpr ⟨h3, hb⟩
    · right
      exact (field_eq_append_iff (n := 3) (m := 1) (b := 1)).mpr ⟨h3, hb⟩
  have hcr {f : BitVec 4} {rd rs2 : Nat} (hf : h.field 12 4 = f) (hrd : h.rd = rd)
      (hrs2 : h.rs2 = rs2) : h = ofCR f rd rs2 0b10 := by
    have hrd_lt := h.rd_lt
    have hrs2_lt := h.rs2_lt
    rw [hrd] at hrd_lt
    rw [hrs2] at hrs2_lt
    exact (eq_ofCR_iff hrd_lt hrs2_lt).mpr ⟨ho, hf, hrd, hrs2⟩
  by_cases hrs2 : h.rs2 = 0
  · by_cases hrd : h.rd = 0
    · rcases hfunct4 with hf | hf
      · right
        exact .jr ho hf hrd hrs2
      · exact Tabled.intro .ebreak trivial (hcr hf hrd hrs2)
    · rcases hfunct4 with hf | hf
      · exact Tabled.intro (.jr h.rd) ⟨h.rd_lt, hrd⟩ (hcr hf rfl hrs2)
      · exact Tabled.intro (.jalr h.rd) ⟨h.rd_lt, hrd⟩ (hcr hf rfl hrs2)
  · rcases hfunct4 with hf | hf
    · exact Tabled.intro (.mv h.rd h.rs2) ⟨h.rd_lt, h.rs2_lt, hrs2⟩ (hcr hf rfl rfl)
    · exact Tabled.intro (.add h.rd h.rs2) ⟨h.rd_lt, h.rs2_lt, hrs2⟩ (hcr hf rfl rfl)

theorem tabled_quadrant2 (ho : h.field 0 2 = 0b10) :
  h.Tabled
  := by
  have hamount := (amount_eq_iff h.amount_lt).mp rfl
  rcases funct3_cases h.funct3 with h3 | h3 | h3 | h3 | h3 | h3 | h3 | h3
  · apply Tabled.intro (.slli h.rd h.amount) ⟨h.rd_lt, h.amount_lt⟩
    exact (eq_ofCI_iff h.rd_lt).mpr ⟨ho, h3, hamount.1, rfl, hamount.2⟩
  · exact tabled_loadStack .float ho h3 fun hne => absurd rfl hne
  · by_cases hrd : h.rd = 0
    · right
      exact .loadStack ho (.inl h3) hrd
    · exact tabled_loadStack .word ho h3 fun _ => hrd
  · by_cases hrd : h.rd = 0
    · right
      exact .loadStack ho (.inr h3) hrd
    · exact tabled_loadStack .double ho h3 fun _ => hrd
  · exact tabled_transfer ho h3
  · exact tabled_storeStack .float ho h3
  · exact tabled_storeStack .word ho h3
  · exact tabled_storeStack .double ho h3

/-- The tables leave out no half-word but those that start a full-width encoding. -/
theorem tabled (h : Half) (short : h.field 0 2 ≠ 0b11) :
  h.Tabled
  := by
  rcases pair_cases (h.field 0 2) with ho | ho | ho | ho
  · exact tabled_quadrant0 ho
  · exact tabled_quadrant1 ho
  · exact tabled_quadrant2 ho
  · exact absurd ho short

/-! ### Decoding by the tables -/

theorem decode?_quadrant0 (ho : h.field 0 2 = 0b00) : h.decode? = h.quadrant0? := by
  rw [decode?, ho]
  rfl

theorem decode?_quadrant1 (ho : h.field 0 2 = 0b01) : h.decode? = h.quadrant1? := by
  rw [decode?, ho]
  rfl

theorem decode?_quadrant2 (ho : h.field 0 2 = 0b10) : h.decode? = h.quadrant2? := by
  rw [decode?, ho]
  rfl

theorem decode?_arithmetic (ho : h.field 0 2 = 0b01) (h3 : h.funct3 = 0b100) :
  h.decode? = h.arithmetic?
  := by
  rw [decode?_quadrant1 ho, quadrant1?, h3]
  rfl

theorem decode?_transfer {b : Bool} (ho : h.field 0 2 = 0b10)
    (h4 : h.field 12 4 = 0b100#3 ++ BitVec.ofBool b) :
  h.decode? = h.transfer? ∧ h.getLsbD 12 = b
  := by
  obtain ⟨(h3 : h.funct3 = _), hb⟩ := (field_eq_append_iff (n := 3) (m := 1)).mp h4
  rw [decode?_quadrant2 ho, quadrant2?, h3]
  exact ⟨rfl, field_eq_ofBool_iff.mp hb⟩

/-- The encoding of a compressed instruction is decoded to what it stands for. -/
theorem decode?_of_eq_encode {c : Compressed} (wellFormed : c.WellFormed) (hc : h = c.encode) :
  h.decode? = some c.expand
  := by
  cases c with
  | addi4spn rd imm =>
    obtain ⟨short, offset, hne⟩ := wellFormed
    obtain ⟨ho, h3, himm, rfl⟩ := (eq_ofCIW_iff short).mp hc
    have himm := (stackAddress_eq_iff offset).mpr himm
    rw [decode?_quadrant0 ho, quadrant0?, h3, ← himm]
    apply if_neg
    intro hzero
    rw [← himm, hzero] at hne
    exact hne rfl
  | load item rd rs1 imm =>
    obtain ⟨hrd, hrs1, offset⟩ := wellFormed
    obtain ⟨ho, h3, hhi, rfl, hlo, rfl⟩ := (eq_ofCL_iff hrs1 hrd).mp hc
    rw [decode?_quadrant0 ho, quadrant0?, h3, ← (Item.offset_eq_iff offset).mpr ⟨hhi, hlo⟩]
    cases item <;> rfl
  | store item rs1 rs2 imm =>
    obtain ⟨hrs1, hrs2, offset⟩ := wellFormed
    obtain ⟨ho, h3, hhi, rfl, hlo, rfl⟩ := (eq_ofCL_iff hrs1 hrs2).mp hc
    rw [decode?_quadrant0 ho, quadrant0?, h3, ← (Item.offset_eq_iff offset).mpr ⟨hhi, hlo⟩]
    cases item <;> rfl
  | addi rd imm | li rd imm =>
    obtain ⟨hrd, fits⟩ := wellFormed
    obtain ⟨ho, h3, hhi, rfl, hlo⟩ := (eq_ofCI_iff hrd).mp hc
    rw [decode?_quadrant1 ho, quadrant1?, h3, ← (imm6_eq_iff fits).mpr ⟨hhi, hlo⟩]
    rfl
  | addiw rd imm =>
    obtain ⟨hrd, hne, fits⟩ := wellFormed
    obtain ⟨ho, h3, hhi, rfl, hlo⟩ := (eq_ofCI_iff hrd).mp hc
    rw [decode?_quadrant1 ho, quadrant1?, h3, ← (imm6_eq_iff fits).mpr ⟨hhi, hlo⟩]
    exact if_neg hne
  | addi16sp imm =>
    obtain ⟨displacement, hne⟩ := wellFormed
    obtain ⟨ho, h3, hhi, hrd, hlo⟩ := (eq_ofCI_iff (by decide)).mp hc
    have himm := (stackMove_eq_iff displacement).mpr ⟨hhi, hlo⟩
    rw [decode?_quadrant1 ho, quadrant1?, h3, ← himm]
    change (if h.rd = 2 then _ else _) = _
    rw [if_pos hrd]
    apply if_neg
    intro hzero
    rw [← himm, hzero] at hne
    exact hne rfl
  | lui rd imm =>
    obtain ⟨hrd, hsp, displacement, hne⟩ := wellFormed
    obtain ⟨ho, h3, hhi, rfl, hlo⟩ := (eq_ofCI_iff hrd).mp hc
    have himm := (upper_eq_iff displacement).mpr ⟨hhi, hlo⟩
    rw [decode?_quadrant1 ho, quadrant1?, h3, ← himm]
    change (if h.rd = 2 then _ else _) = _
    rw [if_neg hsp]
    apply if_neg
    intro hzero
    rw [← himm, imm6, hzero] at hne
    exact hne rfl
  | srli rd amount | srai rd amount =>
    obtain ⟨short, hlt⟩ := wellFormed
    obtain ⟨ho, h3, hhi, rfl, hlo⟩ := (eq_ofCB_iff short).mp hc
    obtain ⟨hhi, (hf : h.field 10 2 = _)⟩ := (field_eq_append_iff (n := 1) (m := 2)).mp hhi
    rw [decode?_arithmetic ho h3, arithmetic?, hf, ← (amount_eq_iff hlt).mpr ⟨hhi, hlo⟩]
    rfl
  | andi rd imm =>
    obtain ⟨short, fits⟩ := wellFormed
    obtain ⟨ho, h3, hhi, rfl, hlo⟩ := (eq_ofCB_iff short).mp hc
    obtain ⟨hhi, (hf : h.field 10 2 = _)⟩ := (field_eq_append_iff (n := 1) (m := 2)).mp hhi
    rw [decode?_arithmetic ho h3, arithmetic?, hf, ← (imm6_eq_iff fits).mpr ⟨hhi, hlo⟩]
    rfl
  | arith op rd rs2 =>
    obtain ⟨hrd, hrs2⟩ := wellFormed
    obtain ⟨ho, h3, hhi, rfl, hlo, rfl⟩ := (eq_ofCL_iff hrd hrs2).mp hc
    have hbits (b : BitVec 1) (hb : op.funct.1 = b ++ 0b11#2) :
        h.field 12 1 = b ∧ h.field 10 2 = 0b11#2 :=
      (field_eq_append_iff (n := 1) (m := 2)).mp (hhi.trans hb)
    rw [decode?_arithmetic ho h3, arithmetic?]
    cases op with
    | sub | xor | or | and =>
      obtain ⟨hb, hf⟩ := hbits 0 rfl
      rw [hf, hb, hlo]
      rfl
    | subw | addw =>
      obtain ⟨hb, hf⟩ := hbits 1 rfl
      rw [hf, hb, hlo]
      rfl
  | j imm =>
    obtain ⟨ho, h3, himm⟩ := eq_ofCJ_iff.mp hc
    rw [decode?_quadrant1 ho, quadrant1?, h3, ← (offsetJ_eq_iff wellFormed).mpr himm]
    rfl
  | beqz rs1 imm | bnez rs1 imm =>
    obtain ⟨short, displacement⟩ := wellFormed
    obtain ⟨ho, h3, hhi, rfl, hlo⟩ := (eq_ofCB_iff short).mp hc
    rw [decode?_quadrant1 ho, quadrant1?, h3, ← (offsetB_eq_iff displacement).mpr ⟨hhi, hlo⟩]
    rfl
  | slli rd amount =>
    obtain ⟨hrd, hlt⟩ := wellFormed
    obtain ⟨ho, h3, hhi, rfl, hlo⟩ := (eq_ofCI_iff hrd).mp hc
    rw [decode?_quadrant2 ho, quadrant2?, h3, ← (amount_eq_iff hlt).mpr ⟨hhi, hlo⟩]
    rfl
  | loadStack item rd imm =>
    obtain ⟨hrd, hne, offset⟩ := wellFormed
    obtain ⟨ho, h3, hhi, rfl, hlo⟩ := (eq_ofCI_iff hrd).mp hc
    rw [decode?_quadrant2 ho, quadrant2?, h3, ← (Item.stackLoad_eq_iff offset).mpr ⟨hhi, hlo⟩]
    cases item with
    | float => rfl
    | word | double => exact if_neg (hne (by decide))
  | storeStack item rs2 imm =>
    obtain ⟨hrs2, offset⟩ := wellFormed
    obtain ⟨ho, h3, himm, rfl⟩ := (eq_ofCSS_iff hrs2).mp hc
    rw [decode?_quadrant2 ho, quadrant2?, h3, ← (Item.stackStore_eq_iff offset).mpr himm]
    cases item <;> rfl
  | jr rs1 =>
    obtain ⟨hrs1, hne⟩ := wellFormed
    obtain ⟨ho, h4, rfl, hrs2⟩ := (eq_ofCR_iff hrs1 (by decide)).mp hc
    obtain ⟨hdecode, hb⟩ := decode?_transfer (b := false) ho h4
    rw [hdecode, transfer?, hb, hrs2]
    exact if_pos hne
  | jalr rs1 =>
    obtain ⟨hrs1, hne⟩ := wellFormed
    obtain ⟨ho, h4, rfl, hrs2⟩ := (eq_ofCR_iff hrs1 (by decide)).mp hc
    obtain ⟨hdecode, hb⟩ := decode?_transfer (b := true) ho h4
    rw [hdecode, transfer?, hb, hrs2]
    exact if_pos hne
  | ebreak =>
    obtain ⟨ho, h4, hrd, hrs2⟩ := (eq_ofCR_iff (by decide) (by decide)).mp hc
    obtain ⟨hdecode, hb⟩ := decode?_transfer (b := true) ho h4
    rw [hdecode, transfer?, hb, hrs2, hrd]
    rfl
  | mv rd rs2 =>
    obtain ⟨hrd, hrs2, hne⟩ := wellFormed
    obtain ⟨ho, h4, rfl, rfl⟩ := (eq_ofCR_iff hrd hrs2).mp hc
    obtain ⟨hdecode, hb⟩ := decode?_transfer (b := false) ho h4
    rw [hdecode, transfer?, hb]
    exact if_pos hne
  | add rd rs2 =>
    obtain ⟨hrd, hrs2, hne⟩ := wellFormed
    obtain ⟨ho, h4, rfl, rfl⟩ := (eq_ofCR_iff hrd hrs2).mp hc
    obtain ⟨hdecode, hb⟩ := decode?_transfer (b := true) ho h4
    rw [hdecode, transfer?, hb]
    exact if_pos hne

/-- A reserved half-word is not decoded. -/
theorem Reserved.decode?_eq_none (reserved : h.Reserved) :
  h.decode? = none
  := by
  cases reserved with
  | addi4spn ho h3 himm =>
    obtain ⟨h7, (h6 : h.field 6 1 = 0), (h5 : h.field 5 1 = 0)⟩ :
        h.field 7 6 = 0 ∧ _ ∧ _ := by
      obtain ⟨h6, h5⟩ := (field_eq_append_iff (n := 7) (m := 1) (a := 0) (b := 0)).mp himm
      obtain ⟨h7, h6⟩ := (field_eq_append_iff (n := 6) (m := 1) (a := 0) (b := 0)).mp h6
      exact ⟨h7, h6, h5⟩
    obtain ⟨(h11 : h.field 11 2 = 0), (h7 : h.field 7 4 = 0)⟩ :=
      (field_eq_append_iff (n := 2) (m := 4) (a := 0) (b := 0)).mp h7
    rw [decode?_quadrant0 ho, quadrant0?, h3]
    apply if_pos
    rw [stackAddress, h7, h11, h6, h5]
    rfl
  | quadrant0 ho h3 =>
    rw [decode?_quadrant0 ho, quadrant0?, h3]
    rfl
  | addiw ho h3 hrd =>
    rw [decode?_quadrant1 ho, quadrant1?, h3]
    exact if_pos hrd
  | upper ho h3 hhi hlo =>
    rw [decode?_quadrant1 ho, quadrant1?, h3]
    change (if h.rd = 2 then _ else _) = _
    split
    case isTrue =>
      obtain ⟨h3, (h2 : h.field 2 1 = 0)⟩ :=
        (field_eq_append_iff (n := 4) (m := 1) (a := 0) (b := 0)).mp hlo
      obtain ⟨h5, (h3 : h.field 3 2 = 0)⟩ :=
        (field_eq_append_iff (n := 2) (m := 2) (a := 0) (b := 0)).mp h3
      obtain ⟨(h6 : h.field 6 1 = 0), (h5 : h.field 5 1 = 0)⟩ :=
        (field_eq_append_iff (n := 1) (m := 1) (a := 0) (b := 0)).mp h5
      apply if_pos
      rw [stackMove, hhi, h6, h5, h3, h2]
      rfl
    case isFalse =>
      apply if_pos
      rw [small, hhi, hlo]
      rfl
  | arith ho h6 h2 =>
    obtain ⟨(h3 : h.funct3 = 0b100), h10⟩ :=
      (field_eq_append_iff (n := 3) (m := 3) (a := 0b100) (b := 0b111)).mp h6
    obtain ⟨(hb : h.field 12 1 = 1), (hf : h.field 10 2 = 0b11)⟩ :=
      (field_eq_append_iff (n := 1) (m := 2) (a := 1) (b := 0b11)).mp h10
    rw [decode?_arithmetic ho h3, arithmetic?, hf, hb]
    rcases bit_cases (h.field 5 1) with h5 | h5
    · rw [show h.field 5 2 = 0b10 from
        (field_eq_append_iff (n := 1) (m := 1) (a := 1) (b := 0)).mpr ⟨h2, h5⟩]
      rfl
    · rw [show h.field 5 2 = 0b11 from
        (field_eq_append_iff (n := 1) (m := 1) (a := 1) (b := 1)).mpr ⟨h2, h5⟩]
      rfl
  | loadStack ho h3 hrd =>
    rw [decode?_quadrant2 ho, quadrant2?]
    rcases h3 with h3 | h3
    · rw [h3]
      exact if_pos hrd
    · rw [h3]
      exact if_pos hrd
  | jr ho h4 hrd hrs2 =>
    obtain ⟨hdecode, hb⟩ := decode?_transfer (b := false) ho h4
    rw [hdecode, transfer?, hb, hrs2, hrd]
    rfl

theorem decode?_eq_some_iff (short : h.field 0 2 ≠ 0b11) {i : Instr} :
  h.decode? = some i ↔ ∃ c : Compressed, c.WellFormed ∧ c.encode = h ∧ c.expand = i
  := by
  constructor
  · intro hi
    rcases h.tabled short with ⟨c, wellFormed, hc⟩ | reserved
    · rw [decode?_of_eq_encode wellFormed hc] at hi
      exact ⟨c, wellFormed, hc.symm, Option.some.inj hi⟩
    · rw [reserved.decode?_eq_none] at hi
      cases hi
  · rintro ⟨c, wellFormed, hc, rfl⟩
    exact decode?_of_eq_encode wellFormed hc.symm

theorem decode?_eq_none_iff (short : h.field 0 2 ≠ 0b11) :
  h.decode? = none ↔ h.Reserved
  := by
  constructor
  · intro hnone
    rcases h.tabled short with ⟨c, wellFormed, hc⟩ | reserved
    · rw [decode?_of_eq_encode wellFormed hc] at hnone
      cases hnone
    · exact reserved
  · exact Reserved.decode?_eq_none

end Half

/-! ### What compressed instructions stand for is well-formed -/

theorem IsShort.lt {r : Nat} (short : IsShort r) : r < 32 := Nat.lt_trans short.2 (by decide)

theorem Instr.Fits.mono {n k : Nat} {imm : Word} (fits : Fits n imm) (h : n ≤ k) :
  Fits k imm
  := by
  rw [← (fits : (imm.setWidth n).signExtend 64 = imm)]
  exact Instr.fits_signExtend _ h

theorem IsOffset.fits {n k l : Nat} {imm : Word} (offset : IsOffset n k imm) (small : n ≤ 64)
    (h : n < l) :
  Fits l imm
  := by
  rw [← (setWidth_eq_iff small offset.1).mpr rfl]
  exact Instr.fits_setWidth _ h

theorem IsDisplacement.even {n : Nat} {imm : Word} (displacement : IsDisplacement n 1 imm) :
  imm.getLsbD 0 = false
  := (field_eq_ofBool_iff (b := false)).mp displacement.2

namespace Compressed

theorem wellFormed_load {item : Item} {rd rs1 : Nat} {imm : Word} (hrd : rd < 32) (hrs1 : rs1 < 32)
    (fits : Fits 12 imm) :
  (item.load rd rs1 imm).WellFormed
  := by
  cases item <;> exact ⟨hrd, hrs1, fits⟩

theorem wellFormed_store {item : Item} {rs1 rs2 : Nat} {imm : Word} (hrs1 : rs1 < 32)
    (hrs2 : rs2 < 32) (fits : Fits 12 imm) :
  (item.store rs1 rs2 imm).WellFormed
  := by
  cases item <;> exact ⟨hrs1, hrs2, fits⟩

/-- A compressed instruction stands for a well-formed one. -/
theorem wellFormed_expand {c : Compressed} (wellFormed : c.WellFormed) :
  c.expand.WellFormed
  := by
  have hscale (item : Item) : item.scale ≤ 3 := by cases item <;> decide
  cases c with
  | addi4spn rd imm =>
    obtain ⟨hrd, offset, -⟩ := wellFormed
    exact ⟨hrd.lt, by decide, rfl, offset.fits (by decide) (by decide)⟩
  | load item rd rs1 imm =>
    obtain ⟨hrd, hrs1, offset⟩ := wellFormed
    have := hscale item
    exact wellFormed_load hrd.lt hrs1.lt (offset.fits (by omega) (by omega))
  | store item rs1 rs2 imm =>
    obtain ⟨hrs1, hrs2, offset⟩ := wellFormed
    have := hscale item
    exact wellFormed_store hrs1.lt hrs2.lt (offset.fits (by omega) (by omega))
  | addi rd imm =>
    obtain ⟨hrd, fits⟩ := wellFormed
    exact ⟨hrd, hrd, rfl, fits.mono (by decide)⟩
  | li rd imm =>
    obtain ⟨hrd, fits⟩ := wellFormed
    exact ⟨hrd, by decide, rfl, fits.mono (by decide)⟩
  | addiw rd imm =>
    obtain ⟨hrd, -, fits⟩ := wellFormed
    exact ⟨hrd, hrd, .inl rfl, fits.mono (by decide)⟩
  | addi16sp imm =>
    obtain ⟨displacement, -⟩ := wellFormed
    exact ⟨by decide, by decide, rfl, displacement.1.mono (by decide)⟩
  | lui rd imm =>
    obtain ⟨hrd, -, displacement, -⟩ := wellFormed
    exact ⟨hrd, displacement.1.mono (by decide), displacement.2⟩
  | srli rd amount | srai rd amount =>
    obtain ⟨hrd, hlt⟩ := wellFormed
    exact ⟨hrd.lt, hrd.lt, rfl, hlt⟩
  | andi rd imm =>
    obtain ⟨hrd, fits⟩ := wellFormed
    exact ⟨hrd.lt, hrd.lt, rfl, fits.mono (by decide)⟩
  | arith op rd rs2 =>
    obtain ⟨hrd, hrs2⟩ := wellFormed
    cases op with
    | sub | xor | or | and => exact ⟨hrd.lt, hrd.lt, hrs2.lt⟩
    | subw | addw => exact ⟨hrd.lt, hrd.lt, hrs2.lt, rfl⟩
  | j imm => exact ⟨by decide, wellFormed.1.mono (by decide), IsDisplacement.even wellFormed⟩
  | beqz rs1 imm | bnez rs1 imm =>
    obtain ⟨hrs1, displacement⟩ := wellFormed
    exact ⟨hrs1.lt, by decide, displacement.1.mono (by decide), displacement.even⟩
  | slli rd amount =>
    obtain ⟨hrd, hlt⟩ := wellFormed
    exact ⟨hrd, hrd, rfl, hlt⟩
  | loadStack item rd imm =>
    obtain ⟨hrd, -, offset⟩ := wellFormed
    have := hscale item
    exact wellFormed_load hrd (by decide) (offset.fits (by omega) (by omega))
  | jr rs1 | jalr rs1 => exact ⟨by decide, wellFormed.1, by decide⟩
  | mv rd rs2 => exact ⟨wellFormed.1, by decide, wellFormed.2.1⟩
  | ebreak => trivial
  | add rd rs2 => exact ⟨wellFormed.1, wellFormed.1, wellFormed.2.1⟩
  | storeStack item rs2 imm =>
    obtain ⟨hrs2, offset⟩ := wellFormed
    have := hscale item
    exact wellFormed_store (by decide) hrs2 (offset.fits (by omega) (by omega))

end Compressed

/-! ### Words -/

namespace Encoding

theorem field_low (w : Encoding) : w.low.field 0 2 = w.field 0 2 :=
  BitVec.extractLsb'_setWidth_of_le (by decide)

theorem isFull_low_iff {w : Encoding} :
  w.low.isFull ↔ w.field 0 2 = 0b11
  := by
  rw [Half.isFull, beq_iff_eq, field_low]
  rfl

/-- The opcodes of full-width encodings end in `11`. -/
theorem isFull_of_decode? {w : Encoding} {i : Instr} (h : w.decode? = some i) :
  w.low.isFull
  := by
  have hopcode : w.opcode.extractLsb' 0 2 = 0b11 := by
    unfold decode? at h
    split at h
    case h_22 => cases h
    all_goals
      rename_i ho
      rw [ho]
      rfl
  rw [isFull_low_iff, ← hopcode]
  exact (BitVec.extractLsb'_extractLsb'_of_le (by decide)).symm

end Encoding

/-- Decoding is the inverse of encoding.  A well-formed instruction is decoded from its encoding.  A
word that ends in `11` is decoded to a well-formed instruction whose encoding is the word, up to what
fences ignore, or not at all.  Of any other word only the low half counts: it is decoded to what the
compressed instruction with that encoding stands for, or it is reserved and reported. -/
theorem decode_inverts_encode (pc : Word) :
  (∀ i : Instr, i.WellFormed → decode i.encode pc = .ok (i, 4)) ∧
    (∀ (w : Encoding) (i : Instr) (n : Nat), w.field 0 2 = 0b11 → decode w pc = .ok (i, n) →
      n = 4 ∧ i.WellFormed ∧ (i.encode = w ∨ i.isFence ∧ i.encode = w.withoutIgnored)) ∧
    ∀ w : Encoding, w.field 0 2 ≠ 0b11 →
      (∀ (i : Instr) (n : Nat), decode w pc = .ok (i, n) ↔
        n = 2 ∧ i.WellFormed ∧
          ∃ c : Compressed, c.WellFormed ∧ c.encode = w.low ∧ c.expand = i) ∧
      (∀ e, decode w pc = .error e ↔ w.low.Reserved ∧ e = ⟨w.low.setWidth 32, pc⟩) ∧
      ∀ w' : Encoding, w'.low = w.low → decode w' pc = decode w pc
  := by
  refine ⟨?_, ?_, ?_⟩
  · intro i wellFormed
    have hi := Encoding.decode?_of_eq_encode wellFormed rfl
    rw [decode, if_pos (Encoding.isFull_of_decode? hi), hi]
  · intro w i n full h
    rw [decode, if_pos (Encoding.isFull_low_iff.mpr full)] at h
    split at h
    case h_1 hi =>
      cases h
      exact ⟨rfl, Encoding.yields_of_decode? hi⟩
    case h_2 => cases h
  · intro w short
    have hfull : ¬w.low.isFull := fun full => short (Encoding.isFull_low_iff.mp full)
    rw [← w.field_low] at short
    refine ⟨?_, ?_, ?_⟩
    · intro i n
      rw [decode, if_neg hfull]
      constructor
      · intro h
        split at h
        case h_1 hi =>
          cases h
          obtain ⟨c, wellFormed, hc, rfl⟩ := (Half.decode?_eq_some_iff short).mp hi
          exact ⟨rfl, Compressed.wellFormed_expand wellFormed, c, wellFormed, hc, rfl⟩
        case h_2 => cases h
      · rintro ⟨rfl, -, hc⟩
        rw [(Half.decode?_eq_some_iff short).mpr hc]
    · intro e
      rw [decode, if_neg hfull]
      constructor
      · intro h
        split at h
        case h_1 => cases h
        case h_2 hnone =>
          cases h
          exact ⟨(Half.decode?_eq_none_iff short).mp hnone, rfl⟩
      · rintro ⟨reserved, rfl⟩
        rw [reserved.decode?_eq_none]
    · intro w' hlow
      rw [decode, decode, hlow, if_neg hfull, if_neg hfull]

/-- A load, whose encoding is decoded to it; and a short addition under a half-word that does not
count. -/
theorem decode_inverts_encode_of_load :
  decode (Instr.load .lw 5 6 (-8)).encode 0x1000 = .ok (.load .lw 5 6 (-8), 4) ∧
    decode 0x12340515 0x1000 = .ok (.opImm .add 10 10 5, 2)
  := by
  obtain ⟨hfull, -, hshort⟩ := decode_inverts_encode 0x1000
  constructor
  · apply hfull
    exact ⟨by decide, by decide, by decide⟩
  · apply ((hshort 0x12340515 (by decide)).1 _ _).mpr
    refine ⟨rfl, ⟨by decide, by decide, rfl, by decide⟩, .addi 10 5, ⟨by decide, by decide⟩, ?_, rfl⟩
    decide

end CrossHart.Isa
