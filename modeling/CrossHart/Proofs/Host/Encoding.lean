import CrossHart.Host.Decode
import CrossHart.Proofs.Bytes
import Mathlib.Data.List.Basic

/-!
# Host instructions read back

The bytes of an instruction are read back as an instruction that does the same.  For most
instructions it is the instruction itself.  A constant is put into a register by the shortest of
several instructions, which is then the one that is read: `Instr.normal`.
-/

namespace CrossHart.Host

/-! ### Readers -/

namespace Reader

variable {α β : Type}

@[simp]
theorem bind_apply (x : Reader α) (f : α → Reader β) (s : List UInt8) :
  (x >>= f) s = (x s).bind fun r => f r.1 r.2
  := rfl

@[simp]
theorem pure_apply (a : α) (s : List UInt8) :
  (pure a : Reader α) s = some (a, s)
  := rfl

@[simp]
theorem map_apply (f : α → β) (x : Reader α) (s : List UInt8) :
  (f <$> x) s = (x s).bind fun r => some (f r.1, r.2)
  := rfl

@[simp]
theorem lift_apply (o : Option α) (s : List UInt8) :
  (StateT.lift o : Reader α) s = o.bind fun a => some (a, s)
  := rfl

@[simp]
theorem byte_cons (b : UInt8) (s : List UInt8) :
  byte (b :: s) = some (b.toNat, s)
  := rfl

theorem bytes_littleEndian (n v : Nat) (s : List UInt8) :
  bytes n (Bytes.littleEndian n v ++ s) = some (v % 256 ^ n, s)
  := by
  have hlen := Bytes.length_littleEndian n v
  rw [bytes, if_pos (by rw [List.length_append, hlen]; omega), List.take_left' hlen,
    List.drop_left' hlen, Bytes.ofLittleEndian_littleEndian]

@[simp]
theorem field32_append (v : BitVec 32) (s : List UInt8) :
  field32 (Host.field32 v ++ s) = some (v, s)
  := by
  have hlt : v.toNat < 256 ^ 4 := v.isLt
  rw [field32, bind_apply, Host.field32, bytes_littleEndian, Nat.mod_eq_of_lt hlt]
  simp

@[simp]
theorem field8_append {v : BitVec 32} (fits : fitsByte v = true) (s : List UInt8) :
  field8 (Host.field8 v ++ s) = some (v, s)
  := by
  simp only [fitsByte, beq_iff_eq] at fits
  have hv : BitVec.ofNat 8 (UInt8.ofNat v.toNat).toNat = v.setWidth 8 := by
    apply BitVec.eq_of_toNat_eq
    simp
  rw [field8, Host.field8, Bytes.littleEndian, Bytes.littleEndian, bind_apply, List.singleton_append,
    byte_cons, Option.bind_some, pure_apply, hv, fits]

end Reader

/-! ### Registers and operands -/

/-- A register is found by the two parts of its number. -/
@[simp]
theorem regOf_code (r : Reg) :
  regOf (decide (8 ≤ r.code.val)) (r.code.val % 8) = r
  := by cases r <;> rfl

theorem regOf_mod (high : Bool) (low : Nat) :
  regOf high (low % 8) = regOf high low
  := by rw [regOf, regOf, Nat.mod_mod]

theorem regOf_low3 (r : Reg) (base : Nat) (h : base % 8 = 0) :
  regOf (decide (8 ≤ r.code.val)) (base + r.low3) = r
  := by
  rw [← regOf_mod, Nat.add_mod, h, Nat.zero_add, Nat.mod_mod, Reg.low3, Nat.mod_mod, regOf_code]

/-- The three parts of an operand byte. -/
theorem toNat_operandByte (mode r rm : Nat) (hmode : mode < 4) :
  (operandByte mode r rm).toNat = 64 * mode + 8 * (r % 8) + rm % 8
  := by
  rw [operandByte, UInt8.toNat_ofNat']
  omega

theorem readOperand_cons (p : Prefixes) (b : UInt8) (s : List UInt8) :
  readOperand p (b :: s) =
    if b.toNat / 64 = 3 then some ((b.toNat / 8 % 8, .reg (regOf p.rm (b.toNat % 8))), s)
    else
      (readBase p (b.toNat / 64) (b.toNat % 8) s).bind fun x =>
        (readOffset (b.toNat / 64) x.2).bind fun y =>
          some ((b.toNat / 8 % 8, .memory x.1 y.1), y.2)
  := by
  rw [readOperand, Reader.bind_apply, Reader.byte_cons, Option.bind_some]
  split
  · rfl
  · rfl

@[simp]
theorem readOperand_reg (p : Prefixes) (r rm : Nat) (s : List UInt8) :
  readOperand p (operandByte 3 r rm :: s) = some ((r % 8, .reg (regOf p.rm (rm % 8))), s)
  := by
  have h := toNat_operandByte 3 r rm (by decide)
  rw [readOperand_cons, if_pos (by omega), show (operandByte 3 r rm).toNat / 8 % 8 = r % 8 by omega,
    show (operandByte 3 r rm).toNat % 8 = rm % 8 by omega]

/-- The base of a memory operand is read back, given the high bit of its number. -/
theorem readBase_low3 (p : Prefixes) (mode : Nat) (base : Reg) (s : List UInt8)
    (hindex : p.index = false) (hrm : p.rm = decide (8 ≤ base.code.val))
    (hmode : ¬ (mode = 0 ∧ base.low3 = 5)) :
  readBase p mode base.low3 ((if base.low3 = 4 then [0x24] else []) ++ s) = some (base, s)
  := by
  have hbase : regOf p.rm base.low3 = base := by
    rw [hrm, Reg.low3, regOf_code]
  by_cases h4 : base.low3 = 4
  · have hsecond : regOf p.rm 4 = base := by rw [← h4, hbase]
    simp [readBase, h4, hindex, hsecond]
  · simp [readBase, h4, hmode, hbase]

/-- A memory operand in one of the three modes is read back. -/
theorem readOperand_mode (p : Prefixes) (mode r : Nat) (base : Reg) (off : BitVec 32)
    (offset s : List UInt8) (hindex : p.index = false)
    (hrm : p.rm = decide (8 ≤ base.code.val)) (hmode : mode < 3)
    (hzero : ¬ (mode = 0 ∧ base.low3 = 5)) (hoff : readOffset mode (offset ++ s) = some (off, s)) :
  readOperand p (operandByte mode r base.low3 ::
      ((if base.low3 = 4 then [0x24] else []) ++ offset) ++ s) =
    some ((r % 8, .memory base off), s)
  := by
  have hlow : base.low3 < 8 := Nat.mod_lt _ (by decide)
  have h := toNat_operandByte mode r base.low3 (by omega)
  rw [List.cons_append, readOperand_cons, if_neg (by omega),
    show (operandByte mode r base.low3).toNat / 64 = mode by omega,
    show (operandByte mode r base.low3).toNat / 8 % 8 = r % 8 by omega,
    show (operandByte mode r base.low3).toNat % 8 = base.low3 by omega,
    List.append_assoc, readBase_low3 p mode base _ hindex hrm hzero, Option.bind_some, hoff]
  rfl

/-- A memory operand is read back, given the high bit of its base. -/
@[simp]
theorem readOperand_memory (p : Prefixes) (r : Nat) (base : Reg) (off : BitVec 32) (s : List UInt8)
    (hindex : p.index = false) (hrm : p.rm = decide (8 ≤ base.code.val)) :
  readOperand p (memoryOperand r base off ++ s) = some ((r % 8, .memory base off), s)
  := by
  unfold memoryOperand
  by_cases h0 : off = 0 ∧ base.low3 ≠ 5
  · obtain ⟨rfl, h5⟩ := h0
    rw [if_pos ⟨rfl, h5⟩]
    apply readOperand_mode p 0 r base 0 [] s hindex hrm (by decide) (by omega) rfl
  · rw [if_neg h0]
    by_cases hfits : fitsByte off = true
    · rw [if_pos hfits]
      apply readOperand_mode p 1 r base off (field8 off) s hindex hrm (by decide) (by omega)
      apply Reader.field8_append hfits
    · rw [if_neg hfits]
      apply readOperand_mode p 2 r base off (field32 off) s hindex hrm (by decide) (by omega)
      apply Reader.field32_append

/-! ### Prefixes and opcodes -/

/-- The rest of an instruction with a given opcode, in one of the two tables. -/
def readRest (o : Opcode) (p : Prefixes) (size : Nat) : Reader Instr :=
  if o.escaped then readSecond p size o.byte else readFirst p size o.byte

/-- The opcodes that are not taken for prefixes. -/
def Opcode.IsPlain (o : Opcode) : Prop :=
  o.byte < 256 ∧ (o.escaped = true ∨ (o.byte ≠ 0x66 ∧ o.byte / 16 ≠ 4 ∧ o.byte ≠ 0x0f))

instance (o : Opcode) : Decidable o.IsPlain :=
  inferInstanceAs (Decidable (_ ∧ _))

/-- What is said by the prefixes of an opcode for operands with the given register numbers. -/
structure Prefixes.Fit (p : Prefixes) (o : Opcode) (r rm : Nat) : Prop where
  wide : p.wide = o.wide
  index : p.index = false
  highR : p.r = decide (8 ≤ r)
  highRm : p.rm = decide (8 ≤ rm)
  byteOperand : o.byteOperand = true → 4 ≤ rm → p.present = true

theorem readInstr_rex (wide r rm : Bool) (s : List UInt8) :
  readInstr (UInt8.ofNat (0x40 + Opcode.rex wide r rm) :: s) =
    readOpcode ⟨true, wide, r, false, rm⟩ 1 s
  := by cases wide <;> cases r <;> cases rm <;> rfl

theorem readInstr_noPrefix {b : Nat} (hb : b < 256) (h66 : b ≠ 0x66) (h4 : b / 16 ≠ 4)
    (s : List UInt8) :
  readInstr (UInt8.ofNat b :: s) = readOpcode {} 0 (UInt8.ofNat b :: s)
  := by
  have hnat : (UInt8.ofNat b).toNat = b := by
    rw [UInt8.toNat_ofNat']
    omega
  have h66' : UInt8.ofNat b ≠ 0x66 := by
    intro h
    rw [h] at hnat
    exact h66 hnat.symm
  rw [readInstr, if_neg h66', hnat, Prefixes.ofByte?, if_neg h4]

theorem readOpcode_opcode (o : Opcode) (plain : o.IsPlain) (p : Prefixes) (size : Nat)
    (s : List UInt8) :
  readOpcode p size ((if o.escaped then [0x0f] else []) ++ UInt8.ofNat o.byte :: s) =
    readRest o p size s
  := by
  obtain ⟨hbyte, hplain⟩ := plain
  have hb : (UInt8.ofNat o.byte).toNat = o.byte := by
    rw [UInt8.toNat_ofNat']
    omega
  unfold readRest
  cases he : o.escaped with
  | true => simp [readOpcode, hb]
  | false =>
    obtain ⟨-, -, h0f⟩ := hplain.resolve_left (by simp [he])
    simp [readOpcode, hb, h0f]

theorem Opcode.rex_eq_zero {wide r rm : Bool} (h : Opcode.rex wide r rm = 0) :
  wide = false ∧ r = false ∧ rm = false
  := by cases wide <;> cases r <;> cases rm <;> simp_all [Opcode.rex]

/-- The prefixes and the opcode at the front of an instruction are read back. -/
theorem readInstr_opcode (o : Opcode) (plain : o.IsPlain) (r rm : Nat) (s : List UInt8) :
  ∃ p size, Prefixes.Fit p o r rm ∧ readInstr (o.bytes r rm ++ s) = readRest o p size s
  := by
  simp only [Opcode.bytes, List.append_assoc, List.singleton_append]
  by_cases hrex : Opcode.rex o.wide (8 ≤ r) (8 ≤ rm) ≠ 0 ∨ (o.byteOperand = true ∧ 4 ≤ rm)
  · use ⟨true, o.wide, decide (8 ≤ r), false, decide (8 ≤ rm)⟩, 1
    constructor
    · exact ⟨rfl, rfl, rfl, rfl, fun _ _ => rfl⟩
    · rw [if_pos hrex, List.singleton_append, readInstr_rex]
      apply readOpcode_opcode o plain
  · have hnone := Decidable.not_not.mp (not_or.mp hrex).1
    obtain ⟨hwide, hr, hrm⟩ := Opcode.rex_eq_zero hnone
    use {}, 0
    constructor
    · refine ⟨hwide.symm, rfl, hr.symm, hrm.symm, ?_⟩
      intro hbyte h4
      exact absurd (.inr ⟨hbyte, h4⟩) hrex
    · rw [if_neg hrex, List.nil_append, ← readOpcode_opcode o plain]
      obtain ⟨hbyte, hplain⟩ := plain
      cases he : o.escaped with
      | true => rfl
      | false =>
        obtain ⟨h66, h4, -⟩ := hplain.resolve_left (by simp [he])
        apply readInstr_noPrefix hbyte h66 h4

/-! ### Instructions -/

@[simp]
theorem readRegs_cons (p : Prefixes) (r rm : Nat) (s : List UInt8) :
  readRegs p (operandByte 3 r rm :: s) = some ((regOf p.r (r % 8), regOf p.rm (rm % 8)), s)
  := by
  rw [readRegs, Reader.bind_apply, readOperand_reg]
  rfl

@[simp]
theorem readReg_cons (p : Prefixes) (digit rm : Nat) (s : List UInt8) :
  readReg p (operandByte 3 digit rm :: s) = some ((digit % 8, regOf p.rm (rm % 8)), s)
  := by
  rw [readReg, Reader.bind_apply, readOperand_reg]
  rfl

/-- An instruction on two registers is read back if the rest of it is. -/
theorem readInstr_onRegs {o : Opcode} {r rm : Reg} {i : Instr} {s : List UInt8} (plain : o.IsPlain)
    (rest : ∀ p size, Prefixes.Fit p o r.code rm.code →
      readRest o p size (operandByte 3 r.code rm.code :: s) = some (i, s)) :
  readInstr (onRegs o r rm ++ s) = some (i, s)
  := by
  obtain ⟨p, size, fit, h⟩ := readInstr_opcode o plain r.code rm.code
    (operandByte 3 r.code rm.code :: s)
  rw [onRegs, List.append_assoc, List.singleton_append, h]
  apply rest p size fit

/-- An instruction on one register is read back if the rest of it is. -/
theorem readInstr_onReg {o : Opcode} {digit : Nat} {rm : Reg} {i : Instr} {imm s : List UInt8}
    (plain : o.IsPlain)
    (rest : ∀ p size, Prefixes.Fit p o digit rm.code →
      readRest o p size (operandByte 3 digit rm.code :: imm ++ s) = some (i, s)) :
  readInstr (onReg o digit rm ++ imm ++ s) = some (i, s)
  := by
  obtain ⟨p, size, fit, h⟩ := readInstr_opcode o plain digit rm.code
    (operandByte 3 digit rm.code :: imm ++ s)
  rw [onReg, List.append_assoc, List.append_assoc, List.singleton_append, ← List.cons_append, h]
  apply rest p size fit

/-- An instruction on memory is read back if the rest of it is. -/
theorem readInstr_onMemory {o : Opcode} {r : Nat} {base : Reg} {off : BitVec 32} {i : Instr}
    {imm s : List UInt8} (plain : o.IsPlain)
    (rest : ∀ p size, Prefixes.Fit p o r base.code →
      readRest o p size (memoryOperand r base off ++ (imm ++ s)) = some (i, s)) :
  readInstr (onMemory o r base off ++ imm ++ s) = some (i, s)
  := by
  obtain ⟨p, size, fit, h⟩ := readInstr_opcode o plain r base.code
    (memoryOperand r base off ++ (imm ++ s))
  rw [onMemory, List.append_assoc, List.append_assoc, h]
  apply rest p size fit

/-- The instruction as which an instruction is read back. -/
def Instr.normal : Instr → Instr
  | .movImm wide dst value =>
    if value = 0 then .arith .xor false dst dst
    else if !wide ∨ value.toNat < 0x100000000 then
      .movImm false dst ((value.setWidth 32).setWidth 64)
    else .movImm true dst value
  | i => i

/-- The instructions whose bytes are read back; only those that do nothing have a limited size. -/
def Instr.IsReadable : Instr → Prop
  | .nop size => 0 < size ∧ size ≤ 8
  | _ => True

theorem readInstr_arith (op : Arith) (wide : Bool) (dst src : Reg) (s : List UInt8) :
  readInstr ((Instr.arith op wide dst src).encode ++ s) = some (.arith op wide dst src, s)
  := by
  apply readInstr_onRegs
  · cases op <;> simp [Opcode.IsPlain, Arith.code]
  · intro p size fit
    have hr := fit.highR
    have hrm := fit.highRm
    have hw := fit.wide
    cases op <;> simp [readRest, readFirst, Arith.code, Arith.ofCode?, hr, hrm, hw]

theorem readInstr_withImm_reg (op : Arith) (wide : Bool) (dst : Reg) (imm : BitVec 32)
    (s : List UInt8) :
  readInstr ((Instr.arithImm op wide dst imm).encode ++ s) = some (.arithImm op wide dst imm, s)
  := by
  have hcode : op.code % 8 = op.code := by cases op <;> rfl
  simp only [Instr.encode, Instr.withImm]
  by_cases hfits : fitsByte imm = true
  · rw [if_pos hfits]
    apply readInstr_onReg (by cases wide <;> decide)
    intro p size fit
    simp [readRest, readFirst, readArithImm, hcode, hfits, fit.highRm, fit.wide]
  · rw [if_neg hfits]
    apply readInstr_onReg (by cases wide <;> decide)
    intro p size fit
    simp [readRest, readFirst, readArithImm, hcode, fit.highRm, fit.wide]

theorem readInstr_withImm_memory (op : Arith) (wide : Bool) (base : Reg) (off imm : BitVec 32)
    (s : List UInt8) :
  readInstr ((Instr.arithMem op wide base off imm).encode ++ s) =
    some (.arithMem op wide base off imm, s)
  := by
  have hcode : op.code % 8 = op.code := by cases op <;> rfl
  simp only [Instr.encode, Instr.withImm]
  by_cases hfits : fitsByte imm = true
  · rw [if_pos hfits]
    apply readInstr_onMemory (by cases wide <;> decide)
    intro p size fit
    simp [readRest, readFirst, readArithImm, hcode, hfits, fit.index, fit.highRm, fit.wide]
  · rw [if_neg hfits]
    apply readInstr_onMemory (by cases wide <;> decide)
    intro p size fit
    simp [readRest, readFirst, readArithImm, hcode, fit.index, fit.highRm, fit.wide]

/-- The instructions on one register without an immediate. -/
theorem readInstr_single {o : Opcode} {digit : Nat} {rm : Reg} {i : Instr} {s : List UInt8}
    (plain : o.IsPlain)
    (rest : ∀ p size, Prefixes.Fit p o digit rm.code →
      readRest o p size (operandByte 3 digit rm.code :: s) = some (i, s)) :
  readInstr (onReg o digit rm ++ s) = some (i, s)
  := by
  rw [← List.append_nil (onReg o digit rm)]
  apply readInstr_onReg plain
  intro p size fit
  rw [List.singleton_append]
  apply rest p size fit

theorem readInstr_shift (op : Shift) (wide : Bool) (dst : Reg) (amount : BitVec 8)
    (s : List UInt8) :
  readInstr ((Instr.shift op wide dst amount).encode ++ s) = some (.shift op wide dst amount, s)
  := by
  have hcode : op.code % 8 = op.code := by cases op <;> rfl
  simp only [Instr.encode]
  by_cases h1 : amount = 1
  · subst h1
    rw [if_pos rfl]
    apply readInstr_single (by cases wide <;> decide)
    intro p size fit
    simp [readRest, readFirst, readShift, hcode, fit.highRm, fit.wide]
  · rw [if_neg h1]
    apply readInstr_onReg (by cases wide <;> decide)
    intro p size fit
    simp only [readRest, Bool.false_eq_true, if_false, List.cons_append, List.nil_append]
    simp [readFirst, readShift, hcode, fit.highRm, fit.wide]

theorem readInstr_setcc (c : Cond) (dst : Reg) (s : List UInt8) :
  readInstr ((Instr.setcc c dst).encode ++ s) = some (.setcc c dst, s)
  := by
  apply readInstr_single
  · cases c <;> simp [Opcode.IsPlain, Cond.code]
  · intro p size fit
    have hpresent : p.present = true ∨ dst.code.val < 4 := by
      by_cases h4 : 4 ≤ dst.code.val
      · exact .inl (fit.byteOperand rfl h4)
      · exact .inr (by omega)
    have hcond : Cond.ofCode (0x90 + c.code) = c := by cases c <;> rfl
    have hcode : (0x90 + c.code) / 16 = 9 := by cases c <;> rfl
    simp [readRest, readSecond, hcode, hcond, fit.highRm, hpresent]

/-- An instruction whose opcode names its register is read back if the rest of it is. -/
theorem readInstr_short {o : Opcode} {rm : Reg} {i : Instr} {imm s : List UInt8}
    (plain : o.IsPlain)
    (rest : ∀ p size, Prefixes.Fit p o 0 rm.code → readRest o p size (imm ++ s) = some (i, s)) :
  readInstr (o.bytes 0 rm.code ++ imm ++ s) = some (i, s)
  := by
  obtain ⟨p, size, fit, h⟩ := readInstr_opcode o plain 0 rm.code (imm ++ s)
  rw [List.append_assoc, h]
  apply rest p size fit

/-- Of the instructions that put a constant into a register, the one that is made is read. -/
theorem readInstr_movImm (wide : Bool) (dst : Reg) (value : Word) (s : List UInt8) :
  readInstr ((Instr.movImm wide dst value).encode ++ s) =
    some ((Instr.movImm wide dst value).normal, s)
  := by
  have hlow : dst.low3 < 8 := Nat.mod_lt _ (by decide)
  have hdst := regOf_low3 dst 0xb8 rfl
  simp only [Instr.encode, Instr.encodeMovImm, Instr.normal]
  by_cases h0 : value = 0
  · rw [if_pos h0, if_pos h0]
    apply readInstr_onRegs (by decide)
    intro p size fit
    simp [readRest, readFirst, Arith.ofCode?, fit.highR, fit.highRm, fit.wide]
  rw [if_neg h0, if_neg h0]
  by_cases hshort : (!wide) = true ∨ value.toNat < 0x100000000
  · rw [if_pos hshort, if_pos hshort]
    generalize value.setWidth 32 = low
    apply readInstr_short (by simp only [Opcode.IsPlain]; omega)
    intro p size fit
    have hbytes := Reader.bytes_littleEndian 4 low.toNat s
    have hlt : low.toNat < 256 ^ 4 := low.isLt
    rw [Nat.mod_eq_of_lt hlt] at hbytes
    simp only [readRest, readFirst, field32]
    rw [if_neg (by simp), if_neg (by omega), if_neg (by omega), if_neg (by omega),
      if_neg (by omega), if_pos (by omega)]
    simp [fit.wide, fit.highRm, hdst, hbytes]
  rw [if_neg hshort, if_neg hshort]
  by_cases hsigned : (value.setWidth 32).signExtend 64 = value
  · rw [if_pos hsigned]
    apply readInstr_onReg (by decide)
    intro p size fit
    simp [readRest, readFirst, readMoveImm, fit.highRm, fit.wide, hsigned]
  · rw [if_neg hsigned]
    apply readInstr_short (by simp only [Opcode.IsPlain]; omega)
    intro p size fit
    have hbytes := Reader.bytes_littleEndian 8 value.toNat s
    have hlt : value.toNat < 256 ^ 8 := value.isLt
    rw [Nat.mod_eq_of_lt hlt] at hbytes
    simp only [readRest, readFirst, Bytes.ofWord]
    rw [if_neg (by simp), if_neg (by omega), if_neg (by omega), if_neg (by omega),
      if_neg (by omega), if_pos (by omega)]
    simp [fit.wide, fit.highRm, hdst, hbytes]

theorem readInstr_nop {size : Nat} (pos : 0 < size) (le : size ≤ 8) (s : List UInt8) :
  readInstr ((Instr.nop size).encode ++ s) = some (.nop size, s)
  := by
  have hsize : size = 1 ∨ size = 2 ∨ size = 3 ∨ size = 4 ∨ size = 5 ∨ size = 6 ∨ size = 7 ∨
      size = 8 := by omega
  rcases hsize with rfl | rfl | rfl | rfl | rfl | rfl | rfl | rfl
  all_goals
    simp [Instr.encode, nopBytes, readInstr, readShort, Prefixes.ofByte?, readOpcode, readFirst,
      readSecond, nopOperandSize]

/-- The bytes of an instruction are read back as an instruction that does the same. -/
theorem readInstr_encode (i : Instr) (readable : i.IsReadable) (s : List UInt8) :
  readInstr (i.encode ++ s) = some (i.normal, s)
  := by
  cases i with
  | arith op wide dst src => apply readInstr_arith
  | arithImm op wide dst imm => apply readInstr_withImm_reg
  | arithMem op wide base off imm => apply readInstr_withImm_memory
  | shift op wide dst amount => apply readInstr_shift
  | shiftCl op wide dst =>
    have hcode : op.code % 8 = op.code := by cases op <;> rfl
    apply readInstr_single (by cases wide <;> decide)
    intro p size fit
    simp [readRest, readFirst, hcode, fit.highRm, fit.wide, Instr.normal]
  | mul wide src =>
    apply readInstr_single (by cases wide <;> decide)
    intro p size fit
    simp [readRest, readFirst, fit.highRm, fit.wide, Instr.normal]
  | imul wide src =>
    apply readInstr_single (by cases wide <;> decide)
    intro p size fit
    simp [readRest, readFirst, fit.highRm, fit.wide, Instr.normal]
  | imulLow wide dst src =>
    apply readInstr_onRegs (by cases wide <;> decide)
    intro p size fit
    simp [readRest, readSecond, fit.highR, fit.highRm, fit.wide, Instr.normal]
  | test wide a b =>
    apply readInstr_onRegs (by cases wide <;> decide)
    intro p size fit
    simp [readRest, readFirst, fit.highR, fit.highRm, fit.wide, Instr.normal]
  | setcc c dst => apply readInstr_setcc
  | mov wide dst src =>
    apply readInstr_onRegs (by cases wide <;> decide)
    intro p size fit
    simp [readRest, readFirst, readMove, fit.highR, fit.highRm, fit.wide, Instr.normal]
  | movImm wide dst value => apply readInstr_movImm
  | movslq dst src =>
    apply readInstr_onRegs (by decide)
    intro p size fit
    simp [readRest, readFirst, fit.highR, fit.highRm, fit.wide, Instr.normal]
  | load wide dst base off =>
    rw [← List.append_nil (Instr.encode _)]
    apply readInstr_onMemory (by cases wide <;> decide)
    intro p size fit
    simp [readRest, readFirst, readMove, fit.highR, fit.highRm, fit.index, fit.wide, Instr.normal]
  | store wide src base off =>
    rw [← List.append_nil (Instr.encode _)]
    apply readInstr_onMemory (by cases wide <;> decide)
    intro p size fit
    simp [readRest, readFirst, readMove, fit.highR, fit.highRm, fit.index, fit.wide, Instr.normal]
  | storeImm wide base off imm =>
    apply readInstr_onMemory (by cases wide <;> decide)
    intro p size fit
    simp [readRest, readFirst, readMoveImm, fit.highRm, fit.index, fit.wide, Instr.normal]
  | jmp disp =>
    have h := Reader.field32_append disp s
    simp [Instr.encode, readInstr, Prefixes.ofByte?, readOpcode, readFirst, h, Instr.normal]
  | jcc c disp =>
    obtain ⟨p, size, -, h⟩ := readInstr_opcode { byte := 0x80 + c.code, escaped := true }
      (by cases c <;> decide) 0 0 (field32 disp ++ s)
    have hcond : Cond.ofCode (0x80 + c.code) = c := by cases c <;> rfl
    have hcode : (0x80 + c.code) / 16 = 8 := by cases c <;> rfl
    rw [Instr.encode, List.append_assoc, h]
    simp [readRest, readSecond, hcode, hcond, Instr.normal]
  | jmpReg r =>
    apply readInstr_single (by decide)
    intro p size fit
    simp [readRest, readFirst, fit.highRm, Instr.normal]
  | callReg r =>
    apply readInstr_single (by decide)
    intro p size fit
    simp [readRest, readFirst, fit.highRm, Instr.normal]
  | push r =>
    have hlow : r.low3 < 8 := Nat.mod_lt _ (by decide)
    have hr := regOf_low3 r 0x50 rfl
    rw [← List.append_nil (Instr.encode _)]
    apply readInstr_short (by simp only [Opcode.IsPlain]; omega)
    intro p size fit
    simp only [readRest, readFirst]
    rw [if_neg (by simp), if_neg (by omega), if_neg (by omega), if_pos (by omega), fit.highRm, hr]
    rfl
  | pop r =>
    have hlow : r.low3 < 8 := Nat.mod_lt _ (by decide)
    have hr := regOf_low3 r 0x58 rfl
    rw [← List.append_nil (Instr.encode _)]
    apply readInstr_short (by simp only [Opcode.IsPlain]; omega)
    intro p size fit
    simp only [readRest, readFirst]
    rw [if_neg (by simp), if_neg (by omega), if_neg (by omega), if_neg (by omega), if_pos (by omega), fit.highRm, hr]
    rfl
  | ret => simp [Instr.encode, readInstr, Prefixes.ofByte?, readOpcode, readFirst, Instr.normal]
  | nop size =>
    obtain ⟨pos, le⟩ := readable
    apply readInstr_nop pos le

/-- The instruction at the front of bytes that start with it, and its length. -/
theorem Instr.decode?_encode (i : Instr) (readable : i.IsReadable) (s : List UInt8) :
  Instr.decode? (i.encode ++ s) = some (i.normal, i.size)
  := by
  have hsize : (i.encode ++ s).length - s.length = i.size := by
    rw [List.length_append, Nat.add_sub_cancel, Instr.size]
  rw [Instr.decode?, readInstr_encode i readable, ← hsize]

end CrossHart.Host
