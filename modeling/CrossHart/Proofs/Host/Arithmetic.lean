import CrossHart.Proofs.Host.Calls

/-!
# Arithmetic code

The host's arithmetic computes what the guest's does: comparisons by the flags of a subtraction,
operations on 64 bits directly, and those on 32 bits with a sign extension afterwards.  The code of
an arithmetic instruction leaves its result in `rax`, whatever form the code has.
-/

namespace CrossHart.Host

open Isa Processor Assignment

/-! ### Comparisons -/

theorem Cond.holds_jl (x y : Word) :
  Cond.jl.holds (.ofDifference x y) = x.slt y
  := by
  have hx := x.toInt_lt
  have hx' := x.le_toInt
  have hy := y.toInt_lt
  have hy' := y.le_toInt
  simp only [Cond.holds, Flags.ofDifference, Flags.ofResult, BitVec.msb_eq_toInt,
    BitVec.ssubOverflow, BitVec.slt, BitVec.toInt_sub, Int.bmod_def]
  generalize x.toInt = i at *
  generalize y.toInt = j at *
  rw [Bool.eq_iff_iff]
  by_cases hover : i - j ≥ 2 ^ (64 - 1)
  · simp only [hover, decide_true, Bool.true_or, bne_iff_ne, ne_eq, decide_eq_true_eq]
    omega
  by_cases hunder : i - j < -2 ^ (64 - 1)
  · simp only [hunder, decide_true, Bool.or_true, bne_iff_ne, ne_eq, decide_eq_true_eq]
    omega
  · simp only [hover, hunder, decide_false, Bool.or_false, bne_iff_ne, ne_eq, Bool.not_eq_false,
      decide_eq_true_eq]
    omega

theorem Cond.holds_je (x y : Word) :
  Cond.je.holds (.ofDifference x y) = (x == y)
  := by
  rw [Cond.holds, Flags.ofDifference, Flags.ofResult, Bool.eq_iff_iff, beq_iff_eq, beq_iff_eq]
  bv_omega

/-- A branch is taken by the flags of the difference of its operands. -/
theorem Cond.holds_ofBranch (op : BranchOp) (x y : Word) :
  (Cond.ofBranch op).holds (.ofDifference x y) = op.taken x y
  := by
  have hl := Cond.holds_jl x y
  have he := Cond.holds_je x y
  cases op with
  | beq => exact he
  | bne => exact congrArg not he
  | blt => exact hl
  | bge =>
    rw [BranchOp.taken, ← hl]
    show (_ == _) = !(_ != _)
    rw [bne, Bool.not_not]
  | bltu => rfl
  | bgeu => rfl

/-! ### Results -/

/-- The result of an arithmetic instruction of 64 bits, or of 32 if it is `low`. -/
def outcome (low : Bool) (op : AluOp) (x y : Word) : Word :=
  if low then op.eval32 x y else op.eval x y

/-- A word from which the result of an operation is had by extending its low half if it is `low`. -/
def Agrees (low : Bool) (op : AluOp) (x y w : Word) : Prop :=
  if low then w.setWidth 32 = op.evalLow x y else w = op.eval x y

/-- The value of an operand. -/
def Compile.Source.value (g : Guest) : Source → Word
  | .reg r => g.value r
  | .imm v => v

/-- A register that exists, or an immediate that extends 32 bits with their sign. -/
def Compile.Source.IsProper : Source → Prop
  | .reg r => r < 32
  | .imm v => (v.setWidth 32).signExtend 64 = v

/-- Sums, differences and operations on bits. -/
theorem arithReg_eq (p : Processor) {op : AluOp} (low : Bool) (dst : Reg) (y : Word)
    (h : op = .add ∨ op = .sub ∨ op = .xor ∨ op = .or ∨ op = .and) :
  ∃ w f, p.arithReg (Compile.arithOp op) (!low) dst y = (p.setReg dst w).withFlags f ∧
    Agrees low op (p.reg dst) y w
  := by
  cases low with
  | false =>
    obtain rfl | rfl | rfl | rfl | rfl := h <;> exact ⟨_, _, rfl, rfl⟩
  | true =>
    obtain rfl | rfl | rfl | rfl | rfl := h
    all_goals
      refine ⟨_, _, rfl, ?_⟩
      simp [Agrees, AluOp.evalLow, AluOp.eval]

/-- Shifts. -/
theorem shifted_agrees {op : AluOp} (low : Bool) (x y : Word) {amount : Nat}
    (h : op = .sll ∨ op = .srl ∨ op = .sra)
    (hamount : amount % (if low then 32 else 64) = y.toNat % (if low then 32 else 64)) :
  Agrees low op x y (if !low then shifted (Compile.shiftOp op) (!low) x amount
    else ((shifted (Compile.shiftOp op) (!low) x amount).setWidth 32).setWidth 64)
  := by
  cases low with
  | false =>
    simp only [Bool.false_eq_true, if_false] at hamount
    obtain rfl | rfl | rfl := h
    all_goals simp [Agrees, shifted, Compile.shiftOp, Shift.eval, AluOp.eval, hamount]
  | true =>
    simp only [if_true] at hamount
    have hlow : (y.setWidth 32).toNat % 32 = amount % 32 := by
      rw [BitVec.toNat_setWidth, hamount]
      omega
    have hcut (v : BitVec 32) : (((v.setWidth 64).setWidth 32).setWidth 64).setWidth 32 = v := by
      simp
    obtain rfl | rfl | rfl := h
    all_goals
      refine (hcut _).trans ?_
      simp only [Compile.shiftOp, Shift.eval, AluOp.evalLow, hlow]
      rfl

/-- A shift by nothing needs no instruction. -/
theorem agrees_of_shift_zero {op : AluOp} (low : Bool) (x y : Word)
    (h : op = .sll ∨ op = .srl ∨ op = .sra) (hzero : y.toNat % (if low then 32 else 64) = 0) :
  Agrees low op x y x
  := by
  cases low with
  | false =>
    simp only [Bool.false_eq_true, if_false] at hzero
    obtain rfl | rfl | rfl := h
    all_goals simp [Agrees, AluOp.eval, hzero]
  | true =>
    have hlow : (y.setWidth 32).toNat % 32 = 0 := by
      simp only [if_true] at hzero
      rw [BitVec.toNat_setWidth]
      omega
    obtain rfl | rfl | rfl := h
    all_goals
      rw [Agrees, if_pos rfl, AluOp.evalLow, hlow]
      simp

/-- The result of a comparison is the same in both widths. -/
theorem outcome_comparison {op : AluOp} (low : Bool) (x y : Word) {c : Bool}
    (h : op.eval x y = Word.ofBool c) (hop : op = .slt ∨ op = .sltu) :
  outcome low op x y = Word.ofBool c
  := by
  cases low with
  | false => exact h
  | true =>
    have hlow : op.evalLow x y = (Word.ofBool c).setWidth 32 := by
      obtain rfl | rfl := hop <;> exact congrArg (BitVec.setWidth 32) h
    rw [outcome, if_pos rfl, AluOp.eval32, hlow]
    cases c <;> rfl

/-- A register that was read into differs from other scratch registers. -/
theorem IsScratch.ne_of_read {r r' t : Reg} (scratch : IsScratch t) (ne : r ≠ t)
    (h : r' = r ∨ ∃ s, r' = slotReg s) :
  r' ≠ t
  := by
  obtain rfl | ⟨s, rfl⟩ := h
  · exact ne
  · exact (scratch.2 s).symm

namespace Compile.Computes

variable {env : Environment} {a : Assignment} {g : Guest} {P : Processor → Prop} {op : AluOp}
  {low : Bool} {x y : Word}

/-- The result from a word whose low half may still have to be extended. -/
theorem extendIf :
  Computes env a (fun p => ∃ w, Agrees low op x y w ∧ Holds env a g [(.rax, w)] p)
    (Compile.extendIf low) (fun _ b => a = b)
    (fun _ _ => Holds env a g [(.rax, outcome low op x y)])
  := by
  cases low with
  | false =>
    apply pure () rfl
    rintro p ⟨w, hw, hp⟩
    rw [Agrees, if_neg (by simp)] at hw
    subst hw
    exact hp
  | true =>
    apply set (by decide) Framed.nil
    rintro p ⟨w, hw, hp⟩
    rw [Agrees, if_pos rfl] at hw
    refine ⟨hp.nil, p.flags, ?_⟩
    rw [outcome, if_pos rfl, AluOp.eval32, ← hw, ← hp.head]
    rfl

/-- An instruction that leaves such a word in `rax`. -/
theorem extended {i : Instr} (h : ∀ p, P p → Holds env a g [] p ∧
      ∃ w f, execute env i.normal p = .ok ((p.setReg .rax w).withFlags f) ∧ Agrees low op x y w) :
  Computes env a P (Compile.instr i >>= fun _ => Compile.extendIf low) (fun _ b => a = b)
    (fun _ _ => Holds env a g [(.rax, outcome low op x y)])
  := by
  refine (instr (Q := fun q => ∃ w, Agrees low op x y w ∧ Holds env a g [(.rax, w)] q) ?_).bind ?_
  · intro p hp
    obtain ⟨hholds, w, f, hexec, hw⟩ := h p hp
    exact ⟨_, hexec, w, hw, hholds.setReg (by decide) Framed.nil w f⟩
  · rintro _ _ rfl
    exact extendIf

/-- The bit that a condition on a difference leaves. -/
theorem setcc {c : Cond} {v : Bool} {i : Instr}
    (compare : ∀ p, Holds env a g [(.rax, 0)] p ∧ P p → ∃ f,
      execute env i.normal p = .ok (p.withFlags (some f)) ∧ c.holds f = v) :
  Computes env a (fun p => Holds env a g [(.rax, 0)] p ∧ P p)
    (Compile.instr i >>= fun _ => Compile.instr (.setcc c .rax)) (fun _ b => a = b)
    (fun _ _ => Holds env a g [(.rax, Word.ofBool v)])
  := by
  refine (instr (Q := fun q => Holds env a g [(.rax, 0)] q ∧
    ∃ f, q.flags = some f ∧ c.holds f = v) ?_).bind ?_
  · intro p hp
    obtain ⟨f, hexec, hf⟩ := compare p hp
    exact ⟨_, hexec, hp.1.withFlags _, f, rfl, hf⟩
  · rintro _ _ rfl
    apply set (by decide) Framed.nil
    rintro p ⟨hp, f, hflags, hf⟩
    refine ⟨hp.nil, p.flags, ?_⟩
    have hknown : p.knownFlags = .ok f := by rw [knownFlags, hflags]
    have hbits : (0 : Word) &&& ~~~0xff ||| Word.ofBool v = Word.ofBool v := by cases v <;> rfl
    rw [Instr.normal, execute, hknown, Except.ok_bind, hf, hp.head]
    · dsimp only
      rw [hbits]
      rfl
    · simp

/-- The conditions of comparisons. -/
theorem holds_comparison (hop : op = .slt ∨ op = .sltu) (x y : Word) :
  Word.ofBool ((if op = .slt then Cond.jl else .jb).holds (.ofDifference x y)) =
    outcome low op x y
  := by
  obtain rfl | rfl := hop
  · exact (outcome_comparison low x y (by rw [if_pos rfl, Cond.holds_jl]; rfl) (.inl rfl)).symm
  · exact (outcome_comparison low x y rfl (.inr rfl)).symm

variable {rs1 : Nat} {b : Source}

theorem compare (wf : a.WellFormed) (room : a.pins + 2 ≤ slotCount) (hop : op = .slt ∨ op = .sltu)
    (lt : rs1 < 32) (proper : b.IsProper) :
  Computes env a (Holds env a g []) (Compile.compare op rs1 b) (fun _ b' => Grown 2 a b')
    (fun _ b' => Holds env b' g [(.rax, outcome low op (g.value rs1) (b.value g))])
  := by
  rw [← holds_comparison hop]
  refine (read (r := .rdx) wf (by omega) lt (by decide) Framed.nil).bind ?_
  rintro r₁ a₁ ⟨hgrown₁, hkeeps₁, hr₁⟩
  have hne₁ {t : Reg} (scratch : IsScratch t) (h : Reg.rdx ≠ t) : r₁ ≠ t := scratch.ne_of_read h hr₁
  cases b with
  | reg rs2 =>
    have := hgrown₁.pins
    refine (read (r := .rcx) hgrown₁.wellFormed (by omega) proper (by decide)
      (Framed.nil.cons hkeeps₁ (hne₁ (by decide) (by decide)))).bind ?_
    rintro r₂ a₂ ⟨hgrown₂, hkeeps₂, hr₂⟩
    have hne₂ : r₂ ≠ .rax := IsScratch.ne_of_read (by decide) (by decide) hr₂
    refine (movImm (w := 0) (by decide) ((Framed.nil.cons (hgrown₂.keeps _ hkeeps₁)
      (hne₁ (by decide) (by decide))).cons hkeeps₂ hne₂) false rfl).bind ?_
    rintro _ _ rfl
    refine (settled (setcc (P := Holds env a₂ g [(r₂, g.value rs2), (r₁, g.value rs1)]) ?_)
      (hgrown₁.trans hgrown₂)).pre ?_
    · rintro p ⟨-, hp⟩
      refine ⟨.ofDifference (g.value rs1) (g.value rs2), ?_, rfl⟩
      rw [← hp.head, ← hp.tail.head]
      rfl
    · intro p hp
      exact ⟨hp.nil.cons hp.head, hp.tail⟩
  | imm v =>
    refine (movImm (w := 0) (by decide) (Framed.nil.cons hkeeps₁ (hne₁ (by decide) (by decide)))
      false rfl).bind ?_
    rintro _ _ rfl
    refine (settled (setcc (P := Holds env a₁ g [(r₁, g.value rs1)]) ?_)
      (hgrown₁.mono (Nat.le_succ 1))).pre ?_
    · rintro p ⟨-, hp⟩
      refine ⟨.ofDifference (g.value rs1) v, ?_, rfl⟩
      rw [Instr.normal, execute, arithReg, hp.head,
        show (v.setWidth 32).signExtend 64 = v from proper]
      · rfl
      · simp
    · intro p hp
      exact ⟨hp.nil.cons hp.head, hp.tail⟩

/-- The service for arithmetic is told the operation by its code. -/
theorem service_code (op : AluOp) (low : Bool) (x y : Word) (g : Guest) :
  Hart.Service.arith
    (((BitVec.ofNat 64 (op.code + if low then 256 else 0)).setWidth 32).setWidth 64) x y g =
      .ok (⟨outcome low op x y, false⟩, g)
  := by
  cases op <;> cases low <;> rfl

theorem callArith :
  Computes env a
    (Holds env a g
      [(.rsi, ((BitVec.ofNat 64 (op.code + if low then 256 else 0)).setWidth 32).setWidth 64),
        (.rcx, y), (.rdx, x)])
    (Compile.call env.services.arith) (fun _ b => a = b)
    (fun _ _ => Holds env a g [(.rax, outcome low op x y)])
  := by
  refine ⟨(), a, callCode env.services.arith, ?_, rfl, ?_⟩
  · rintro d rfl
    exact on_call _ d
  · intro p hp
    have hcall := exec_call env.services.arith hp.represents.base
    rw [service_arith hp.distinct, hp.head, hp.tail.head, hp.tail.tail.head, service_code] at hcall
    obtain ⟨q, hrun, hret⟩ := hcall
    have hholds : Holds env a g [] q :=
      ⟨hp.distinct, hp.represents.returned hret, fun _ hf => (nomatch hf)⟩
    exact ⟨q, hrun, hholds.cons hret.value⟩

/-- Reading the first operand into `rax` and the second one from where it is. -/
theorem operands {rs2 : Nat} {f : Reg → Compile Unit} {F : Assignment → Processor → Prop}
    (wf : a.WellFormed) (room : a.pins + 2 ≤ slotCount) (lt : rs1 < 32) (lt' : rs2 < 32)
    (h : ∀ r b, Computes env b (Holds env b g [(r, g.value rs2), (.rax, g.value rs1)]) (f r)
      (fun _ b' => b = b') (fun _ _ => F b)) :
  Computes env a (Holds env a g [])
    (Compile.readInto rs1 .rax >>= fun _ => Compile.read rs2 .rcx >>= f)
    (fun _ b' => Grown 2 a b') (fun _ => F)
  := by
  refine (readInto wf (by omega) lt (by decide) Framed.nil).bind ?_
  intro _ a₁ hgrown₁
  have := hgrown₁.pins
  refine (read hgrown₁.wellFormed (by omega) lt' (by decide)
    (Framed.nil.cons (IsScratch.keeps (by decide) _) (by decide))).bind ?_
  rintro r a₂ ⟨hgrown₂, -, -⟩
  exact settled (h r a₂) (hgrown₁.trans hgrown₂)

/-- The upper half of a product. -/
theorem upper {signed : Bool} {r : Reg} :
  Computes env a (Holds env a g [(r, y), (.rax, x)])
    (Compile.instr (if signed then .imul true r else .mul true r) >>= fun _ =>
      Compile.instr (.mov true .rax .rdx)) (fun _ b => a = b)
    (fun _ _ => Holds env a g [(.rax, outcome false (if signed then .mulh else .mulhu) x y)])
  := by
  refine (instr (Q := Holds env a g
    [(.rdx, outcome false (if signed then .mulh else .mulhu) x y)]) ?_).bind ?_
  · intro p hp
    refine ⟨p.multiply signed true r, by cases signed <;> rfl, ?_⟩
    have hrep := (hp.represents.setReg (r := .rdx) (by decide)
      (product signed true (p.reg .rax) (p.reg r)).1).setReg (r := .rax) (by decide)
      (product signed true (p.reg .rax) (p.reg r)).2
    have hholds : Holds env a g [] (p.multiply signed true r) :=
      ⟨hp.distinct, hrep.withFlags none, fun _ hf => (nomatch hf)⟩
    apply hholds.cons
    rw [← hp.head, ← hp.tail.head]
    refine ((p.setReg .rdx _).reg_setReg_of_ne (by decide) _).trans ((p.reg_setReg_self _ _).trans ?_)
    cases signed <;> rfl
  · rintro _ _ rfl
    apply set (by decide) Framed.nil
    intro p hp
    refine ⟨hp.nil, p.flags, ?_⟩
    rw [← hp.head]
    rfl

/-- Arithmetic code leaves the result of the instruction in `rax`. -/
theorem arithCode {code : Compile Unit} (h : ArithCode env.services op rs1 b low code)
    (wf : a.WellFormed) (room : a.pins + 2 ≤ slotCount) (lt : rs1 < 32) (proper : b.IsProper) :
  Computes env a (Holds env a g []) code (fun _ b' => Grown 2 a b')
    (fun _ b' => Holds env b' g [(.rax, outcome low op (g.value rs1) (b.value g))])
  := by
  cases h with
  | compare hop => exact compare wf room hop lt proper
  | service rs2 hb =>
    subst hb
    refine (readInto wf (by omega) lt (by decide) Framed.nil).bind ?_
    intro _ a₁ hgrown₁
    have := hgrown₁.pins
    refine (readInto hgrown₁.wellFormed (by omega) proper (by decide)
      (Framed.nil.cons (IsScratch.keeps (by decide) _) (by decide))).bind ?_
    intro _ a₂ hgrown₂
    refine (movImm (by decide) ((Framed.nil.cons (IsScratch.keeps (by decide) _) (by decide)).cons
      (IsScratch.keeps (by decide) _) (by decide)) false rfl).bind ?_
    rintro _ _ rfl
    exact settled callArith (hgrown₁.trans hgrown₂)
  | imm v hb =>
    obtain ⟨rfl, hop⟩ := hb
    refine (readInto wf (by omega) lt (by decide) Framed.nil).bind ?_
    intro _ a₁ hgrown₁
    have hgrown := hgrown₁.mono (Nat.le_succ 1)
    dsimp only
    split
    · refine settled (extended ?_) hgrown
      intro p hp
      refine ⟨hp.nil, ?_⟩
      obtain ⟨w, f, hreg, hw⟩ := arithReg_eq p low .rax v (hop.imp_right .inr)
      rw [hp.head] at hw
      refine ⟨w, f, ?_, hw⟩
      rw [← hreg, Instr.normal, execute, show (v.setWidth 32).signExtend 64 = v from proper]
      simp
    case isFalse hv =>
      rw [not_or, ne_eq, not_not] at hv
      obtain ⟨rfl, hand⟩ := hv
      refine (settled extendIf hgrown).pre ?_
      intro p hp
      refine ⟨_, ?_, hp⟩
      obtain rfl | rfl | rfl | rfl := hop
      · cases low <;> simp [Agrees, AluOp.evalLow, AluOp.eval, Source.value]
      · cases low <;> simp [Agrees, AluOp.evalLow, AluOp.eval, Source.value]
      · cases low <;> simp [Agrees, AluOp.evalLow, AluOp.eval, Source.value]
      · exact False.elim (hand rfl)
  | shiftImm v hb =>
    obtain ⟨rfl, hop⟩ := hb
    refine (readInto wf (by omega) lt (by decide) Framed.nil).bind ?_
    intro _ a₁ hgrown₁
    have hgrown := hgrown₁.mono (Nat.le_succ 1)
    dsimp only
    by_cases hzero : v.toNat % (if low then 32 else 64) = 0
    · rw [if_neg (not_not_intro hzero)]
      refine (settled extendIf hgrown).pre ?_
      intro p hp
      exact ⟨_, agrees_of_shift_zero low _ v hop hzero, hp⟩
    · rw [if_pos hzero]
      refine settled (extended ?_) hgrown
      intro p hp
      refine ⟨hp.nil, _, none, rfl, ?_⟩
      rw [hp.head]
      apply shifted_agrees low _ _ hop
      rw [BitVec.toNat_ofNat, Source.value]
      cases low <;> simp only [Bool.false_eq_true, if_false, if_true] <;> omega
  | shift rs2 hb =>
    obtain ⟨rfl, hop⟩ := hb
    refine (readInto wf (by omega) lt (by decide) Framed.nil).bind ?_
    intro _ a₁ hgrown₁
    have := hgrown₁.pins
    refine (readInto hgrown₁.wellFormed (by omega) proper (by decide)
      (Framed.nil.cons (IsScratch.keeps (by decide) _) (by decide))).bind ?_
    intro _ a₂ hgrown₂
    refine settled (extended ?_) (hgrown₁.trans hgrown₂)
    intro p hp
    refine ⟨hp.nil, _, none, rfl, ?_⟩
    rw [hp.head, hp.tail.head]
    apply shifted_agrees low _ _ hop
    rw [Source.value]
    cases low <;> simp only [Bool.false_eq_true, if_false, if_true] <;> omega
  | two rs2 hb =>
    obtain ⟨rfl, hop⟩ := hb
    apply operands wf room lt proper
    intro r a₂
    apply extended
    intro p hp
    refine ⟨hp.nil, ?_⟩
    obtain ⟨w, f, hreg, hw⟩ := arithReg_eq p low .rax (p.reg r) hop
    rw [hp.head, hp.tail.head] at hw
    exact ⟨w, f, congrArg Except.ok hreg, hw⟩
  | product rs2 hb =>
    obtain ⟨rfl, rfl⟩ := hb
    apply operands wf room lt proper
    intro r a₂
    apply extended
    intro p hp
    refine ⟨hp.nil, _, none, rfl, ?_⟩
    rw [hp.head, hp.tail.head]
    cases low with
    | false => rfl
    | true => simp [Agrees, AluOp.evalLow, Source.value, BitVec.setWidth_mul]
  | upper rs2 signed hb hlow =>
    obtain ⟨rfl, rfl⟩ := hb
    subst hlow
    apply operands wf room lt proper
    intro r a₂
    exact upper

end Compile.Computes

end CrossHart.Host
