import CrossHart.Host.Processor
import CrossHart.Proofs.Hart.Registers
import CrossHart.Proofs.Host.Encoding
import CrossHart.Proofs.Outcome

/-!
# The processor and the state of the hart

What instructions do to the registers of the processor, and what reading and writing memory does to
the state of the hart when `rbp` points to it.
-/

namespace CrossHart.Host

theorem Reg.code_injective {r r' : Reg} (h : r.code = r'.code) :
  r = r'
  := by
  rw [← Reg.ofCode_code r, h, Reg.ofCode_code]

namespace Processor

variable {env : Environment} {p : Processor}

theorem reg_setReg (p : Processor) (r r' : Reg) (v : Word) :
  (p.setReg r v).reg r' = if r = r' then v else p.reg r'
  := by
  simp only [reg, setReg, Fin.getElem_fin, Vector.getElem_set]
  by_cases h : r = r'
  · rw [if_pos h, if_pos (by rw [h])]
  · rw [if_neg h, if_neg]
    intro hcode
    exact h (Reg.code_injective (Fin.ext hcode))

@[simp]
theorem reg_setReg_self (p : Processor) (r : Reg) (v : Word) :
  (p.setReg r v).reg r = v
  := by
  rw [reg_setReg, if_pos rfl]

theorem reg_setReg_of_ne (p : Processor) {r r' : Reg} (h : r ≠ r') (v : Word) :
  (p.setReg r v).reg r' = p.reg r'
  := by
  rw [reg_setReg, if_neg h]

theorem setReg_setReg (p : Processor) (r : Reg) (v w : Word) :
  (p.setReg r v).setReg r w = p.setReg r w
  := by
  simp [setReg]

@[simp]
theorem guest_setReg (p : Processor) (r : Reg) (v : Word) :
  (p.setReg r v).guest = p.guest
  := rfl

@[simp]
theorem guest_setResult (p : Processor) (wide : Bool) (r : Reg) (v : Word) :
  (p.setResult wide r v).guest = p.guest
  := rfl

/-- The processor with its guest changed. -/
def withGuest (p : Processor) (guest : Guest) : Processor :=
  { p with guest }

@[simp]
theorem reg_withGuest (p : Processor) (g : Guest) (r : Reg) :
  (p.withGuest g).reg r = p.reg r
  := rfl

@[simp]
theorem guest_withGuest (p : Processor) (g : Guest) :
  (p.withGuest g).guest = g
  := rfl

/-- The processor with its flags changed. -/
def withFlags (p : Processor) (flags : Option Flags) : Processor :=
  { p with flags }

@[simp]
theorem reg_withFlags (p : Processor) (f : Option Flags) (r : Reg) :
  (p.withFlags f).reg r = p.reg r
  := rfl

@[simp]
theorem guest_withFlags (p : Processor) (f : Option Flags) :
  (p.withFlags f).guest = p.guest
  := rfl

/-- Setting a register to a constant.  A shorter instruction for zero changes the flags. -/
theorem execute_movImm (env : Environment) (p : Processor) (wide : Bool) (r : Reg) (v : Word) :
  ∃ f, execute env (Instr.movImm wide r v).normal p =
    .ok ((p.setReg r (if wide then v else (v.setWidth 32).setWidth 64)).withFlags f)
  := by
  rw [Instr.normal]
  split
  case isTrue hzero =>
    subst hzero
    refine ⟨some (.ofBits 0#32), ?_⟩
    rw [execute, arithReg]
    simp only [arith, Bool.false_eq_true, if_false, Arith.eval, Option.map_some, setResult,
      BitVec.xor_self]
    cases wide <;> rfl
  case isFalse =>
    split
    case isTrue hsmall =>
      refine ⟨p.flags, ?_⟩
      have hv : (if false = true then (v.setWidth 32).setWidth 64
            else (((v.setWidth 32).setWidth 64).setWidth 32).setWidth 64) =
          if wide then v else (v.setWidth 32).setWidth 64 := by
        obtain hwide | hlt := hsmall
        · simp only [Bool.not_eq_true'] at hwide
          subst hwide
          simp
        · have : (v.setWidth 32).setWidth 64 = v := by
            apply BitVec.eq_of_toNat_eq
            rw [BitVec.toNat_setWidth, BitVec.toNat_setWidth]
            omega
          simp only [this, Bool.false_eq_true, ite_self]
      rw [execute, setResult, hv]
      rfl
    case isFalse hlarge =>
      have hwide : wide = true := by
        cases wide
        · exact False.elim (hlarge (.inl rfl))
        · rfl
      subst hwide
      exact ⟨p.flags, rfl⟩

/-! ### The state of the hart -/

theorem stateOffset_eq (base : p.reg stateReg = env.state) (off : BitVec 32) :
  p.stateOffset env stateReg off = (off.signExtend 64).toNat
  := by
  rw [stateOffset, base, BitVec.add_comm, BitVec.add_sub_cancel]

theorem toNat_regOffset (i : Fin 32) :
  ((regOffset i).signExtend 64).toNat = 8 * i
  := by
  revert i
  decide

theorem execute_load (base : p.reg stateReg = env.state) (i : Fin 32) (r : Reg) :
  execute env (.load true r stateReg (regOffset i)) p = .ok (p.setReg r (p.guest.file.get i))
  := by
  have hlt : 8 * i.val / 8 < 32 := by omega
  have hread : p.readMemory env stateReg (regOffset i) = .ok (p.guest.file.get i) := by
    rw [readMemory, stateOffset_eq base, toNat_regOffset, readState, if_neg (by omega), dif_pos hlt]
    simp only [Nat.mul_div_cancel_left _ (Nat.zero_lt_succ 7)]
    rfl
  rw [execute, if_pos rfl, hread]
  rfl

theorem writeMemory_eq (base : p.reg stateReg = env.state) (off : BitVec 32) (v : Word) :
  p.writeMemory env stateReg off v =
    (writeState p.guest.hart (off.signExtend 64).toNat v).map fun hart =>
      p.withGuest { p.guest with hart }
  := by
  rw [← stateOffset_eq base]
  obtain ⟨regs, flags, position, hart, memory⟩ := p
  unfold writeMemory
  dsimp only
  cases writeState hart _ v <;> rfl

theorem execute_store (base : p.reg stateReg = env.state) (i : Fin 32) (r : Reg) :
  execute env (.store true r stateReg (regOffset i)) p =
    .ok (p.withGuest (p.guest.withFile (p.guest.file.set i (p.reg r))))
  := by
  have hlt : 8 * i.val / 8 < 32 := by omega
  rw [execute, if_pos rfl, writeMemory_eq base, toNat_regOffset, writeState, if_neg (by omega),
    dif_pos hlt]
  simp only [Nat.mul_div_cancel_left _ (Nat.zero_lt_succ 7)]
  rfl

theorem execute_store_pc (base : p.reg stateReg = env.state) (r : Reg) :
  execute env (.store true r stateReg pcOffset) p =
    .ok (p.withGuest (p.guest.goto (p.reg r)))
  := by
  rw [execute, if_pos rfl, writeMemory_eq base]
  rfl

theorem execute_storeImm_pc (base : p.reg stateReg = env.state) (imm : BitVec 32) :
  execute env (.storeImm true stateReg pcOffset imm) p =
    .ok (p.withGuest (p.guest.goto (imm.signExtend 64)))
  := by
  rw [execute, if_pos rfl, writeMemory_eq base]
  rfl

/-- Adding to the budget, or subtracting from it. -/
theorem execute_budget (base : p.reg stateReg = env.state) {op : Arith} {imm : BitVec 32}
    {v : Word} {f : Flags}
    (h : op.eval p.guest.hart.budget (imm.signExtend 64) = (some v, f)) :
  execute env (.arithMem op true stateReg budgetOffset imm) p =
    .ok ((p.withFlags (some f)).withGuest (p.guest.withBudget v))
  := by
  have hread : p.readMemory env stateReg budgetOffset = .ok p.guest.hart.budget := by
    rw [readMemory, stateOffset_eq base]
    rfl
  rw [execute, if_pos rfl, hread, Except.ok_bind]
  simp only [arith, if_true, h]
  have base' : (p.withFlags (some f)).reg stateReg = env.state := base
  exact (writeMemory_eq base' budgetOffset v).trans rfl

end Processor

end CrossHart.Host
