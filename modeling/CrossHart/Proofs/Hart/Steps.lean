import CrossHart.Proofs.Formation
import CrossHart.Proofs.Hart.Charged
import CrossHart.Proofs.Memory.Plain

/-!
# Single steps through instructions

What whole instructions do to related guests, and to a guest whose memory is plain: there they do not
crash, keep the account of instructions, and change bytes only where the policy lets them write.  Steps
through the instructions of a block find the program counter at each instruction.
-/

namespace CrossHart

open CrossHart.Action Isa

/-! ### Related guests -/

/-- Related harts agree on what instructions read, and stay related by what instructions write, the
program counter too. -/
structure Hart.IsFullCongruence (H : Hart → Hart → Prop) : Prop extends Hart.IsCongruence H where
  goto : ∀ h k pc, H h k →
    H { h with regs := { h.regs with pc } } { k with regs := { k.regs with pc } }

namespace Hart

section

variable {H : Hart → Hart → Prop} {M : Memory → Memory → Prop}

theorem respects_setPc {ε : Type}
    (hgoto : ∀ h k pc, H h k →
      H { h with regs := { h.regs with pc } } { k with regs := { k.regs with pc } }) (pc : Word) :
  Respects (Guest.Rel H M) (Guest.setPc pc : Action Guest ε Unit)
  := by
  apply Respects.change
  rintro g g' h
  exact .inr ⟨_, _, rfl, rfl, hgoto _ _ pc h.1, h.2⟩

/-- An instruction does the same to related guests, if their counts agree where it reads one. -/
theorem respects_step_of (hc : Hart.IsPartialCongruence H)
    (hgoto : ∀ h k pc, H h k →
      H { h with regs := { h.regs with pc } } { k with regs := { k.regs with pc } })
    (hm : Memory.IsCongruence M) (d : Located)
    (count : d.instr.readsCounter = true → ∀ h k, H h k → h.instret = k.instret) :
  Respects (Guest.Rel H M) (step d)
  := by
  have hreg (i : Nat) : Respects (Guest.Rel H M) (Guest.reg i : Effect Word) :=
    Guest.respects_reg hc i
  have hset (i : Nat) (v : Word) : Respects (Guest.Rel H M) (Guest.setReg i v : Effect Unit) :=
    Guest.respects_setReg hc i v
  have hnext (pc : Word) : Respects (Guest.Rel H M) (goto pc) :=
    (respects_setPc hgoto pc).bind fun _ => .pure _
  cases hends : d.instr.endsBlock with
  | false =>
    rw [step_eq_effect hends]
    exact (respects_effect_of hc hm d count).bind fun _ => hnext d.next
  | true =>
    unfold step
    cases hinstr : d.instr with
    | jal rd imm => exact (hset rd _).bind fun _ => hnext _
    | jalr rd rs1 imm =>
      exact (hreg rs1).bind fun base => (hset rd _).bind fun _ => hnext _
    | branch op rs1 rs2 imm =>
      exact (hreg rs1).bind fun a => (hreg rs2).bind fun b => hnext _
    | fenceI => exact (respects_setPc hgoto d.next).bind fun _ => .pure _
    | ecall => exact .pure _
    | ebreak => exact .throw _
    | _ =>
      rw [hinstr] at hends
      cases hends

/-- An instruction does the same to related guests. -/
theorem respects_step (hc : Hart.IsFullCongruence H) (hm : Memory.IsCongruence M) (d : Located) :
  Respects (Guest.Rel H M) (step d)
  := respects_step_of hc.toIsPartialCongruence hc.goto hm d fun _ => hc.instret

end

end Hart

/-! ### Guests whose accesses go through -/

/-- Translations, and loads and stores of at most eight bytes, go through and lead to later
memories. -/
structure Memory.IsRoutine (M : Memory → Memory → Prop) : Prop where
  course : IsCourse M
  locate : ∀ addr access, Stays M (Memory.locate addr access)
  load : ∀ addr size, size ≤ 8 → Stays M (Memory.load addr size)
  store : ∀ addr size v, size ≤ 8 → Stays M (Memory.store addr size v)

variable {M : Memory → Memory → Prop}

/-- A guest after instructions: the account is as before, and memory is a later one. -/
structure Guest.Proceeds (M : Memory → Memory → Prop) (g g' : Guest) : Prop where
  budget : g'.hart.budget = g.hart.budget
  start : g'.hart.budgetStart = g.hart.budgetStart
  retired : g'.hart.retired = g.hart.retired
  memory : M g.memory g'.memory

namespace Guest

variable {ε : Type}

theorem isCourse_proceeds (course : IsCourse M) :
  IsCourse (Proceeds M)
  := by
  refine ⟨fun _ _ _ h h' => ⟨?_, ?_, ?_, ?_⟩, fun _ _ h => ⟨rfl, rfl, rfl, ?_⟩⟩
  · rw [h'.budget, h.budget]
  · rw [h'.start, h.start]
  · rw [h'.retired, h.retired]
  · exact course.trans _ _ _ h.memory h'.memory
  · exact course.settled _ _ h.memory

theorem proceeds_self {g : Guest} (fit : M g.memory g.memory) :
  Proceeds M g g
  := ⟨rfl, rfl, rfl, fit⟩

theorem stays_onMemory {α : Type} {raise : Memory.Fault → ε} {a : Action Memory Memory.Fault α}
    (h : Stays M a) :
  Stays (Proceeds M) (onMemory raise a)
  := by
  rintro ⟨hart, memory⟩ hg
  obtain ⟨⟨r, memory'⟩, hr, hlater⟩ := (h memory hg.memory).exists_ok trivial
  rw [onMemory, on_of]
  dsimp only
  rw [hr]
  cases r with
  | ok x => exact .ok ⟨rfl, rfl, rfl, hlater⟩
  | error e => exact .ok ⟨rfl, rfl, rfl, hlater⟩

theorem stays_reg {i : Nat} (h : i < 32) :
  Stays (Proceeds M) (reg i : Action Guest ε Word)
  := fun g hg => .of_eq (on_reg g h) hg

theorem stays_setReg {i : Nat} (h : i < 32) (v : Word) :
  Stays (Proceeds M) (setReg i v : Action Guest ε Unit)
  := fun g hg => .of_eq (on_setReg g h v) ⟨rfl, rfl, rfl, hg.memory⟩

theorem stays_setPc (pc : Word) :
  Stays (Proceeds M) (setPc pc : Action Guest ε Unit)
  := fun g hg => .of_eq (on_setPc g pc) ⟨rfl, rfl, rfl, hg.memory⟩

theorem stays_reservation :
  Stays (Proceeds M) (reservation : Action Guest ε Word)
  := fun _ hg => .ok hg

theorem stays_reserve (addr : Word) :
  Stays (Proceeds M) (reserve addr : Action Guest ε Unit)
  := fun _ hg => .ok ⟨rfl, rfl, rfl, hg.memory⟩

theorem stays_instret :
  Stays (Proceeds M) (instret : Action Guest ε Word)
  := fun _ hg => .ok hg

end Guest

namespace Hart

open Guest

theorem size_le_loadOp (op : LoadOp) :
  op.size ≤ 8
  := by
  cases op <;> decide

theorem size_le_storeOp (op : StoreOp) :
  op.size ≤ 8
  := by
  cases op <;> decide

theorem size_le_width (width : Width) :
  width.size ≤ 8
  := by
  cases width <;> decide

section

variable (routine : Memory.IsRoutine M)

include routine

theorem stays_load (addr : Word) {size : Nat} (small : size ≤ 8) :
  Stays (Proceeds M) (load addr size)
  := stays_onMemory (routine.load addr size small)

theorem stays_store (addr : Word) {size : Nat} (small : size ≤ 8) (v : Word) :
  Stays (Proceeds M) (store addr size v)
  := stays_onMemory (routine.store addr size v small)

theorem stays_goto (pc : Word) :
  Stays (Proceeds M) (goto pc)
  := (stays_setPc pc).bind (isCourse_proceeds routine.course) fun _ => .pure _

section

variable {rd rs1 rs2 : Nat} (hrd : rd < 32)

include hrd

theorem stays_loadReserved (width : Width) (addr : Word) :
  Stays (Proceeds M) (loadReserved width rd addr)
  := by
  have course := isCourse_proceeds routine.course
  refine (stays_load routine addr (size_le_width width)).bind course fun v => ?_
  exact (stays_reserve addr).bind course fun _ => stays_setReg hrd _

theorem stays_storeConditional (hrs2 : rs2 < 32) (width : Width) (addr : Word) :
  Stays (Proceeds M) (storeConditional width rd rs2 addr)
  := by
  have course := isCourse_proceeds routine.course
  refine stays_reservation.bind course fun reserved => ?_
  refine (stays_reserve noReservation).bind course fun _ => ?_
  split
  · refine (stays_reg hrs2).bind course fun v => ?_
    exact (stays_store routine addr (size_le_width width) v).bind course fun _ => stays_setReg hrd 0
  · exact stays_setReg hrd 1

theorem stays_readModifyWrite (hrs2 : rs2 < 32) (op : AmoOp) (width : Width) (addr : Word) :
  Stays (Proceeds M) (readModifyWrite op width rd rs2 addr)
  := by
  have course := isCourse_proceeds routine.course
  have small := size_le_width width
  unfold readModifyWrite
  refine Stays.bind course (Stays.discard course (stays_onMemory (routine.locate addr .write)))
    fun _ => ?_
  refine (stays_onMemory (routine.load addr width.size small)).bind course fun raw => ?_
  refine (stays_reg hrs2).bind course fun src => ?_
  refine (stays_onMemory (routine.store addr width.size _ small)).bind course fun _ => ?_
  exact stays_setReg hrd _

theorem stays_atomic (hrs1 : rs1 < 32) (hrs2 : rs2 < 32) (op : AmoOp) (width : Width) :
  Stays (Proceeds M) (atomic op width rd rs1 rs2)
  := by
  have course := isCourse_proceeds routine.course
  refine (stays_reg hrs1).bind course fun addr => ?_
  dsimp only
  split
  on_goal 1 => refine (Stays.throw _).bind course fun _ => ?_
  -- Past the check of the address, both ways go on with the access.
  all_goals
    split
    · exact stays_loadReserved routine hrd width addr
    · exact stays_storeConditional routine hrd hrs2 width addr
    · exact stays_readModifyWrite routine hrd hrs2 op width addr

end

/-- An instruction does not crash where accesses go through, and keeps the account. -/
theorem stays_step_of {d : Located} (proper : d.instr.IsProper) :
  Stays (Proceeds M) (step d)
  := by
  have course := isCourse_proceeds routine.course
  unfold step
  cases hinstr : d.instr <;> rw [hinstr] at proper <;> dsimp only
  case lui => exact (stays_setReg proper _).bind course fun _ => stays_goto routine _
  case auipc => exact (stays_setReg proper _).bind course fun _ => stays_goto routine _
  case jal => exact (stays_setReg proper _).bind course fun _ => stays_goto routine _
  case jalr =>
    obtain ⟨hrd, hrs1, -⟩ := proper
    refine (stays_reg hrs1).bind course fun base => ?_
    exact (stays_setReg hrd _).bind course fun _ => stays_goto routine _
  case branch =>
    obtain ⟨hrs1, hrs2⟩ := proper
    refine (stays_reg hrs1).bind course fun a => ?_
    exact (stays_reg hrs2).bind course fun b => stays_goto routine _
  case load op rd rs1 imm =>
    obtain ⟨hrd, hrs1, -⟩ := proper
    refine (stays_reg hrs1).bind course fun base => ?_
    refine (stays_load routine _ (size_le_loadOp op)).bind course fun raw => ?_
    exact (stays_setReg hrd _).bind course fun _ => stays_goto routine _
  case store op rs1 rs2 imm =>
    obtain ⟨hrs1, hrs2, -⟩ := proper
    refine (stays_reg hrs1).bind course fun base => ?_
    refine (stays_reg hrs2).bind course fun v => ?_
    exact (stays_store routine _ (size_le_storeOp op) v).bind course fun _ => stays_goto routine _
  case opImm =>
    obtain ⟨hrd, hrs1, -⟩ := proper
    refine (stays_reg hrs1).bind course fun a => ?_
    exact (stays_setReg hrd _).bind course fun _ => stays_goto routine _
  case opImm32 =>
    obtain ⟨hrd, hrs1, -⟩ := proper
    refine (stays_reg hrs1).bind course fun a => ?_
    exact (stays_setReg hrd _).bind course fun _ => stays_goto routine _
  case op =>
    obtain ⟨hrd, hrs1, hrs2⟩ := proper
    refine (stays_reg hrs1).bind course fun a => ?_
    refine (stays_reg hrs2).bind course fun b => ?_
    exact (stays_setReg hrd _).bind course fun _ => stays_goto routine _
  case op32 =>
    obtain ⟨hrd, hrs1, hrs2⟩ := proper
    refine (stays_reg hrs1).bind course fun a => ?_
    refine (stays_reg hrs2).bind course fun b => ?_
    exact (stays_setReg hrd _).bind course fun _ => stays_goto routine _
  case amo op width rd rs1 rs2 aq rl =>
    obtain ⟨hrd, hrs1, hrs2⟩ := proper
    exact (stays_atomic routine hrd hrs1 hrs2 op width).bind course fun _ => stays_goto routine _
  case fence => exact stays_goto routine _
  case fenceI => exact (stays_setPc d.next).bind course fun _ => .pure _
  case ecall => exact .pure _
  case csr op rd rs1 csr =>
    have hcsr : Stays (Proceeds M) (accessCsr d.raw op rd rs1 csr) := by
      unfold accessCsr
      split
      · exact stays_instret.bind course fun n => stays_setReg proper n
      · exact .throw _
    exact hcsr.bind course fun _ => stays_goto routine _
  all_goals exact .throw _

end

end Hart

/-! ### Guests with plain memory -/

variable {allows : Memory.Query → Bool}

theorem Memory.isRoutine_evolves (allows : Memory.Query → Bool) :
  Memory.IsRoutine (Memory.Evolves allows)
  := by
  constructor
  · exact Memory.isCourse_evolves allows
  · exact fun addr access => Memory.stays_evolves (Memory.stays_locate addr access)
  · exact fun addr _ small => Memory.stays_evolves (Memory.stays_read addr small .read)
  · exact fun addr _ v small => Memory.stays_store addr small v

/-- A guest after instructions: the account is as before, and what may not be written as well. -/
structure Guest.Evolves (allows : Memory.Query → Bool) (g g' : Guest) : Prop where
  budget : g'.hart.budget = g.hart.budget
  start : g'.hart.budgetStart = g.hart.budgetStart
  retired : g'.hart.retired = g.hart.retired
  memory : g.memory.Evolves allows g'.memory

theorem Guest.evolves_self {g : Guest} (plain : g.memory.Plain allows) :
  Evolves allows g g
  := ⟨rfl, rfl, rfl, plain.evolves⟩

namespace Hart

/-- With plain memory an instruction does not crash, and changes what it may. -/
theorem stays_step {d : Located} (proper : d.instr.IsProper) :
  Stays (Guest.Evolves allows) (step d)
  := by
  apply (stays_step_of (Memory.isRoutine_evolves allows) proper).imp
  · exact fun _ _ h => ⟨h.budget, h.start, h.retired, h.memory⟩
  · exact fun _ h => Guest.proceeds_self h.memory

/-! ### How an instruction ends -/

theorem throws_goto (pc : Word) :
  Throws (fun _ => False) (goto pc)
  := by
  intro g e t h
  rw [on_goto] at h
  cases h

/-- Of the instructions that end a block, only a breakpoint raises an exception. -/
theorem eq_of_step_error {d : Located} (ends : d.instr.endsBlock = true) {g g' : Guest} {e : Exception}
    (h : (step d).on g = .ok (.error e, g')) :
  e = ⟨.breakpoint, d.pc⟩ ∧ g' = g
  := by
  have hreg (i : Nat) : Throws (fun _ => False) (Guest.reg i : Effect Word) := Throws.look _
  have hset (i : Nat) (v : Word) : Throws (fun _ => False) (Guest.setReg i v : Effect Unit) :=
    Throws.change _
  unfold step at h
  cases hinstr : d.instr <;> rw [hinstr] at h ends <;> dsimp only at h
  case jal => exact ((hset _ _).bind (fun _ => throws_goto _) g e g' h).elim
  case jalr =>
    exact ((hreg _).bind (fun _ => (hset _ _).bind fun _ => throws_goto _) g e g' h).elim
  case branch =>
    exact ((hreg _).bind (fun _ => (hreg _).bind fun _ => throws_goto _) g e g' h).elim
  case fenceI => cases h
  case ecall => cases h
  case ebreak =>
    cases h
    exact ⟨rfl, rfl⟩
  all_goals cases ends

/-- An instruction that raises an exception leaves the program counter where it is. -/
theorem pc_of_step_error {d : Located} {g g' : Guest} {e : Exception}
    (h : (step d).on g = .ok (.error e, g')) :
  g'.hart.regs.pc = g.hart.regs.pc
  := by
  cases hends : d.instr.endsBlock with
  | true => rw [(eq_of_step_error hends h).2]
  | false =>
    obtain ⟨c, hc, -⟩ | ⟨g'', hg'', -, -⟩ | ⟨e', g'', hg'', hgoto, -⟩ :=
      on_step_goto hends g g.hart.regs.pc
    · rw [hc] at h
      cases h
    · rw [hg''] at h
      cases h
    · have hself : g.goto g.hart.regs.pc = g := rfl
      rw [hself, h] at hgoto
      cases hgoto
      rfl

/-- A breakpoint is raised with its own address. -/
theorem eq_breakpoint {d : Located} {g g' : Guest} {e : Exception}
    (h : (step d).on g = .ok (.error e, g')) (breakpoint : e.cause = .breakpoint) :
  e = ⟨.breakpoint, d.pc⟩
  := by
  cases hends : d.instr.endsBlock with
  | true => exact (eq_of_step_error hends h).1
  | false => exact absurd breakpoint (isFault_of_step hends h)

/-- A system call leaves the guest to the engine. -/
theorem eq_of_step_ecall {d : Located} {g g' : Guest} (h : (step d).on g = .ok (.ok .ecall, g')) :
  g' = g
  := by
  cases hends : d.instr.endsBlock with
  | false => cases eq_continue_of_step hends h
  | true =>
    unfold step at h
    cases hinstr : d.instr <;> rw [hinstr] at h hends <;> dsimp only at h
    case jal =>
      obtain ⟨_, t, -, h⟩ := on_bind_eq_ok.mp h
      cases h
    case jalr =>
      obtain ⟨_, t, -, h⟩ := on_bind_eq_ok.mp h
      obtain ⟨_, u, -, h⟩ := on_bind_eq_ok.mp h
      cases h
    case branch =>
      obtain ⟨_, t, -, h⟩ := on_bind_eq_ok.mp h
      obtain ⟨_, u, -, h⟩ := on_bind_eq_ok.mp h
      cases h
    case fenceI => cases h
    case ecall =>
      cases h
      rfl
    case ebreak => cases h
    all_goals cases hends

/-! ### Steps one after the other -/

/-- Steps through some instructions and then through others. -/
theorem steps_append (ds ds' : List Located) (g : Guest) :
  steps (ds ++ ds') g =
    match steps ds g with
    | .ok (.ok .continue, g) => steps ds' g
    | x => x
  := by
  induction ds generalizing g with
  | nil => rfl
  | cons d ds ih =>
    rw [List.cons_append, steps, steps]
    split
    case h_1 => rfl
    case h_2 => exact ih _
    case h_3 exit g hne _ =>
      cases exit with
      | «continue» => exact (hne rfl).elim
      | ecall => rfl
      | fenceI => rfl
    case h_4 => rfl

/-- A condition is met by each instruction and by the guest when the turn of the instruction
comes. -/
def Along (Q : Guest → Located → Prop) : List Located → Guest → Prop
  | [], _ => True
  | d :: ds, g => Q g d ∧ ∀ g', (step d).on g = .ok (.ok .continue, g') → Along Q ds g'.charged

theorem Along.append {Q : Guest → Located → Prop} {ds ds' : List Located} {g : Guest}
    (h : Along Q ds g) (h' : ∀ g', steps ds g = .ok (.ok .continue, g') → Along Q ds' g') :
  Along Q (ds ++ ds') g
  := by
  induction ds generalizing g with
  | nil => exact h' g rfl
  | cons d ds ih =>
    refine ⟨h.1, fun g' hg' => ih (h.2 g' hg') fun g'' hg'' => h' g'' ?_⟩
    rw [steps, hg']
    exact hg''

/-- Each instruction is where the program counter points when its turn comes. -/
def OnTrack (ds : List Located) (g : Guest) : Prop :=
  Along (fun g d => d.pc = g.hart.regs.pc) ds g

/-- An instruction that does not end a block goes on at the next one. -/
theorem pc_of_step {d : Located} (ends : d.instr.endsBlock = false) {g g' : Guest} {x : StepExit}
    (h : (step d).on g = .ok (.ok x, g')) :
  g'.hart.regs.pc = d.next
  := by
  rw [step_eq_effect ends] at h
  obtain ⟨_, t, -, h⟩ := on_bind_eq_ok.mp h
  rw [on_goto] at h
  cases h
  rfl

/-- Instructions that follow one another are found one after the other. -/
theorem onTrack_of_isRun {pc stop : Word} {ds : List Located} {e : Block.Ending}
    (h : Block.IsRun pc ds e stop) {g : Guest} (at_pc : g.hart.regs.pc = pc) :
  OnTrack ds g
  := by
  induction h generalizing g with
  | last => exact ⟨at_pc.symm, fun _ _ => trivial⟩
  | limit => exact ⟨at_pc.symm, fun _ _ => trivial⟩
  | cons decoded ends rest ih =>
    refine ⟨at_pc.symm, fun g' hg' => ih ?_⟩
    have hnext := pc_of_step ends hg'
    exact hnext

/-- What steps lead to where accesses go through: no crash, a later memory, and an account charged for
what was carried out. -/
theorem steps_meets_of (routine : Memory.IsRoutine M) {ds : List Located} {g : Guest}
    (fit : M g.memory g.memory) (proper : ∀ d ∈ ds, d.instr.IsProper) :
  Meets True (steps ds g) fun r => M g.memory r.2.memory ∧
    r.2.hart.budgetStart = g.hart.budgetStart ∧ r.2.hart.retired = g.hart.retired ∧
    ∃ n ≤ ds.length, r.2.hart.budget = g.hart.budget - BitVec.ofNat 64 n ∧
      (r.1 = .ok .continue → n = ds.length)
  := by
  induction ds generalizing g with
  | nil => exact .ok ⟨fit, rfl, rfl, 0, Nat.le_refl _, by simp, fun _ => rfl⟩
  | cons d ds ih =>
    obtain ⟨hd, hds⟩ := List.forall_mem_cons.mp proper
    obtain ⟨⟨r, g'⟩, hr, hlater⟩ :=
      (stays_step_of routine hd g (Guest.proceeds_self fit)).exists_ok trivial
    dsimp only at hlater
    have hcharged : g'.charged.hart.budget = g.hart.budget - BitVec.ofNat 64 1 := by
      rw [← hlater.budget]
      rfl
    rw [steps, hr]
    match r with
    | .ok .continue =>
      refine Meets.imp (ih (g := g'.charged) (routine.course.settled _ _ hlater.memory) hds) ?_
      rintro r ⟨hmemory, hstart, hretired, n, hn, hbudget, hall⟩
      refine ⟨routine.course.trans _ _ _ hlater.memory hmemory, hstart.trans hlater.start,
        hretired.trans hlater.retired, n + 1, ?_, ?_, fun h => ?_⟩
      · exact Nat.succ_le_succ hn
      · rw [hbudget, hcharged, BitVec.sub_sub, ← BitVec.ofNat_add, Nat.add_comm]
      · rw [hall h, List.length_cons]
    | .ok .ecall =>
      exact .ok ⟨hlater.memory, hlater.start, hlater.retired, 1, by simp, hcharged, nofun⟩
    | .ok .fenceI =>
      exact .ok ⟨hlater.memory, hlater.start, hlater.retired, 1, by simp, hcharged, nofun⟩
    | .error e =>
      dsimp only
      split
      · exact .ok ⟨hlater.memory, hlater.start, hlater.retired, 1, by simp, hcharged, nofun⟩
      · refine .ok ⟨hlater.memory, hlater.start, hlater.retired, 0, by simp, ?_, nofun⟩
        rw [hlater.budget, BitVec.sub_zero]

/-- What steps with plain memory lead to: no crash, an account charged for what was carried out, and
bytes changed only where that is allowed. -/
theorem steps_meets {ds : List Located} {g : Guest} (plain : g.memory.Plain allows)
    (proper : ∀ d ∈ ds, d.instr.IsProper) :
  Meets True (steps ds g) fun r => g.memory.Evolves allows r.2.memory ∧
    r.2.hart.budgetStart = g.hart.budgetStart ∧ r.2.hart.retired = g.hart.retired ∧
    ∃ n ≤ ds.length, r.2.hart.budget = g.hart.budget - BitVec.ofNat 64 n ∧
      (r.1 = .ok .continue → n = ds.length)
  := steps_meets_of (Memory.isRoutine_evolves allows) plain.evolves proper

end Hart

end CrossHart
