import CrossHart.Proofs.Host.Instructions

/-!
# Leaving a block

The code of a block is left through one of its exits, for the engine with a reason in `rax`, or by
the way out of a service call.  `Departs` says which of them it is and what guest the engine finds.
-/

namespace CrossHart.Host

open Isa Assignment Compile Processor

variable {env : Environment} {p : Processor}

/-! ### Ways out -/

theorem runs_pcCode (base : p.reg stateReg = env.state) (pc : Word) :
  ∃ q, Runs env (pcCode pc) p q ∧ q.guest = p.guest.goto pc ∧ q.reg stateReg = env.state
  := by
  unfold pcCode
  split
  case isTrue hlt =>
    have hpc : (pc.setWidth 32).signExtend 64 = pc := by
      apply BitVec.eq_of_toInt_eq
      rw [BitVec.toInt_signExtend_of_le (by decide), BitVec.toInt_setWidth,
        BitVec.toInt_eq_toNat_of_lt (show 2 * pc.toNat < 2 ^ 64 by omega),
        Int.bmod_eq_of_le (by omega) (by omega)]
    refine ⟨p.withGuest (p.guest.goto pc), Runs.single ?_, rfl, base⟩
    have hexec := execute_storeImm_pc base (pc.setWidth 32)
    rw [hpc] at hexec
    exact hexec
  case isFalse =>
    obtain ⟨f, hmov⟩ := execute_movImm env p true .rax pc
    have hbase : ((p.setReg .rax pc).withFlags f).reg stateReg = env.state := by
      rw [reg_withFlags, p.reg_setReg_of_ne (by decide), base]
    have hstore := execute_store_pc hbase .rax
    rw [reg_withFlags, reg_setReg_self] at hstore
    exact ⟨_, Runs.cons hmov (Runs.single hstore), rfl, hbase⟩

/-- Code that leaves for the engine. -/
theorem exec_leaveItems (env : Environment) (p : Processor) (r : ExitReason) :
  ∃ q, Item.exec env (leaveItems r) p = .ok (.leave q) ∧ q.reg .rax = BitVec.ofNat 64 r.code ∧
    q.guest = p.guest
  := by
  obtain ⟨f, hmov⟩ := execute_movImm env p false .rax (BitVec.ofNat 64 r.code)
  have hcode : (((BitVec.ofNat 64 r.code).setWidth 32).setWidth 64 : Word) =
      BitVec.ofNat 64 r.code := by
    cases r <;> rfl
  rw [if_neg (by decide), hcode] at hmov
  refine ⟨(p.setReg .rax (BitVec.ofNat 64 r.code)).withFlags f, ?_, ?_, rfl⟩
  · rw [leaveItems, Item.exec, hmov]
    rfl
  · rw [reg_withFlags, reg_setReg_self]

/-- Code that leaves for the engine at an address. -/
theorem exec_leaveAt (base : p.reg stateReg = env.state) (pc : Word) (r : ExitReason) :
  ∃ q, Item.exec env ((pcCode pc).map .instr ++ leaveItems r) p = .ok (.leave q) ∧
    q.reg .rax = BitVec.ofNat 64 r.code ∧ q.guest = p.guest.goto pc
  := by
  obtain ⟨q, hrun, hguest, -⟩ := runs_pcCode base pc
  obtain ⟨q', hleave, hrax, hguest'⟩ := exec_leaveItems env q r
  refine ⟨q', ?_, hrax, hguest'.trans hguest⟩
  rw [Item.exec_append, hrun]
  exact hleave

/-! ### Departures -/

/-- The reason for which the engine finds a block left, by how the block ends and by how its
instructions ended. -/
def departure (ending : Block.Ending) : Except Exception Hart.StepExit → ExitReason
  | .ok .ecall => .ecall
  | .ok .fenceI => .fenceI
  | .ok .continue => if ending = .indirect then .indirect else .chain
  | .error e => if e.cause = .breakpoint then .ebreak else .exception

/-- The guest that the engine finds: the exception of a service is left in the hart. -/
def observed (r : Except Exception Hart.StepExit) (g : Guest) : Guest :=
  match r with
  | .ok _ => g
  | .error e => if e.cause = .breakpoint then g else Hart.Service.raised e g

/-- Items are left through an exit, at once or by way of the taken side of a branch. -/
def ExitsBy (env : Environment) (code : List Item) (p : Processor) (k : Nat) (q : Processor) : Prop :=
  Item.exec env code p = .ok (.exit k q) ∨
    Item.exec env code p = .ok (.jump (.taken k) q) ∧
      ∃ start, code = start ++ [.place (.taken k), .exit k]

/-- How the code of a block is left, given its draft, and what guest the engine finds. -/
inductive Departs (env : Environment) (D : Draft) (code : List Item) (p : Processor) :
    ExitReason → Guest → Prop
  /-- Through an exit to the address at which the guest goes on. -/
  | exit {k : Nat} {q : Processor} {g : Guest} (exits : ExitsBy env code p k q)
      (target : D.targets[k]? = some g.hart.regs.pc) (guest : q.guest.goto g.hart.regs.pc = g)
      (base : q.reg stateReg = env.state) : Departs env D code p .chain g
  /-- For the engine. -/
  | leave {q : Processor} {r : ExitReason} (leaves : Item.exec env code p = .ok (.leave q))
      (reason : q.reg .rax = BitVec.ofNat 64 r.code) : Departs env D code p r q.guest
  /-- By the way out of a service call. -/
  | fault {k : Nat} {q : Processor} {f : FaultExit}
      (jumps : Item.exec env code p = .ok (.jump (.fault k) q))
      (way : D.faults.reverse[k]? = some f) (small : f.refund < 0x80000000)
      (base : q.reg stateReg = env.state) :
    Departs env D code p .exception (q.guest.before f.refund f.pc)

/-- The code of a block ends as its instructions do. -/
def Ends (env : Environment) (ending : Block.Ending) (D : Draft) (code : List Item) (p : Processor) :
    Except Crash (Except Exception Hart.StepExit × Guest) → Prop
  | .error c => Item.exec env code p = .error c
  | .ok (r, g) => Departs env D code p (departure ending r) (observed r g)

theorem ExitsBy.append {items code : List Item} {q q' : Processor} {k : Nat}
    (h : ExitsBy env code q k q') (next : Item.exec env items p = .ok (.next q)) :
  ExitsBy env (items ++ code) p k q'
  := by
  have hexec : Item.exec env (items ++ code) p = Item.exec env code q := by
    rw [Item.exec_append, next]
  rw [ExitsBy, hexec]
  obtain h | ⟨h, start, rfl⟩ := h
  · exact .inl h
  · exact .inr ⟨h, items ++ start, (List.append_assoc _ _ _).symm⟩

/-- Items that go on to the code of a block are left as the code is. -/
theorem Ends.append {ending : Block.Ending} {D : Draft} {items code : List Item} {q : Processor}
    {r : Except Crash (Except Exception Hart.StepExit × Guest)} (h : Ends env ending D code q r)
    (next : Item.exec env items p = .ok (.next q)) :
  Ends env ending D (items ++ code) p r
  := by
  have hexec : Item.exec env (items ++ code) p = Item.exec env code q := by
    rw [Item.exec_append, next]
  cases r with
  | error c => exact hexec.trans h
  | ok r =>
    rw [Ends] at h ⊢
    generalize departure ending r.1 = reason at h ⊢
    generalize observed r.1 r.2 = g at h ⊢
    cases h with
    | exit exits target guest base => exact .exit (exits.append next) target guest base
    | leave leaves reason => exact .leave (hexec.trans leaves) reason
    | fault jumps way small base => exact .fault (hexec.trans jumps) way small base

/-! ### The end of a block -/

/-- Code at the end of a block, which has no way out of its own. -/
structure Closes (D D' : Draft) (code : List Item) : Prop where
  items : D'.items = code.reverse ++ D.items
  faults : D'.faults = D.faults ∧ D'.faultCount = D.faultCount
  exits : D.exits.length = D.exitCount → D'.exits.length = D'.exitCount

variable {D : Draft} {c : Compile Unit}

/-- Straight code followed by code that leaves for the engine. -/
theorem closes_leave {tail : Compile Unit} {fin : Guest → Guest} {r : ExitReason}
    (f : Guest → Guest) (facts : Guest → List (Reg × Word)) (items : List Item)
    (computes : ∀ g, Computes env D.assignment (Holds env D.assignment g []) c (fun _ b => b.Clean)
      (fun _ b => Holds env b (f g) (facts g)))
    (on : ∀ D, tail.on D = (.ok (), D.push items))
    (leaves : ∀ p g, p.guest = f g → p.reg stateReg = env.state →
      (∀ x ∈ facts g, p.reg x.1 = x.2) → ∃ q, Item.exec env items p = .ok (.leave q) ∧
        q.reg .rax = BitVec.ofNat 64 r.code ∧ q.guest = fin g) :
  ∃ D' code, (c >>= fun _ => tail).on D = (.ok (), D') ∧ Closes D D' code ∧
    ∀ p g, env.services.Distinct → D.assignment.Represents env p g → Departs env D' code p r (fin g)
  := by
  obtain ⟨⟨⟩, b, code, hon, hclean, hrun⟩ := Computes.uniform computes
  refine ⟨_, code.map .instr ++ items, (on_bind_ok (hon D rfl) _).trans (on _),
    ⟨?_, ⟨rfl, rfl⟩, fun h => h⟩, ?_⟩
  · simp [Draft.push, Draft.assigned]
  intro p g hdistinct hrep
  obtain ⟨q, hq, hholds⟩ := hrun g p (.intro hdistinct hrep)
  obtain ⟨q', hleave, hrax, hguest⟩ := leaves q g (hholds.represents.guest_eq hclean)
    hholds.represents.base hholds.facts
  rw [← hguest]
  apply Departs.leave _ hrax
  rw [Item.exec_append, hq]
  exact hleave

/-- Straight code followed by an exit. -/
theorem closes_exitTo (target : Word) (f : Guest → Guest)
    (computes : ∀ g, Computes env D.assignment (Holds env D.assignment g []) c (fun _ b => b.Clean)
      (fun _ b => Holds env b (f g) [])) (counted : D.exits.length = D.exitCount) :
  ∃ D' code, (c >>= fun _ => exitTo target).on D = (.ok (), D') ∧ Closes D D' code ∧
    ∀ p g, env.services.Distinct → D.assignment.Represents env p g →
      Departs env D' code p .chain ((f g).goto target)
  := by
  obtain ⟨⟨⟩, b, code, hon, hclean, hrun⟩ := Computes.uniform computes
  refine ⟨_, code.map .instr ++ [.exit D.exitCount],
    (on_bind_ok (hon D rfl) _).trans (on_exitTo _ _), ⟨?_, ⟨rfl, rfl⟩, fun h => ?_⟩, ?_⟩
  · simp [Draft.push, Draft.assigned, Draft.addExits]
  · simp [Draft.push, Draft.assigned, Draft.addExits, h]
  intro p g hdistinct hrep
  obtain ⟨q, hq, hholds⟩ := hrun g p (.intro hdistinct hrep)
  refine Departs.exit (k := D.exitCount) (q := q) (.inl ?_) ?_ ?_ hholds.represents.base
  · rw [Item.exec_append, hq]
    rfl
  · simp [Draft.targets, Draft.push, Draft.assigned, Draft.addExits, ← counted, Guest.goto]
  · rw [hholds.represents.guest_eq hclean]
    rfl

/-- The comparison in front of a branch. -/
def branchArgs (rs1 rs2 : Nat) : Compile Unit := do
  let a ← read rs1 .rax
  let b ← read rs2 .rcx
  sync
  instr (.arith .cmp true a b)

theorem computes_branchArgs {a : Assignment} {g : Guest} {rs1 rs2 : Nat} (wf : a.WellFormed)
    (fresh : a.pins = 0) (lt : rs1 < 32) (lt' : rs2 < 32) :
  Computes env a (Holds env a g []) (branchArgs rs1 rs2) (fun _ b => b.Clean)
    (fun _ b q => Holds env b g [] q ∧
      q.flags = some (.ofDifference (g.value rs1) (g.value rs2)))
  := by
  refine (Computes.read (r := .rax) wf (by rw [fresh]; decide) lt (by decide) Framed.nil).bind ?_
  rintro r₁ a₁ ⟨hgrown, hkeeps, hr₁⟩
  have hpins := hgrown.pins
  rw [fresh] at hpins
  refine (Computes.read (r := .rcx) hgrown.wellFormed (show a₁.pins < 5 by omega) lt' (by decide)
    (Framed.nil.cons hkeeps (IsScratch.ne_of_read (by decide) (by decide) hr₁))).bind ?_
  rintro r₂ a₂ ⟨hgrown', -, -⟩
  refine (Computes.sync hgrown'.wellFormed).bind ?_
  rintro _ _ rfl
  refine Computes.settled (Computes.instr ?_) hgrown'.wellFormed.clean_sync
  intro p hp
  refine ⟨p.withFlags (some (.ofDifference (g.value rs1) (g.value rs2))), ?_, hp.nil.withFlags _, rfl⟩
  rw [← hp.head, ← hp.tail.head]
  rfl

/-- The exits of a branch are taken as the branch is. -/
theorem closes_branch (env : Environment) (op : BranchOp) {rs1 rs2 : Nat} (next taken : Word)
    (wf : D.assignment.WellFormed) (fresh : D.assignment.pins = 0)
    (counted : D.exits.length = D.exitCount) (lt : rs1 < 32) (lt' : rs2 < 32) :
  ∃ D' code, (branchArgs rs1 rs2 >>= fun _ => branchExits (.ofBranch op) next taken).on D =
      (.ok (), D') ∧ Closes D D' code ∧
    ∀ p g, env.services.Distinct → D.assignment.Represents env p g →
      Departs env D' code p .chain
        (g.goto (if op.taken (g.value rs1) (g.value rs2) then taken else next))
  := by
  have hargs (g : Guest) : Computes env D.assignment _ (branchArgs rs1 rs2) _ _ :=
    computes_branchArgs (g := g) wf fresh lt lt'
  obtain ⟨⟨⟩, b, code, hon, hclean, hrun⟩ := Computes.uniform hargs
  refine ⟨_, code.map .instr ++ Draft.branchItems (.ofBranch op) D.exitCount,
    (on_bind_ok (hon D rfl) _).trans (on_branchExits _ _ _ _), ⟨?_, ⟨rfl, rfl⟩, fun h => ?_⟩, ?_⟩
  · simp [Draft.push, Draft.assigned, Draft.addExits]
  · simp [Draft.push, Draft.assigned, Draft.addExits, h]
  intro p g hdistinct hrep
  obtain ⟨q, hq, hholds, hflags⟩ := hrun g p (.intro hdistinct hrep)
  have hguest := hholds.represents.guest_eq hclean
  have hexec : Item.exec env (code.map .instr ++ Draft.branchItems (.ofBranch op) D.exitCount) p =
      .ok (if op.taken (g.value rs1) (g.value rs2) then .jump (.taken (D.exitCount + 1)) q
        else .exit D.exitCount q) := by
    have hknown : q.knownFlags = .ok (.ofDifference (g.value rs1) (g.value rs2)) := by
      rw [knownFlags, hflags]
    rw [Item.exec_append, hq]
    dsimp only
    rw [Draft.branchItems, Item.exec, hknown, Except.ok_bind, Cond.holds_ofBranch]
    split <;> rfl
  split
  case isTrue htaken =>
    rw [if_pos htaken] at hexec
    refine Departs.exit (k := D.exitCount + 1) (q := q) (.inr ⟨hexec, ?_⟩) ?_ ?_
      hholds.represents.base
    · use code.map .instr ++ [.branch (.ofBranch op) (.taken (D.exitCount + 1)), .exit D.exitCount]
      simp [Draft.branchItems]
    · simp [Draft.targets, Draft.push, Draft.assigned, Draft.addExits, ← counted, Guest.goto]
    · rw [hguest]
      rfl
  case isFalse htaken =>
    rw [if_neg htaken] at hexec
    refine Departs.exit (k := D.exitCount) (q := q) (.inl hexec) ?_ ?_ hholds.represents.base
    · simp [Draft.targets, Draft.push, Draft.assigned, Draft.addExits, ← counted, Guest.goto]
    · rw [hguest]
      rfl

/-- Leaving at an address. -/
theorem closes_leaveAt (env : Environment) (wf : D.assignment.WellFormed) (pc : Word) (r : ExitReason) :
  ∃ D' code, (leaveAt pc r).on D = (.ok (), D') ∧ Closes D D' code ∧
    ∀ p g, env.services.Distinct → D.assignment.Represents env p g →
      Departs env D' code p r (g.goto pc)
  := by
  apply closes_leave id (fun _ => []) ((pcCode pc).map .instr ++ leaveItems r)
  · intro g
    refine (Computes.sync wf).imp (fun _ h => h) ?_ fun _ _ _ _ h => h
    rintro _ _ rfl
    exact wf.clean_sync
  · intro D
    rw [on_bind_ok (on_setPc pc D), on_leave, Draft.push_push]
  · intro p g hguest hbase _
    obtain ⟨q, hleave, hrax, hq⟩ := exec_leaveAt hbase pc r
    exact ⟨q, hleave, hrax, by rw [hq, hguest]; rfl⟩

/-- The target of a jump to an address in a register, and the address of the next instruction in its
register. -/
def jumpArgs (rd rs1 : Nat) (imm next : Word) : Compile Unit := do
  addressIn .rax rs1 imm
  instr (.arithImm .and true .rax (-2))
  writeImm rd next
  sync

theorem computes_jumpArgs {a : Assignment} {g : Guest} {rd rs1 : Nat} {imm next : Word}
    (wf : a.WellFormed) (fresh : a.pins = 0) (hrd : rd < 32) (hrs1 : rs1 < 32)
    (narrow : Instr.Fits 32 imm) :
  Computes env a (Holds env a g []) (jumpArgs rd rs1 imm next) (fun _ b => b.Clean)
    (fun _ b => Holds env b (g.put rd next) [(.rax, (g.value rs1 + imm) &&& ~~~1)])
  := by
  refine (Computes.addressIn wf (by rw [fresh]; decide) hrs1 (by decide) Framed.nil narrow).bind ?_
  intro _ b hgrown
  have hpins := hgrown.pins
  rw [fresh] at hpins
  refine (Computes.set (g := g) (r := .rax) (v := (g.value rs1 + imm) &&& ~~~1) (by decide) Framed.nil
    ?_).bind ?_
  · intro p hp
    refine ⟨hp.nil, some (.ofBits ((g.value rs1 + imm) &&& ~~~1)), ?_⟩
    rw [← hp.head]
    rfl
  rintro _ _ rfl
  refine (Computes.writeImm hgrown.wellFormed (show b.pins < 5 by omega) hrd ?_ next).bind ?_
  · intro f hf
    rw [List.mem_singleton.mp hf]
    exact (by decide : IsScratch .rax)
  intro _ b' hgrown'
  refine (Computes.sync hgrown'.wellFormed).imp (fun _ h => h) ?_ fun _ _ _ _ h => h
  rintro _ _ rfl
  exact hgrown'.wellFormed.clean_sync

/-- A jump to an address in a register. -/
theorem closes_jumpArgs (env : Environment) {rd rs1 : Nat} {imm : Word} (next : Word)
    (wf : D.assignment.WellFormed) (fresh : D.assignment.pins = 0) (hrd : rd < 32)
    (hrs1 : rs1 < 32) (narrow : Instr.Fits 32 imm) :
  ∃ D' code, (jumpArgs rd rs1 imm next >>= fun _ =>
      instr (.store true .rax stateReg pcOffset) >>= fun _ => leave .indirect).on D = (.ok (), D') ∧
    Closes D D' code ∧ ∀ p g, env.services.Distinct → D.assignment.Represents env p g →
      Departs env D' code p .indirect ((g.put rd next).goto ((g.value rs1 + imm) &&& ~~~1))
  := by
  apply closes_leave (fun g => g.put rd next) (fun g => [(.rax, (g.value rs1 + imm) &&& ~~~1)])
    ([.instr (.store true .rax stateReg pcOffset)] ++ leaveItems .indirect)
  · intro g
    exact computes_jumpArgs wf fresh hrd hrs1 narrow
  · intro D
    rw [on_bind_ok (on_instr _ D), on_leave, Draft.push_push]
  · intro p g hguest hbase hfacts
    have hrax : p.reg .rax = (g.value rs1 + imm) &&& ~~~1 := hfacts _ (List.mem_singleton.mpr rfl)
    obtain ⟨q, hleave, hreason, hq⟩ :=
      exec_leaveItems env (p.withGuest (p.guest.goto (p.reg .rax))) .indirect
    refine ⟨q, ?_, hreason, ?_⟩
    · rw [List.singleton_append, Item.exec, Instr.normal, execute_store_pc hbase]
      · exact hleave
      · simp
    · rw [hq, guest_withGuest, hguest, hrax]

variable {d : Located}

/-- The code of an instruction that ends its block leaves it as the instruction does. -/
theorem closes_located (env : Environment) (ends : d.instr.endsBlock = true)
    (proper : d.instr.IsProper) (wf : D.assignment.WellFormed) (fresh : D.assignment.pins = 0)
    (counted : D.exits.length = D.exitCount) (refund : Except Crash Nat) :
  ∃ D' code, (located env.services refund d).on D = (.ok (), D') ∧ Closes D D' code ∧
    ∀ p g, env.services.Distinct → D.assignment.Represents env p g →
      Ends env (.ofInstr d.instr) D' code p (Hart.steps [d] (g.before 1 d.pc))
  := by
  have hcharged (g : Guest) (pc : Word) : (g.before 1 pc).charged = g.goto pc := by
    rw [Guest.charged_before g 0, Guest.before_zero]
  -- Each instruction is carried out, so one step of it is charged.
  have hsteps (g s : Guest) (x : Hart.StepExit) (pc : Word)
      (h : (Hart.step d).on (g.before 1 d.pc) = .ok (.ok x, s.before 1 pc)) :
      Hart.steps [d] (g.before 1 d.pc) = .ok (.ok x, s.goto pc) := by
    rw [Hart.steps, h, ← hcharged]
    cases x <;> rfl
  have hroom : D.assignment.pins < slotCount := by rw [fresh]; decide
  have hnone : ∀ f ∈ ([] : List (Reg × Word)), IsScratch f.1 := fun _ hf => (nomatch hf)
  unfold located
  cases hinstr : d.instr with
  | jal rd imm =>
    rw [hinstr] at proper
    have hcomputes (g : Guest) : Computes env D.assignment (Holds env D.assignment g [])
        (writeImm rd d.next >>= fun _ => sync) (fun _ b => b.Clean)
        (fun _ b => Holds env b (g.put rd d.next) []) := by
      refine (Computes.writeImm wf hroom proper hnone d.next).bind ?_
      intro _ b hgrown
      refine (Computes.sync hgrown.wellFormed).imp (fun _ h => h) ?_ fun _ _ _ _ h => h
      rintro _ _ rfl
      exact hgrown.wellFormed.clean_sync
    obtain ⟨D', code, hon, hcloses, hdeparts⟩ :=
      closes_exitTo (d.pc + imm) (fun g => g.put rd d.next) hcomputes counted
    rw [bind_assoc] at hon
    refine ⟨D', code, hon, hcloses, fun p g hdistinct hrep => ?_⟩
    rw [hsteps g (g.put rd d.next) .continue (d.pc + imm)]
    · exact hdeparts p g hdistinct hrep
    · unfold Hart.step
      rw [hinstr]
      dsimp only
      rw [Action.on_bind, Guest.on_setReg _ proper, Guest.put_before]
      rfl
  | jalr rd rs1 imm =>
    rw [hinstr] at proper
    obtain ⟨hrd, hrs1, himm⟩ := proper
    obtain ⟨D', code, hon, hcloses, hdeparts⟩ :=
      closes_jumpArgs env d.next wf fresh hrd hrs1 himm
    refine ⟨D', code, ?_, hcloses, fun p g hdistinct hrep => ?_⟩
    · rw [← hon]
      simp only [jumpArgs, bind_assoc]
    rw [hsteps g (g.put rd d.next) .continue ((g.value rs1 + imm) &&& ~~~1)]
    · exact hdeparts p g hdistinct hrep
    · unfold Hart.step
      rw [hinstr]
      dsimp only
      rw [Action.on_bind, Guest.on_reg _ hrs1]
      dsimp only
      rw [Action.on_bind, Guest.on_setReg _ hrd, Guest.put_before]
      rfl
  | branch op rs1 rs2 imm =>
    rw [hinstr] at proper
    obtain ⟨hrs1, hrs2⟩ := proper
    obtain ⟨D', code, hon, hcloses, hdeparts⟩ :=
      closes_branch env op d.next (d.pc + imm) wf fresh counted hrs1 hrs2
    refine ⟨D', code, ?_, hcloses, fun p g hdistinct hrep => ?_⟩
    · rw [← hon]
      simp only [branchArgs, bind_assoc]
      rfl
    rw [hsteps g g .continue (if op.taken (g.value rs1) (g.value rs2) then d.pc + imm else d.next)]
    · exact hdeparts p g hdistinct hrep
    · unfold Hart.step
      rw [hinstr]
      dsimp only
      rw [Action.on_bind, Guest.on_reg _ hrs1]
      dsimp only
      rw [Action.on_bind, Guest.on_reg _ hrs2]
      rfl
  | ecall =>
    obtain ⟨D', code, hon, hcloses, hdeparts⟩ := closes_leaveAt env wf d.pc .ecall
    refine ⟨D', code, hon, hcloses, fun p g hdistinct hrep => ?_⟩
    rw [hsteps g g .ecall d.pc]
    · exact hdeparts p g hdistinct hrep
    · unfold Hart.step
      rw [hinstr]
      rfl
  | ebreak =>
    obtain ⟨D', code, hon, hcloses, hdeparts⟩ := closes_leaveAt env wf d.pc .ebreak
    refine ⟨D', code, hon, hcloses, fun p g hdistinct hrep => ?_⟩
    have hstep : (Hart.step d).on (g.before 1 d.pc) =
        .ok (.error ⟨.breakpoint, d.pc⟩, g.before 1 d.pc) := by
      unfold Hart.step
      rw [hinstr]
      rfl
    rw [Hart.steps, hstep]
    dsimp only
    rw [if_pos rfl, hcharged]
    exact hdeparts p g hdistinct hrep
  | fenceI =>
    obtain ⟨D', code, hon, hcloses, hdeparts⟩ := closes_leaveAt env wf d.next .fenceI
    refine ⟨D', code, hon, hcloses, fun p g hdistinct hrep => ?_⟩
    rw [hsteps g g .fenceI d.next]
    · exact hdeparts p g hdistinct hrep
    · unfold Hart.step
      rw [hinstr]
      rfl
  | _ =>
    rw [hinstr] at ends
    cases ends

end CrossHart.Host
