import CrossHart.Proofs.Hart.Charged
import CrossHart.Proofs.Host.Arithmetic
import CrossHart.Proofs.Isa.Decoded

/-!
# The code of instructions

The code of an instruction carries it out: from a processor that represents a guest it leads to one
that represents the guest after the instruction, it takes the way out of its own service call if the
instruction raises an exception, and it crashes if the instruction does.
-/

namespace CrossHart

namespace Host

open Isa Assignment Compile

instance : Nonempty Guest :=
  ⟨{ memory := { space := { ram := .empty, base := 0 }, policy := .allowAll } }⟩

/-- How code for an instruction with `n` instructions to come ends, compared with a single step.
The draft was `D` before the instruction and is `D'` behind it. -/
def Carried (env : Environment) (n : Nat) (d : Located) (D D' : Draft) (g : Guest)
    (r : Except Crash Flow) : Except Crash (Except Exception Hart.StepExit × Guest) → Prop
  | .error c => r = .error c
  | .ok (.ok _, s) => ∃ q g', r = .ok (.next q) ∧ s = g'.before n d.next ∧
      g'.hart.budget = g.hart.budget ∧ D'.assignment.Represents env q g'
  | .ok (.error e, s) => ∃ q g', r = .ok (.jump (.fault D.faultCount) q) ∧
      s = g'.before n d.pc ∧ g'.hart.budget = g.hart.budget ∧
      q.guest = Hart.Service.raised e g' ∧ q.reg stateReg = env.state ∧
      D'.faults = ⟨d.pc, n⟩ :: D.faults

/-- The code `code` carries out an instruction that does not end its block, with `n` instructions to
come, and does not leave the block but by a way out of its own. -/
structure Carries (env : Environment) (n : Nat) (d : Located) (D D' : Draft) (code : List Item) :
    Prop where
  items : D'.items = code.reverse ++ D.items
  wellFormed : D'.assignment.WellFormed
  exits : D'.exits = D.exits ∧ D'.exitCount = D.exitCount
  faults : (D'.faults = D.faults ∧ D'.faultCount = D.faultCount) ∨
    (D'.faults = ⟨d.pc, n⟩ :: D.faults ∧ D'.faultCount = D.faultCount + 1)
  runs : n < 0x80000000 → ∀ p g, env.services.Distinct → D.assignment.Represents env p g →
    (g.hart.budget + BitVec.ofNat 64 n).toInt = g.hart.budget.toInt + n →
    Carried env n d D D' g (Item.exec env code p) ((Hart.step d).on (g.before n d.pc))

variable {env : Environment} {n : Nat} {d : Located} {D : Draft}

theorem Holds.intro {a : Assignment} {p : Processor} {g : Guest} (distinct : env.services.Distinct)
    (h : a.Represents env p g) :
  Holds env a g [] p
  := ⟨distinct, h, fun _ hf => (nomatch hf)⟩

/-- Straight code that sets a register as the instruction does. -/
theorem carries_of_put {c : Compile Unit} {r : Nat} {v : Guest → Word}
    (ends : d.instr.endsBlock = false) (blind : ∀ g n pc, v (g.before n pc) = v g)
    (computes : ∀ g, Computes env D.assignment (Holds env D.assignment g []) c
      (fun _ b => b.WellFormed) (fun _ b => Holds env b (g.put r (v g)) []))
    (effect : ∀ g, (Hart.effect d).on g = .ok (.ok (), g.put r (v g))) :
  ∃ D' code, c.on D = (.ok (), D') ∧ Carries env n d D D' code
  := by
  obtain ⟨⟨⟩, b, code, hon, hwf, hrun⟩ := Computes.uniform computes
  refine ⟨_, code.map .instr, hon D rfl, rfl, hwf, ⟨rfl, rfl⟩, .inl ⟨rfl, rfl⟩, ?_⟩
  intro _ p g hdistinct hrep _
  obtain ⟨q, hq, hholds⟩ := hrun g p (.intro hdistinct hrep)
  rw [Hart.step_eq_effect ends, Action.on_bind, effect, blind, Guest.put_before]
  exact ⟨q, g.put r (v g), hq, rfl, rfl, hholds.represents⟩

/-- Code that prepares the call of a service that replies to an action on memory, checks the reply,
and goes on with its value. -/
theorem carries_of_reply {c₁ c₂ : Compile Unit} {addr : Word}
    (act : Guest → Action Guest Exception Word) (fin : Guest → Word → Guest)
    (ends : d.instr.endsBlock = false)
    (prepare : ∀ g, Computes env D.assignment (Holds env D.assignment g []) c₁
      (fun _ b => b.WellFormed ∧ b.pins < slotCount ∧ b.Clean)
      (fun _ b q => Holds env b g [] q ∧
        Processor.service env addr (q.reg .rsi) (q.reg .rdx) (q.reg .rcx) g =
          Hart.Service.reply (act g) g))
    (finish : ∀ b, b.WellFormed → b.pins < slotCount → ∀ x : Guest × Word,
      Computes env b (Holds env b x.1 [(.rax, x.2)]) c₂ (fun _ b' => b'.WellFormed)
        (fun _ b' => Holds env b' (fin x.1 x.2) []))
    (memory : ∀ g, Guest.IsMemoryAction (act g)) (blind : ∀ g n pc, act (g.before n pc) = act g)
    (before : ∀ g n pc w, fin (g.before n pc) w = (fin g w).before n pc)
    (budget : ∀ g w, (fin g w).hart.budget = g.hart.budget)
    (effect : ∀ g, (Hart.effect d).on g =
      match (act g).on g with
      | .error c => .error c
      | .ok (.ok w, g') => .ok (.ok (), fin g' w)
      | .ok (.error e, g') => .ok (.error e, g')) :
  ∃ D' code, (c₁ >>= fun _ => call addr >>= fun _ => checkFault d.pc (.ok n) >>= fun _ => c₂).on D =
    (.ok (), D') ∧ Carries env n d D D' code
  := by
  obtain ⟨⟨⟩, b, code₁, hon₁, hb, hrun₁⟩ := Computes.uniform prepare
  obtain ⟨⟨⟩, b', code₂, hon₂, hwf, hrun₂⟩ := Computes.uniform (finish b hb.1 hb.2.1)
  have hon (D₁ : Draft) (h : D₁.assignment = b) :
      (call addr >>= fun _ => checkFault d.pc (.ok n) >>= fun _ => c₂).on D₁ =
        (.ok (), (((D₁.push ((callCode addr).map .instr)).addFault
          [.instr (.test true .rdx .rdx), .branch .jne (.fault D₁.faultCount)] ⟨d.pc, n⟩).assigned
            b').push (code₂.map .instr)) := by
    rw [on_bind_ok (on_call _ _), on_bind_ok (on_checkFault _ _ _)]
    exact hon₂ _ h
  refine ⟨_, code₁.map .instr ++ (checkedItems addr D.faultCount ++ code₂.map .instr),
    (on_bind_ok (hon₁ D rfl) _).trans (hon _ rfl), ?_, hwf, ⟨rfl, rfl⟩, .inr ⟨rfl, rfl⟩, ?_⟩
  · simp [checkedItems, Draft.push, Draft.assigned, Draft.addFault]
  intro _ p g hdistinct hrep _
  obtain ⟨q, hq, hholds, hservice⟩ := hrun₁ g p (.intro hdistinct hrep)
  have hcall := exec_checked addr D.faultCount hholds.represents.base
  rw [hholds.represents.guest_eq hb.2.2, hservice, Hart.Service.reply] at hcall
  rw [Hart.step_eq_effect ends, Action.on_bind, effect, blind, Item.exec_append, hq]
  dsimp only
  rw [Item.exec_append]
  obtain ⟨c, hact, hact'⟩ | ⟨r, g', hact, hact', hhart⟩ := (memory g).on_before g n d.pc
  · rw [hact] at hcall
    rw [hact', hcall]
    rfl
  rw [hact] at hcall
  rw [hact']
  cases r with
  | error e =>
    obtain ⟨q', hret, hexec⟩ := hcall
    rw [hexec]
    refine ⟨q', g', rfl, rfl, by rw [hhart], hret.guest, hret.base.trans hholds.represents.base, rfl⟩
  | ok w =>
    obtain ⟨q', hret, hexec⟩ := hcall
    rw [hexec]
    have hfile : g'.file = g.file := by rw [Guest.file, hhart]; rfl
    have hholds' : Holds env b g' [(.rax, w)] q' :=
      (Holds.intro hdistinct (hholds.represents.served hret hfile)).cons hret.value
    obtain ⟨q'', hq'', hfinal⟩ := hrun₂ (g', w) q' hholds'
    refine ⟨q'', fin g' w, hq'', ?_, ?_, hfinal.represents⟩
    · rw [before]
      rfl
    · rw [budget, hhart]

/-- The service for single steps carries out an instruction with the budget that it had not been
charged for. -/
theorem interpret_eq (ends : d.instr.endsBlock = false) (decoded : d.IsDecoded) {g : Guest}
    (small : n < 0x80000000)
    (covered : (g.hart.budget + BitVec.ofNat 64 n).toInt = g.hart.budget.toInt + n) :
  Hart.Service.interpret (d.raw.setWidth 64) d.pc (BitVec.ofNat 64 n) g =
    match (Hart.step d).on (g.withBudget (g.hart.budget + BitVec.ofNat 64 n)) with
    | .error c => .error c
    | .ok (.ok _, g') => .ok (⟨0, false⟩, g'.withBudget g.hart.budget)
    | .ok (.error e, g') => .ok (⟨0, true⟩, (Hart.Service.raised e g').withBudget g.hart.budget)
  := by
  have hn : (BitVec.ofNat 64 n).toInt = n := by
    rw [BitVec.toInt_ofNat', Int.bmod_eq_of_le (by omega) (by omega)]
  have hadd : Hart.Service.addBudget (BitVec.ofNat 64 n) g =
      .ok (g.withBudget (g.hart.budget + BitVec.ofNat 64 n)) := by
    obtain ⟨hart, memory⟩ := g
    dsimp only at covered
    rw [Hart.Service.addBudget, Word.signedSum, if_pos (by rw [covered, hn])]
    rfl
  have hsub (g' : Guest) (h : g'.hart.budget = g.hart.budget + BitVec.ofNat 64 n) :
      Hart.Service.subBudget (BitVec.ofNat 64 n) g' = .ok (g'.withBudget g.hart.budget) := by
    obtain ⟨hart, memory⟩ := g'
    dsimp only at h
    rw [Hart.Service.subBudget, Word.signedDiff, h, BitVec.add_sub_cancel,
      if_pos (by rw [covered, hn]; omega)]
    rfl
  have hraw : Hart.Service.stepRaw ((d.raw.setWidth 64).setWidth 32) d.pc =
      Hart.step d >>= fun exit =>
        if exit = .continue then pure 0 else Action.lift (.error (.breach .endsBlock)) := by
    rw [Hart.Service.stepRaw, BitVec.setWidth_setWidth_of_le _ (by decide), BitVec.setWidth_eq,
      show Isa.decode d.raw d.pc = _ from decoded]
    refine congrArg (Hart.step d >>= ·) (funext fun exit => ?_)
    cases exit <;> rfl
  rw [Hart.Service.interpret, hadd, Except.ok_bind, Hart.Service.reply, hraw, Action.on_bind]
  obtain ⟨c, hstep, -⟩ | ⟨g', hstep, -, hbudget⟩ | ⟨e, g', hstep, -, hbudget⟩ :=
    Hart.on_step_goto ends (g.withBudget (g.hart.budget + BitVec.ofNat 64 n)) d.pc
  · rw [hstep]
    rfl
  · rw [hstep]
    show (Hart.Service.subBudget _ (g'.goto d.next) >>= _) = _
    rw [hsub (g'.goto d.next) hbudget]
    rfl
  · rw [hstep]
    show (Hart.Service.subBudget _ (Hart.Service.raised e g') >>= _) = _
    rw [hsub (Hart.Service.raised e g') hbudget]
    rfl

/-- The arguments of the service for single steps. -/
def interpretArgs (n : Nat) (d : Located) : Compile Unit := do
  sync
  instr (.movImm false .rsi (d.raw.setWidth 64))
  instr (.movImm true .rdx d.pc)
  instr (.movImm false .rcx (BitVec.ofNat 64 n))

/-- The call of the service for single steps, after which no slot holds anything. -/
def interpretCall (s : Services) (n : Nat) (d : Located) : Compile Unit := do
  call s.interpret
  let assignment ← Compile.ofExcept (← get).assignment.invalidate
  modify fun d => { d with assignment }
  checkFault d.pc (.ok n)

theorem interpreted_eq (s : Services) (n : Nat) (d : Located) :
  interpreted s (.ok n) d = interpretArgs n d >>= fun _ => interpretCall s n d
  := by
  simp only [interpreted, interpretArgs, interpretCall, bind_assoc]
  rfl

theorem computes_interpretArgs {a : Assignment} (wf : a.WellFormed) (n : Nat) (g : Guest) :
  Computes env a (Holds env a g []) (interpretArgs n d) (fun _ b => b = a.sync.2)
    (fun _ b => Holds env b g [(.rcx, ((BitVec.ofNat 64 n).setWidth 32).setWidth 64), (.rdx, d.pc),
      (.rsi, d.raw.setWidth 64)])
  := by
  have hraw : (((d.raw.setWidth 64).setWidth 32).setWidth 64 : Word) = d.raw.setWidth 64 := by
    simp
  refine (Computes.sync wf).bind ?_
  rintro _ _ rfl
  refine (Computes.movImm (by decide) Framed.nil false hraw).bind ?_
  rintro _ _ rfl
  refine (Computes.movImm (by decide) (Framed.nil.cons (IsScratch.keeps (by decide) _)
    (by decide)) true rfl).bind ?_
  rintro _ _ rfl
  refine Computes.settled (Computes.movImm (by decide) ?_ false rfl) rfl
  exact (Framed.nil.cons (IsScratch.keeps (by decide) _) (by decide)).cons
    (IsScratch.keeps (by decide) _) (by decide)

theorem on_interpretCall (s : Services) {a : Assignment} (wf : a.WellFormed) {D : Draft}
    (h : D.assignment = a.sync.2) :
  (interpretCall s n d).on D = (.ok (), ((D.push ((callCode s.interpret).map .instr)).assigned
    { clock := a.clock }).addFault
      [.instr (.test true .rdx .rdx), .branch .jne (.fault D.faultCount)] ⟨d.pc, n⟩)
  := by
  have hinvalidate : (D.push ((callCode s.interpret).map .instr)).assignment.invalidate =
      .ok { clock := a.clock } := by
    rw [show (D.push _).assignment = D.assignment from rfl, h, invalidate_sync wf.toMatched]
  rw [interpretCall, on_bind_ok (on_call _ _), on_get_bind, on_ofExcept_bind hinvalidate,
    on_assigned_bind, on_checkFault]
  rfl

variable (env n) in
/-- An instruction that the service for single steps carries out, which has a way out of its own. -/
theorem carries_interpreted (ends : d.instr.endsBlock = false) (decoded : d.IsDecoded)
    (wf : D.assignment.WellFormed) :
  ∃ D' code, (interpreted env.services (.ok n) d).on D = (.ok (), D') ∧
    D'.faults = ⟨d.pc, n⟩ :: D.faults ∧ Carries env n d D D' code
  := by
  have hargs (g : Guest) : Computes env D.assignment _ (interpretArgs n d) _ _ :=
    computes_interpretArgs wf n g
  obtain ⟨⟨⟩, b, code, hon, rfl, hrun⟩ := Computes.uniform hargs
  have hon' := on_bind_ok (hon D rfl) fun _ => interpretCall env.services n d
  rw [← interpreted_eq, on_interpretCall _ wf rfl] at hon'
  refine ⟨_, code.map .instr ++ checkedItems env.services.interpret D.faultCount, hon', rfl, ?_,
    WellFormed.empty _, ⟨rfl, rfl⟩, .inr ⟨rfl, rfl⟩, ?_⟩
  · simp [checkedItems, Draft.push, Draft.assigned, Draft.addFault]
  intro small p g hdistinct hrep hcovered
  have hn : (((BitVec.ofNat 64 n).setWidth 32).setWidth 64 : Word) = BitVec.ofNat 64 n := by
    apply BitVec.eq_of_toNat_eq
    simp only [BitVec.toNat_setWidth, BitVec.toNat_ofNat]
    omega
  obtain ⟨q, hq, hholds⟩ := hrun g p (.intro hdistinct hrep)
  have hcall := exec_checked env.services.interpret D.faultCount hholds.represents.base
  rw [hholds.represents.guest_eq wf.clean_sync, hholds.head, hn, hholds.tail.head,
    hholds.tail.tail.head, service_interpret hdistinct, interpret_eq ends decoded small hcovered]
    at hcall
  rw [Item.exec_append, hq]
  dsimp only
  have hbase := hholds.represents.base
  -- The single step differs from that of the service in the program counter only.
  have hgoto : g.before n d.pc = (g.withBudget (g.hart.budget + BitVec.ofNat 64 n)).goto d.pc := rfl
  rw [hgoto]
  obtain ⟨c, hstep, hstep'⟩ | ⟨g', hstep, hstep', hbudget⟩ | ⟨e, g', hstep, hstep', hbudget⟩ :=
    Hart.on_step_goto ends (g.withBudget (g.hart.budget + BitVec.ofNat 64 n)) d.pc
  · rw [hstep] at hcall
    rw [hstep']
    exact hcall
  · rw [hstep] at hcall
    rw [hstep']
    obtain ⟨q', hret, hexec⟩ := hcall
    refine ⟨q', (g'.goto d.next).withBudget g.hart.budget, hexec, ?_, rfl, ?_⟩
    · exact (Guest.before_withBudget (g := g'.goto d.next) hbudget d.next).symm
    · rw [← hret.guest]
      exact Represents.empty (hret.base.trans hbase) _
  · rw [hstep] at hcall
    rw [hstep']
    obtain ⟨q', hret, hexec⟩ := hcall
    refine ⟨q', g'.withBudget g.hart.budget, hexec, ?_, rfl, hret.guest, hret.base.trans hbase, rfl⟩
    exact (Guest.before_withBudget hbudget d.pc).symm

/-! ### All instructions -/

/-- The arguments of the service for loads. -/
def loadArgs (op : LoadOp) (rs1 : Nat) (imm : Word) : Compile Unit := do
  addressIn .rsi rs1 imm
  sync
  instr (.movImm false .rdx (BitVec.ofNat 64 op.code))

theorem computes_loadArgs {a : Assignment} {g : Guest} {op : LoadOp} {rs1 : Nat} {imm : Word}
    (wf : a.WellFormed) (fresh : a.pins = 0) (lt : rs1 < 32) (narrow : Instr.Fits 32 imm) :
  Computes env a (Holds env a g []) (loadArgs op rs1 imm)
    (fun _ b => b.WellFormed ∧ b.pins < slotCount ∧ b.Clean)
    (fun _ b => Holds env b g [(.rdx, BitVec.ofNat 64 op.code), (.rsi, g.value rs1 + imm)])
  := by
  have hcode : (((BitVec.ofNat 64 op.code).setWidth 32).setWidth 64 : Word) =
      BitVec.ofNat 64 op.code := by
    cases op <;> rfl
  refine (Computes.addressIn wf (by rw [fresh]; decide) lt (by decide) Framed.nil narrow).bind ?_
  intro _ b hgrown
  have hpins := hgrown.pins
  rw [fresh] at hpins
  refine (Computes.sync hgrown.wellFormed).bind ?_
  rintro _ _ rfl
  refine Computes.settled (Computes.movImm (by decide) ?_ false hcode)
    ⟨hgrown.wellFormed.sync, show b.pins < 5 by omega, hgrown.wellFormed.clean_sync⟩
  exact Framed.nil.cons (IsScratch.keeps (by decide) _) (by decide)

/-- The arguments of the service for stores. -/
def storeArgs (op : StoreOp) (rs1 rs2 : Nat) (imm : Word) : Compile Unit := do
  readInto rs2 .rdx
  addressIn .rsi rs1 imm
  sync
  instr (.movImm false .rcx (BitVec.ofNat 64 op.size))

theorem computes_storeArgs {a : Assignment} {g : Guest} {op : StoreOp} {rs1 rs2 : Nat} {imm : Word}
    (wf : a.WellFormed) (fresh : a.pins = 0) (lt : rs1 < 32) (lt' : rs2 < 32)
    (narrow : Instr.Fits 32 imm) :
  Computes env a (Holds env a g []) (storeArgs op rs1 rs2 imm)
    (fun _ b => b.WellFormed ∧ b.pins < slotCount ∧ b.Clean)
    (fun _ b => Holds env b g
      [(.rcx, BitVec.ofNat 64 op.size), (.rsi, g.value rs1 + imm), (.rdx, g.value rs2)])
  := by
  have hsize : (((BitVec.ofNat 64 op.size).setWidth 32).setWidth 64 : Word) =
      BitVec.ofNat 64 op.size := by
    cases op <;> rfl
  refine (Computes.readInto wf (by rw [fresh]; decide) lt' (by decide) Framed.nil).bind ?_
  intro _ b hgrown
  have hpins := hgrown.pins
  rw [fresh] at hpins
  refine (Computes.addressIn hgrown.wellFormed (show b.pins < 5 by omega) lt (by decide)
    (Framed.nil.cons (IsScratch.keeps (by decide) _) (by decide)) narrow).bind ?_
  intro _ b' hgrown'
  have hpins' := hgrown'.pins
  refine (Computes.sync hgrown'.wellFormed).bind ?_
  rintro _ _ rfl
  refine Computes.settled (Computes.movImm (by decide) ?_ false hsize)
    ⟨hgrown'.wellFormed.sync, show b'.pins < 5 by omega, hgrown'.wellFormed.clean_sync⟩
  exact (Framed.nil.cons (IsScratch.keeps (by decide) _) (by decide)).cons
    (IsScratch.keeps (by decide) _) (by decide)

section

variable (ends : d.instr.endsBlock = false) (decoded : d.IsDecoded) (wf : D.assignment.WellFormed)
  (fresh : D.assignment.pins = 0)

include ends decoded wf fresh

theorem carries_arith {op : AluOp} {rd rs1 : Nat} {b : Source} {low : Bool} (hrd : rd < 32)
    (hrs1 : rs1 < 32) (proper : b.IsProper)
    (effect : ∀ g, (Hart.effect d).on g =
      .ok (.ok (), g.put rd (outcome low op (g.value rs1) (b.value g)))) :
  ∃ D' code, (arith env.services (.ok n) d op rd rs1 b low).on D = (.ok (), D') ∧
    Carries env n d D D' code
  := by
  have hblind (g : Guest) (n : Nat) (pc : Word) :
      outcome low op ((g.before n pc).value rs1) (b.value (g.before n pc)) =
        outcome low op (g.value rs1) (b.value g) := by
    cases b <;> rfl
  unfold arith
  split
  case isTrue hzero =>
    subst hzero
    apply carries_of_put ends hblind _ effect
    intro g
    exact Computes.pure () wf fun p hp => hp
  split
  case h_1 code hcode =>
    apply carries_of_put ends hblind _ effect
    intro g
    refine (Computes.arithCode (arithCode_of_eq hcode) wf (by rw [fresh]; decide) hrs1
      proper).bind ?_
    intro _ a hgrown
    have hpins := hgrown.pins
    rw [fresh] at hpins
    refine (Computes.writeFrom hgrown.wellFormed (show a.pins < 5 by omega) hrd (by decide)).imp
      (fun _ h => h)
      (fun _ _ h => h.wellFormed) fun _ _ _ _ h => h
  case h_2 =>
    obtain ⟨D', code, hon, -, hcarries⟩ := carries_interpreted env n ends decoded wf
    exact ⟨D', code, hon, hcarries⟩

theorem carries_load {op : LoadOp} {rd rs1 : Nat} {imm : Word}
    (instr : d.instr = .load op rd rs1 imm) :
  ∃ D' code, (located env.services (.ok n) d).on D = (.ok (), D') ∧ Carries env n d D D' code
  := by
  obtain ⟨hrd, hrs1, himm⟩ : rd < 32 ∧ rs1 < 32 ∧ Instr.Fits 32 imm := by
    have := decoded.proper
    rwa [instr] at this
  have heq : located env.services (.ok n) d =
      loadArgs op rs1 imm >>= fun _ => call env.services.load >>= fun _ =>
        checkFault d.pc (.ok n) >>= fun _ => writeFrom rd .rax := by
    unfold located
    rw [instr]
    simp only [loadArgs, bind_assoc]
  rw [heq]
  apply carries_of_reply (fun g => op.extend <$> Hart.load (g.value rs1 + imm) op.size)
    (fun g w => g.put rd w) ends
  · intro g
    refine (computes_loadArgs wf fresh hrs1 himm).imp (fun _ h => h) (fun _ _ h => h) ?_
    intro _ b q _ hq
    refine ⟨hq.nil, ?_⟩
    rw [service_load, hq.head, hq.tail.head]
    cases op <;> rfl
  · intro b hb hpins x
    refine (Computes.writeFrom hb hpins hrd (by decide)).imp (fun _ h => h)
      (fun _ _ h => h.wellFormed) fun _ _ _ _ h => h
  · intro g
    rw [map_eq_pure_bind]
    exact (Guest.isMemoryAction_onMemory _ _).bind_pure _
  · intro g n pc
    rfl
  · intro g n pc w
    exact Guest.put_before g n pc rd w
  · intro g w
    rfl
  · intro g
    unfold Hart.effect
    rw [instr]
    dsimp only
    rw [Action.on_bind, Guest.on_reg g hrs1]
    dsimp only
    rw [Action.on_bind, Action.on_map]
    rcases (Hart.load (g.value rs1 + imm) op.size).on g with c | ⟨e | w, g'⟩
    · rfl
    · rfl
    · exact Guest.on_setReg g' hrd _

theorem carries_store {op : StoreOp} {rs1 rs2 : Nat} {imm : Word}
    (instr : d.instr = .store op rs1 rs2 imm) :
  ∃ D' code, (located env.services (.ok n) d).on D = (.ok (), D') ∧ Carries env n d D D' code
  := by
  obtain ⟨hrs1, hrs2, himm⟩ : rs1 < 32 ∧ rs2 < 32 ∧ Instr.Fits 32 imm := by
    have := decoded.proper
    rwa [instr] at this
  have heq : located env.services (.ok n) d =
      storeArgs op rs1 rs2 imm >>= fun _ => call env.services.store >>= fun _ =>
        checkFault d.pc (.ok n) >>= fun _ => pure () := by
    unfold located
    rw [instr]
    simp only [storeArgs, bind_assoc, bind_pure_unit]
  rw [heq]
  apply carries_of_reply
    (fun g => do Hart.store (g.value rs1 + imm) op.size (g.value rs2); return 0) (fun g _ => g) ends
  · intro g
    obtain ⟨r, b, code, hon, hs, hrun⟩ := computes_storeArgs (g := g) wf fresh hrs1 hrs2 himm
    refine ⟨r, b, code, hon, hs, fun p hp => ?_⟩
    obtain ⟨q, hq, hholds⟩ := hrun p hp
    refine ⟨q, hq, hholds.nil, ?_⟩
    rw [service_store hp.distinct, hholds.head, hholds.tail.head, hholds.tail.tail.head]
    cases op <;> rfl
  · intro b hb _ x
    exact Computes.pure () hb fun p hp => hp.tail
  · intro g
    exact (Guest.isMemoryAction_onMemory _ _).bind_pure _
  · intro g n pc
    rfl
  · intro g n pc w
    rfl
  · intro g w
    rfl
  · intro g
    unfold Hart.effect
    rw [instr]
    dsimp only
    rw [Action.on_bind, Guest.on_reg g hrs1]
    dsimp only
    rw [Action.on_bind, Guest.on_reg g hrs2]
    dsimp only
    rw [Action.on_bind]
    rcases (Hart.store (g.value rs1 + imm) op.size (g.value rs2)).on g with c | ⟨e | w, g'⟩
    · rfl
    · rfl
    · rfl

/-- The code of an instruction that does not end its block carries it out. -/
theorem carries_located :
  ∃ D' code, (located env.services (.ok n) d).on D = (.ok (), D') ∧ Carries env n d D D' code
  := by
  have hproper := decoded.proper
  have hroom : D.assignment.pins < slotCount := by rw [fresh]; decide
  have hpure (h : ∀ g, (Hart.effect d).on g = .ok (.ok (), g)) :
      ∃ D' code, (pure () : Compile Unit).on D = (.ok (), D') ∧ Carries env n d D D' code :=
    carries_of_put (r := 0) (v := fun _ => 0) ends (fun _ _ _ => rfl)
      (fun g => Computes.pure () wf fun p hp => hp) h
  have hconst {rd : Nat} (lt : rd < 32) (v : Word)
      (h : ∀ g, (Hart.effect d).on g = .ok (.ok (), g.put rd v)) :
      ∃ D' code, (writeImm rd v).on D = (.ok (), D') ∧ Carries env n d D D' code := by
    apply carries_of_put (v := fun _ => v) ends (fun _ _ _ => rfl) _ h
    have hnone : ∀ f ∈ ([] : List (Reg × Word)), IsScratch f.1 := fun _ hf => (nomatch hf)
    intro g
    refine (Computes.writeImm wf hroom lt hnone v).imp (fun _ h => h)
      (fun _ _ h => h.wellFormed) fun _ _ _ _ h => h
  have hone {rd rs1 : Nat} (hrd : rd < 32) (hrs1 : rs1 < 32) (f : Word → Word) (g : Guest) :
      (do Guest.setReg rd (f (← Guest.reg rs1)) : Hart.Effect Unit).on g =
        .ok (.ok (), g.put rd (f (g.value rs1))) := by
    rw [Action.on_bind, Guest.on_reg g hrs1]
    exact Guest.on_setReg g hrd _
  have htwo {rd rs1 rs2 : Nat} (hrd : rd < 32) (hrs1 : rs1 < 32) (hrs2 : rs2 < 32)
      (f : Word → Word → Word) (g : Guest) :
      (do let a ← Guest.reg rs1
          let b ← Guest.reg rs2
          Guest.setReg rd (f a b) : Hart.Effect Unit).on g =
        .ok (.ok (), g.put rd (f (g.value rs1) (g.value rs2))) := by
    rw [Action.on_bind, Guest.on_reg g hrs1]
    exact hone hrd hrs2 (f (g.value rs1)) g
  cases hinstr : d.instr with
  | load op rd rs1 imm => exact carries_load ends decoded wf fresh hinstr
  | store op rs1 rs2 imm => exact carries_store ends decoded wf fresh hinstr
  | jal | jalr | branch | ecall | ebreak | fenceI =>
    rw [hinstr] at ends
    cases ends
  | lui rd imm =>
    rw [hinstr] at hproper
    unfold located
    rw [hinstr]
    apply hconst hproper
    intro g
    unfold Hart.effect
    rw [hinstr]
    exact Guest.on_setReg g hproper _
  | auipc rd imm =>
    rw [hinstr] at hproper
    unfold located
    rw [hinstr]
    apply hconst hproper
    intro g
    unfold Hart.effect
    rw [hinstr]
    exact Guest.on_setReg g hproper _
  | opImm op rd rs1 imm =>
    rw [hinstr] at hproper
    unfold located
    rw [hinstr]
    apply carries_arith (b := .imm imm) ends decoded wf fresh hproper.1 hproper.2.1 hproper.2.2
    intro g
    unfold Hart.effect
    rw [hinstr]
    exact hone hproper.1 hproper.2.1 _ g
  | opImm32 op rd rs1 imm =>
    rw [hinstr] at hproper
    unfold located
    rw [hinstr]
    apply carries_arith (b := .imm imm) ends decoded wf fresh hproper.1 hproper.2.1 hproper.2.2
    intro g
    unfold Hart.effect
    rw [hinstr]
    exact hone hproper.1 hproper.2.1 _ g
  | op op rd rs1 rs2 =>
    rw [hinstr] at hproper
    unfold located
    rw [hinstr]
    apply carries_arith (b := .reg rs2) ends decoded wf fresh hproper.1 hproper.2.1 hproper.2.2
    intro g
    unfold Hart.effect
    rw [hinstr]
    exact htwo hproper.1 hproper.2.1 hproper.2.2 _ g
  | op32 op rd rs1 rs2 =>
    rw [hinstr] at hproper
    unfold located
    rw [hinstr]
    apply carries_arith (b := .reg rs2) ends decoded wf fresh hproper.1 hproper.2.1 hproper.2.2
    intro g
    unfold Hart.effect
    rw [hinstr]
    exact htwo hproper.1 hproper.2.1 hproper.2.2 _ g
  | fence pred succ =>
    unfold located
    rw [hinstr]
    apply hpure
    intro g
    unfold Hart.effect
    rw [hinstr]
    rfl
  | amo | csr | fpLoad | fpStore | fpFma | fpOp =>
    unfold located
    rw [hinstr]
    obtain ⟨D', code, hon, -, hcarries⟩ := carries_interpreted env n ends decoded wf
    exact ⟨D', code, hon, hcarries⟩

end

end Host

end CrossHart
