import CrossHart.Proofs.Cache.Execution
import CrossHart.Proofs.Cache.Sources
import CrossHart.Proofs.Machine.Calls

/-!
# Turns of the engine

A turn in which compiled code is entered is what interpreting its instructions, one after the other,
makes of a twin.  The code that is live was compiled from instructions that are in memory; this is so
as long as the bytes of these instructions are spared.
-/

namespace CrossHart

open CrossHart.Action Isa Cache Host

variable {allows : Memory.Query → Bool} {η : Type}

/-! ### The bytes of live blocks -/

/-- A block of the guest that memory holds. -/
structure Block.IsSource (allows : Memory.Query → Bool) (s : Memory.Space) (block : Block) : Prop where
  formed : block.IsFormed
  small : block.count < 0x80000000
  held : ∀ d ∈ block.insns, s.Holds allows d

namespace Block

theorem IsRun.widths_le {pc stop : Word} {ds : List Located} {e : Ending} (h : IsRun pc ds e stop) :
  widths ds ≤ 4 * ds.length
  := by
  have hwidth {d : Located} (decoded : d.IsDecoded) : d.width ≤ 4 := by
    obtain hd | hd := decoded.width_eq <;> omega
  induction h with
  | last decoded => simpa [widths] using hwidth decoded
  | limit decoded => simpa [widths] using hwidth decoded
  | cons decoded _ _ ih =>
    have := hwidth decoded
    simp only [widths, List.map_cons, List.sum_cons, List.length_cons] at ih ⊢
    omega

end Block

/-- A byte of the guest is one from which a block was compiled. -/
def Cache.Compiled.Spans (b : Compiled) (addr : Word) : Prop :=
  (addr - b.pc).toNat < (b.endPc - b.pc).toNat

instance (b : Compiled) (addr : Word) : Decidable (b.Spans addr) :=
  inferInstanceAs (Decidable (_ < _))

/-- The bytes of a compiled block are those of the block of the guest. -/
theorem Cache.Compiled.spans_iff {b : Compiled} {block : Block} (formed : block.IsFormed)
    (small : block.count < 0x80000000) (pc : b.pc = block.pc) (endPc : b.endPc = block.endPc)
    (addr : Word) :
  b.Spans addr ↔ block.Covers addr
  := by
  have hwidths : Block.widths block.insns < 2 ^ 64 := by
    have hle := formed.widths_le
    have hcount : block.insns.length < 0x80000000 := small
    omega
  have hsize : (b.endPc - b.pc).toNat = Block.widths block.insns := by
    rw [pc, endPc, formed.stop_eq, BitVec.add_comm, BitVec.add_sub_cancel, BitVec.toNat_ofNat]
    exact Nat.mod_eq_of_lt hwidths
  rw [Spans, hsize, pc, Block.Covers, formed.cover_iff]
  constructor
  · intro hlt
    refine ⟨(addr - block.pc).toNat, hlt, ?_⟩
    rw [BitVec.ofNat_toNat, BitVec.setWidth_eq, BitVec.add_comm, BitVec.sub_add_cancel]
  · rintro ⟨k, hk, rfl⟩
    rw [BitVec.add_comm, BitVec.add_sub_cancel, BitVec.toNat_ofNat]
    exact Nat.lt_of_le_of_lt (Nat.mod_le _ _) hk

namespace CodeCache

variable {c : CodeCache} {s s' : Memory.Space}

/-- The bytes of live blocks stay as they are. -/
def Spares (c : CodeCache) (s s' : Memory.Space) : Prop :=
  ∀ id b, c.block? id = some b → ∀ addr, b.Spans addr → s'.byteAt addr = s.byteAt addr

/-- Where the bytes of live blocks stay as they are, memory holds the blocks. -/
theorem Intact.of_spares {m : Memory} (plain : m.Plain allows)
    (intact : c.Intact (Block.IsSource allows m.space)) (layout : m.space.SameLayout s')
    (spares : c.Spares m.space s') :
  c.Intact (Block.IsSource allows s')
  := by
  refine intact.imp fun id b block live pc endPc _ source => ?_
  refine ⟨source.formed, source.small, fun d hd => ?_⟩
  refine plain.holds_of_holds (source.held d hd) layout fun k hk => ?_
  obtain ⟨b', hb', rfl⟩ := Table.bare_eq_some.mp live
  refine spares id b' hb' _ ?_
  exact (Compiled.spans_iff source.formed source.small pc endPc _).mpr ⟨d, hd, k, hk, rfl⟩

end CodeCache

namespace Machine

variable {handler : Handler η} {m x : Machine} {c : CodeCache} {h : η} {id : Nat} {b : Compiled}

/-- The code cache of a machine, with blocks that memory holds. -/
structure Stocked (allows : Memory.Query → Bool) (m : Machine) (c : CodeCache) : Prop where
  cache : m.cache = some c
  distinct : c.services.Distinct
  intact : c.Intact (Block.IsSource allows m.guest.memory.space)

/-! ### Compilation -/

/-- The engine looks for compiled code. -/
structure Offers (allows : Memory.Query → Bool) (m : Machine) (pc : Word)
    (r : Option Nat × Machine) : Prop where
  hart : r.2.guest.hart = m.guest.hart
  memory : m.guest.memory.Looks allows r.2.guest.memory
  stocked : ∃ c, r.2.Stocked allows c ∧ ∀ id, r.1 = some id → ∃ b, c.block? id = some b ∧ b.pc = pc

/-- What looking for compiled code comes to.  There is a block at the address, or memory is read to form
one, which is installed if there is room.  What all live blocks satisfied, and the new one satisfies,
all live blocks satisfy then. -/
structure Supplies (P : Block → Prop) (m : Machine) (pc : Word) (formed : Except CompileError Block)
    (memory : Memory) (r : Option Nat × Machine) (c : CodeCache) : Prop where
  hart : r.2.guest.hart = m.guest.hart
  entries : r.2.entries = m.entries
  interpreted : r.2.interpreted = m.interpreted
  cache : r.2.cache = some c
  distinct : c.services.Distinct
  live : ∀ id, r.1 = some id → ∃ b, c.block? id = some b ∧ b.pc = pc
  memory : r.2.guest.memory = m.guest.memory ∧ c.Intact P ∨ r.2.guest.memory = memory ∧
    ∀ Q : Block → Prop, (∀ block, P block → Q block) →
      (∀ block, formed = .ok block → block.IsFormed → block.count < 0x80000000 → Q block) →
      c.Intact Q

theorem compiled_supplies {P : Block → Prop} (cache : m.cache = some c)
    (distinct : c.services.Distinct) (intact : c.Intact P) {pc : Word}
    {formed : Except CompileError Block} {memory : Memory}
    (forms : (Block.form Memory.fetch pc m.config.blockLimit).on m.guest.memory =
      .ok (formed, memory)) :
  Meets True (m.compiled pc) fun r => ∃ c', m.Supplies P pc formed memory r c'
  := by
  obtain ⟨⟨hart, memory₀⟩, cache', config, failures, entries, interpreted⟩ := m
  dsimp only at cache forms
  subst cache
  have hlooked := CodeCache.lookup_intact intact pc
  have hlookup := CodeCache.lookup_eq intact.linked.jumps pc
  have hsnd := CodeCache.lookup_snd c pc
  have hsame : (c.lookup pc).2.services.Distinct := by
    rw [hsnd]
    exact distinct
  have hindex : (c.lookup pc).2.index = c.index := by
    rw [hsnd]
  unfold compiled
  dsimp only
  split
  case h_1 id c₁ hfound =>
    rw [hfound] at hlooked hlookup hsame hindex
    refine .ok ⟨c₁, rfl, rfl, rfl, rfl, hsame, ?_, .inl ⟨rfl, hlooked⟩⟩
    rintro _ ⟨⟩
    dsimp only at hlookup hindex hlooked
    rw [← hindex] at hlookup
    obtain ⟨b, hb, hpc⟩ := (hlooked.linked.index pc id).mp hlookup.symm
    obtain ⟨b', hb', rfl⟩ := Table.bare_eq_some.mp hb
    exact ⟨b', hb', hpc⟩
  case h_2 c₁ hfound =>
    rw [hfound] at hlooked hlookup hsame hindex
    dsimp only at hlooked hlookup hsame hindex
    have himp (Q : Block → Prop) (hQ : ∀ block, P block → Q block) : c₁.Intact Q :=
      hlooked.imp fun _ _ block _ _ _ _ => hQ block
    rw [forms, Except.ok_bind]
    cases formed with
    | error e =>
      exact .ok ⟨c₁, rfl, rfl, rfl, rfl, hsame, nofun, .inr ⟨rfl, fun Q hQ _ => himp Q hQ⟩⟩
    | ok block =>
      obtain ⟨hformed, rfl⟩ := Block.isFormed_of_form forms
      have hsmall (hroom : codeBound block ≤ c₁.buffer.capacity) : block.count < 0x80000000 := by
        have hlow := hlooked.low
        exact count_lt_of_codeBound (by omega)
      have hinstall (Q : Block → Prop) (hQ : ∀ block, P block → Q block)
          (hblock : block.count < 0x80000000 → Q block) :=
        CodeCache.install_intact (himp Q hQ) hformed (fun hroom => hblock (hsmall hroom))
          (hindex ▸ hlookup.symm)
      obtain ⟨⟨result, c₂⟩, hresult, -, hinstalls⟩ :=
        (hinstall (fun _ => True) (fun _ _ => trivial) fun _ => trivial).exists_ok trivial
      have hkept : c₂.services.Distinct := by
        rw [(hinstalls.keeps hlooked.arena).2.services]
        exact hsame
      have hall : ∀ Q : Block → Prop, (∀ block, P block → Q block) →
          (∀ block', (.ok block : Except CompileError Block) = .ok block' → block'.IsFormed →
            block'.count < 0x80000000 → Q block') → c₂.Intact Q :=
        fun Q hQ hblock => ((hinstall Q hQ (hblock block rfl hformed)).post_of_eq hresult).1
      dsimp only
      rw [hresult, Except.ok_bind]
      cases hinstalls with
      | refused => exact .ok ⟨_, rfl, rfl, rfl, rfl, hkept, nofun, .inr ⟨rfl, hall⟩⟩
      | @placed _ _ id _ _ _ _ _ _ _ _ _ _ places =>
        refine .ok ⟨_, rfl, rfl, rfl, rfl, hkept, ?_, .inr ⟨rfl, hall⟩⟩
        rintro _ ⟨⟩
        have hbare := congrFun places.bare id
        rw [Function.update_self] at hbare
        obtain ⟨b', hb', hsame⟩ := Table.bare_eq_some.mp hbare
        refine ⟨b', hb', ?_⟩
        exact congrArg Compiled.pc hsame

/-- Looking for compiled code, and compiling a block, looks at memory. -/
theorem compiled_offers (stocked : m.Stocked allows c) (plain : m.guest.memory.Plain allows)
    (pc : Word) :
  Meets True (m.compiled pc) (m.Offers allows pc)
  := by
  obtain ⟨⟨formed, memory⟩, hform, hlooks⟩ :=
    (Memory.stays_form pc m.config.blockLimit _ plain.looks).exists_ok trivial
  dsimp only at hlooks
  refine (compiled_supplies stocked.cache stocked.distinct stocked.intact hform).imp ?_
  rintro ⟨id, m'⟩ ⟨c', supplies⟩
  obtain ⟨hmemory, hintact⟩ | ⟨hmemory, hintact⟩ := supplies.memory
  · dsimp only at hmemory
    rw [← hmemory] at hintact
    refine ⟨supplies.hart, ?_, c', ⟨supplies.cache, supplies.distinct, hintact⟩, supplies.live⟩
    rw [hmemory]
    exact plain.looks
  · dsimp only at hmemory
    have hsource : c'.Intact (Block.IsSource allows m'.guest.memory.space) := by
      rw [hmemory, hlooks.space]
      refine hintact _ (fun _ source => source) ?_
      rintro block rfl hformed hsmall
      exact ⟨hformed, hsmall, plain.holds_of_form hform⟩
    refine ⟨supplies.hart, ?_, c', ⟨supplies.cache, supplies.distinct, hsource⟩, supplies.live⟩
    rw [hmemory]
    exact hlooks

/-! ### Compiled code -/

/-- The number of instructions that compiled code carries out when it is entered at a block. -/
def extent (m : Machine) (id : Nat) : Nat :=
  match m.cache with
  | none => 0
  | some c =>
    match c.enter id m.guest with
    | .ok (_, g) => m.guest.hart.budget.toNat - g.hart.budget.toNat
    | .error _ => 0

/-- A breakpoint is raised at the address where it is. -/
theorem eq_breakpoint_of_steps {ds : List Located} {g g' : Guest} {e : Exception}
    (track : Hart.OnTrack ds g) (steps : Hart.steps ds g = .ok (.error e, g'))
    (breakpoint : e.cause = .breakpoint) :
  e = ⟨.breakpoint, g'.hart.regs.pc⟩
  := by
  induction ds generalizing g with
  | nil => cases steps
  | cons d ds ih =>
    obtain ⟨hpc, hrest⟩ := track
    cases hstep : (Hart.step d).on g with
    | error c =>
      rw [Hart.steps, hstep] at steps
      cases steps
    | ok result =>
      obtain ⟨r, g₁⟩ := result
      rw [Hart.steps_cons d ds hstep] at steps
      split at steps
      case isTrue hcontinue =>
        subst hcontinue
        exact ih (hrest g₁ hstep) steps
      case isFalse =>
        cases steps
        have hraised := Hart.eq_breakpoint hstep breakpoint
        have hsame := Hart.pc_of_step_error hstep
        have hpc' : (Hart.settle (.error e) g₁).hart.regs.pc = g₁.hart.regs.pc := by
          unfold Hart.settle
          split <;> rfl
        rw [hpc', hsame, ← hpc]
        exact hraised

/-- The engine finds the guest with an exception left in its hart, and nothing else changed. -/
theorem observed_eq (r : Except Exception Hart.StepExit) (g : Guest) :
  ∃ cause tval, observed r g = ⟨{ g.hart with cause, tval }, g.memory⟩
  := by
  unfold observed
  split
  · exact ⟨_, _, rfl⟩
  · split
    · exact ⟨_, _, rfl⟩
    · exact ⟨_, _, rfl⟩

/-- What follows when compiled code is back at the engine is decided by how its instructions
ended. -/
theorem afterCode_eq {reason : ExitReason} {r : Except Exception Hart.StepExit} {g : Guest}
    (tells : CodeCache.Tells reason r) (pc : m.guest.hart.regs.pc = g.hart.regs.pc)
    (breakpoint : ∀ e, r = .error e → e.cause = .breakpoint →
      e = ⟨.breakpoint, g.hart.regs.pc⟩)
    (cause : m.guest.hart.cause = (observed r g).hart.cause)
    (tval : m.guest.hart.tval = (observed r g).hart.tval) (handler : Handler η) (h : η) :
  afterCode handler reason m h = finish handler r m h
  := by
  obtain ⟨rfl, rfl⟩ | ⟨ending, rfl⟩ := tells
  · rfl
  match r with
  | .ok .continue =>
    unfold departure
    dsimp only
    split <;> rfl
  | .ok .ecall => rfl
  | .ok .fenceI => rfl
  | .error e =>
    unfold departure observed at *
    dsimp only at *
    split at cause
    case isTrue hbreak =>
      rw [if_pos hbreak, breakpoint e rfl hbreak]
      unfold afterCode finish
      dsimp only
      rw [pc]
      rfl
    case isFalse hbreak =>
      rw [if_neg hbreak] at tval ⊢
      have hcause : Cause.ofCode? m.guest.hart.cause.toNat = some e.cause := by
        have hcode : (BitVec.ofNat 64 e.cause.code).toNat = e.cause.code := by
          cases e.cause <;> rfl
        rw [cause, Hart.Service.raised]
        dsimp only
        rw [hcode, Cause.ofCode?_code]
      unfold afterCode
      dsimp only
      rw [hcause, tval]
      rfl

/-- The machine after a run of compiled code. -/
def returned (m : Machine) (guest : Guest) : Machine :=
  { m with guest, entries := m.entries + 1 }

theorem runCode_eq (cache : m.cache = some c)
    (level : m.guest.hart.budgetStart = m.guest.hart.budget) {reason : ExitReason} {g : Guest}
    (enter : c.enter id m.guest = .ok (reason.code, g)) (handler : Handler η) (h : η) :
  runCode handler id m h = retireRun g.hart >>= fun hart =>
    afterCode handler reason (m.returned ⟨hart, g.memory⟩) h
  := by
  obtain ⟨⟨hart, memory⟩, cache', config, failures, entries, interpreted⟩ := m
  dsimp only at cache level enter
  subst cache
  have hsame : { hart with budgetStart := hart.budget } = hart := by
    cases hart
    cases level
    rfl
  unfold runCode
  dsimp only
  rw [hsame, enter, Except.ok_bind]
  obtain ⟨hart', memory'⟩ := g
  dsimp only
  cases hretired : retireRun hart' with
  | error c => rw [Except.error_bind, Except.error_bind]
  | ok hart'' =>
    rw [Except.ok_bind, Except.ok_bind, ExitReason.ofCode?_code]
    rfl

/-- Interpreting at most so many instructions leaves the bytes of live blocks as they are. -/
def Spares (handler : Handler η) (m : Machine) (h : η) (count : Nat) : Prop :=
  ∀ c, m.cache = some c → ∀ n ≤ count, ∀ m' h', Interprets handler m h n m' h' →
    c.Spares m.guest.memory.space m'.guest.memory.space

/-- A turn in which compiled code is entered is what interpreting the instructions makes of a
twin. -/
theorem runCode_pairs (regular : Handler.IsRegular allows handler) (twins : Twins allows m x)
    (stocked : m.Stocked allows c) (live : c.block? id = some b)
    (at_pc : b.pc = m.guest.hart.regs.pc) (covered : b.count ≤ m.guest.hart.budget.toInt)
    (spared : m.Spares handler h (m.extent id)) :
  ∃ n x₁, Interprets handler x h n x₁ h ∧ 0 < x₁.guest.hart.budget.toInt ∧
    Pairs (Fails allows handler h m.guest.hart.horizon)
      (fun r r' => Follows allows m (n + 1) r r' ∧ (r.1 = none → n + 1 ≤ m.extent id))
      (runCode handler id m h) (interpretOne handler x₁ h)
  := by
  obtain ⟨ds, r, g, reason, hne, hosted, htrack, hsteps, hcovered, htells, henter⟩ :=
    CodeCache.exists_enter stocked.intact (fun block source => ⟨source.formed, source.small⟩)
      stocked.distinct live (Memory.isRoutine_evolves allows) twins.plain.evolves covered
  have hgoto : m.guest.goto b.pc = m.guest := by
    rw [at_pc]
    rfl
  rw [hgoto] at htrack hsteps
  have hheld : ∀ d ∈ ds, m.guest.memory.space.Holds allows d ∧ ∀ k < d.width,
      ∃ id b, c.block? id = some b ∧ b.Spans (d.pc + BitVec.ofNat 64 k) := by
    intro d hd
    obtain ⟨block, ⟨source, id, b, hbare, hpc, hend, -⟩, hd⟩ := hosted d hd
    obtain ⟨b', hb', rfl⟩ := Table.bare_eq_some.mp hbare
    refine ⟨source.held d hd, fun k hk => ⟨id, b', hb', ?_⟩⟩
    exact (Compiled.spans_iff source.formed source.small hpc hend _).mpr ⟨d, hd, k, hk, rfl⟩
  have hproper : ∀ d ∈ ds, d.instr.IsProper := fun d hd => twins.plain.proper (hheld d hd).1
  have hmeets : Meets True (Hart.steps ds m.guest) _ := Hart.steps_meets twins.plain hproper
  obtain ⟨hmemory, hstart, hretired, -⟩ := hmeets.post_of_eq hsteps
  dsimp only at hmemory hstart hretired
  obtain ⟨hbudget, -⟩ := budget_of_steps twins.plain hproper hcovered hsteps
  obtain ⟨cause, tval, hobserved⟩ := observed_eq r g
  have hextent : m.extent id = m.guest.hart.budget.toNat - g.hart.budget.toNat := by
    rw [extent, stocked.cache]
    dsimp only
    rw [henter, hobserved]
  have halong : Hart.Along (Found allows) ds m.guest := by
    have hzero : Interprets handler m h 0 m h := .zero
    refine along_found (S := fun addr => ∃ id b, c.block? id = some b ∧ b.Spans addr) twins.plain
      hzero twins.self.alike (.refl _) twins.plain hcovered htrack hheld hsteps ?_ (Nat.zero_add _)
    rintro n m' hn hrun addr ⟨id, b, hb, hspans⟩
    exact spared c stocked.cache n (by omega) m' h hrun id b hb addr hspans
  obtain ⟨n, x₁, hrun, hleft, hways⟩ :=
    interprets_steps hne twins.alike twins.plain hcovered hproper halong hsteps
  refine ⟨n, x₁, hrun, hleft, ?_⟩
  rw [runCode_eq stocked.cache twins.level henter, hobserved]
  obtain ⟨x₂, hx₂, halike, hpaid⟩ | ⟨hfull, hx₁⟩ := hways
  · have hcounts : Hart.Counts { g.hart with cause, tval } x₂.guest.hart :=
      halike.1.withRaised cause tval
    obtain ⟨hart, hretire, hcounts', hlevel, hsame, hcause, htval⟩ := hcounts.retireRun
    have hbudget' : hart.budget = g.hart.budget := hsame
    have hpc : hart.regs.pc = g.hart.regs.pc := by
      rw [← hcounts'.regs, halike.1.regs]
    have hafter := afterCode_eq (m := m.returned ⟨hart, g.memory⟩) htells hpc
      (fun e he => eq_breakpoint_of_steps htrack (he ▸ hsteps)) (by rw [hobserved]; exact hcause)
      (by rw [hobserved]; exact htval) handler h
    have htwins : Twins allows (m.returned ⟨hart, g.memory⟩) x₂ :=
      ⟨⟨hcounts', halike.2⟩, hmemory.after, hlevel⟩
    have hhorizon : hart.horizon = m.guest.hart.horizon := by
      rw [← hcounts'.horizon_eq, halike.1.horizon_eq, Hart.horizon, Hart.horizon, hstart, hretired]
    have hsettled : Settled allows m (m.returned ⟨hart, g.memory⟩) r (n + 1) := by
      refine ⟨⟨hmemory, hhorizon⟩, rfl, fun hcharges => ?_⟩
      rw [← hpaid hcharges, ← hbudget']
      rfl
    rw [hretire, Except.ok_bind, hafter, hx₂]
    refine (finish_pairs regular htwins hsettled h).known.imp (fun _ _ known => known) ?_
    rintro t t' ⟨follows, hfinish, -⟩
    refine ⟨follows, fun hnone => ?_⟩
    have hspent := hpaid (charges_of_finish hfinish hnone)
    omega
  · have hspent : g.hart.budget.toNat ≤ g.hart.budgetStart.toNat := by
      rw [hstart, twins.level]
      exact hbudget
    have hsigned : g.hart.budgetStart.toNat < 2 ^ 63 := by
      rw [hstart]
      exact twins.alike.1.signed
    have hoverflow : retireRun { g.hart with cause, tval } = .error .overflow :=
      Hart.retireRun_overflow hspent hsigned hfull
    rw [hoverflow, Except.error_bind, hx₁]
    refine .crash (.inr ⟨rfl, ?_⟩)
    have hle := g.hart.total_le_horizon
    rw [Hart.horizon, hstart, hretired, ← Hart.horizon] at hle
    omega

/-! ### Whole turns -/

/-- A turn after compilation. -/
def proceed (handler : Handler η) (id : Option Nat) (m : Machine) (h : η) : Except Crash (Turn η) :=
  match m.affordable id with
  | some id => runCode handler id m h
  | none => interpretOne handler m h

/-- The greatest number of instructions that a turn carries out after compilation. -/
def stride (m : Machine) (id : Option Nat) : Nat :=
  match m.affordable id with
  | some id => m.extent id
  | none => 1

theorem turn_eq {id : Option Nat} {m₁ : Machine}
    (compiled : m.compiled m.guest.hart.regs.pc = .ok (id, m₁)) (handler : Handler η) (h : η) :
  turn handler m h = proceed handler id m₁ h
  := by
  rw [turn, compiled, Except.ok_bind]
  rfl

theorem covered_of_affordable {id : Option Nat} {id' : Nat} (cache : m.cache = some c)
    (affordable : m.affordable id = some id') :
  id = some id' ∧ ∀ b, c.block? id' = some b → b.count ≤ m.guest.hart.budget.toInt
  := by
  rw [Machine.affordable, Option.filter_eq_some_iff, cache] at affordable
  obtain ⟨hid, hcovered⟩ := affordable
  refine ⟨hid, fun b hb => ?_⟩
  rw [Option.bind_some, hb] at hcovered
  exact of_decide_eq_true hcovered

/-- A turn after compilation is what interpreting some instructions makes of a twin. -/
theorem proceed_pairs (regular : Handler.IsRegular allows handler) (twins : Twins allows m x)
    (stocked : m.Stocked allows c) (left : 0 < m.guest.hart.budget.toNat) {id : Option Nat}
    (live : ∀ i, id = some i → ∃ b, c.block? i = some b ∧ b.pc = m.guest.hart.regs.pc)
    (spared : m.Spares handler h (m.stride id)) :
  ∃ n x₁, Interprets handler x h n x₁ h ∧ 0 < x₁.guest.hart.budget.toInt ∧
    Pairs (Fails allows handler h m.guest.hart.horizon)
      (fun r r' => Follows allows m (n + 1) r r' ∧ (r.1 = none → n + 1 ≤ m.stride id))
      (proceed handler id m h) (interpretOne handler x₁ h)
  := by
  unfold proceed
  unfold stride at spared ⊢
  split
  case h_1 id' haffordable =>
    rw [haffordable] at spared
    obtain ⟨rfl, hcovered⟩ := covered_of_affordable stocked.cache haffordable
    obtain ⟨b, hb, hpc⟩ := live id' rfl
    exact runCode_pairs regular twins stocked hb hpc (hcovered b hb) spared
  case h_2 =>
    refine ⟨0, x, .zero, budget_pos twins.alike left, ?_⟩
    exact (interpretOne_pairs regular twins left h).imp (fun _ _ known => known)
      fun _ _ follows => ⟨follows, fun _ => Nat.le_refl 1⟩

/-- The bytes of live blocks are spared, so memory holds them after a turn. -/
theorem stocked_of_proceed (regular : Handler.IsRegular allows handler) (twins : Twins allows m m)
    (stocked : m.Stocked allows c) (left : 0 < m.guest.hart.budget.toNat) {id : Option Nat}
    (live : ∀ i, id = some i → ∃ b, c.block? i = some b ∧ b.pc = m.guest.hart.regs.pc)
    (spared : m.Spares handler h (m.stride id)) {m' : Machine} {h' : η}
    (on : proceed handler id m h = .ok (none, m', h')) :
  ∃ c', m'.Stocked allows c'
  := by
  obtain ⟨n, x₁, hrun, hleft, hpairs⟩ := proceed_pairs regular twins stocked left live spared
  have hknown := hpairs.known
  rw [on] at hknown
  generalize hx : interpretOne handler x₁ h = y at hknown
  cases hknown with
  | @ok _ t related =>
    obtain ⟨⟨follows, hstride⟩, -⟩ := related
    obtain ⟨exit, x', h''⟩ := t
    obtain rfl : none = exit := follows.exit
    obtain rfl : h' = h'' := follows.state
    have hspares := spared c stocked.cache (n + 1) (hstride rfl) x' h' (hrun.succ hleft hx)
    have hspace : m'.guest.memory.space = x'.guest.memory.space := follows.twins.alike.2.space
    rw [← hspace] at hspares
    have hintact := stocked.intact.of_spares twins.plain follows.keeps.memory.layout hspares
    obtain hcache | hcache := follows.cache
    · exact ⟨c, hcache.trans stocked.cache, stocked.distinct, hintact⟩
    · refine ⟨c.flush, ?_, stocked.distinct, CodeCache.flush_intact hintact⟩
      rw [hcache, stocked.cache]
      rfl

/-- The instructions and the system call of a turn leave the bytes of the blocks that are live in it
as they are. -/
def Spared (handler : Handler η) (m : Machine) (h : η) : Prop :=
  ∀ id m₁, m.compiled m.guest.hart.regs.pc = .ok (id, m₁) → m₁.Spares handler h (m₁.stride id)

/-- Results that tally, with blocks in the code cache that memory holds if the run goes on. -/
structure Advances (allows : Memory.Query → Bool) (m : Machine) (k : Nat) (r r' : Turn η) : Prop
    extends Tallies allows m k r r' where
  stocked : r.1 = none → ∃ c, r.2.1.Stocked allows c

/-- A turn is what interpreting some instructions makes of a twin. -/
theorem turn_pairs (regular : Handler.IsRegular allows handler) (twins : Twins allows m x)
    (stocked : m.Stocked allows c) (left : 0 < m.guest.hart.budget.toNat)
    (spared : Spared handler m h) :
  ∃ n x₁, Interprets handler x h n x₁ h ∧ 0 < x₁.guest.hart.budget.toInt ∧
    Pairs (Fails allows handler h m.guest.hart.horizon) (Advances allows m (n + 1)) (turn handler m h)
      (interpretOne handler x₁ h)
  := by
  obtain ⟨⟨id, m₁⟩, hcompiled, hhart, hlooks, c₁, hstocked, hlive⟩ :=
    (compiled_offers stocked twins.plain m.guest.hart.regs.pc).exists_ok trivial
  dsimp only at hhart hlooks hstocked hlive
  have htwins : Twins allows m₁ x := by
    refine ⟨⟨?_, hlooks.after.toHonest, twins.alike.2.right, ?_⟩, hlooks.after, ?_⟩
    · rw [hhart]
      exact twins.alike.1
    · rw [hlooks.space, twins.alike.2.space]
    · rw [hhart, twins.level]
  have hspared := spared id m₁ hcompiled
  rw [turn_eq hcompiled]
  rw [← hhart] at left hlive ⊢
  obtain ⟨n, x₁, hrun, hleft, hpairs⟩ := proceed_pairs regular htwins hstocked left hlive hspared
  refine ⟨n, x₁, hrun, hleft, hpairs.known.imp (fun _ _ known => known) ?_⟩
  rintro ⟨exit, m', h'⟩ r' ⟨⟨follows, -⟩, hon, -⟩
  refine ⟨⟨follows.exit, follows.state, follows.twins, ⟨?_, ?_⟩, ?_⟩, ?_⟩
  · exact (Memory.isCourse_evolves allows).trans _ _ _ hlooks.evolves follows.keeps.memory
  · rw [← hhart]
    exact follows.keeps.horizon
  · rw [← hhart]
    exact follows.spends
  · rintro rfl
    exact stocked_of_proceed regular htwins.self hstocked left hlive hspared hon

end Machine

end CrossHart
