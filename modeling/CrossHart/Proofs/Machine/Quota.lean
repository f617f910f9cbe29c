import CrossHart.Proofs.Machine.Course
import CrossHart.Proofs.Machine.Equivalence

/-!
# The quota of instructions

Every turn of the engine that does not end the run pays for at least one instruction, whether it enters
compiled code or interprets.  So a run comes to an end.  It has then carried out as many instructions
as its quota allows, or fewer because the guest ended, and has counted exactly these.
-/

namespace CrossHart

open CrossHart.Action Isa Cache Host

variable {η : Type} {handler : Handler η} {K : Located → Prop}

/-- A handler always returns, and leaves sound memory sound. -/
def Handler.Returns (handler : Handler η) : Prop :=
  ∀ call h memory, memory.Sound → ∃ outcome h' memory',
    handler call h memory = .ok (outcome, h', memory') ∧ memory'.Sound

/-- A block of known instructions, of a size that a code cache can have. -/
structure Block.IsFrom (K : Located → Prop) (block : Block) : Prop where
  formed : block.IsFormed
  small : block.count < 0x80000000
  known : ∀ d ∈ block.insns, K d

/-- More instructions are known. -/
theorem Block.IsFrom.mono {K' : Located → Prop} {block : Block} (h : block.IsFrom K)
    (mono : ∀ d, K d → K' d) :
  block.IsFrom K'
  := ⟨h.formed, h.small, fun d hd => mono d (h.known d hd)⟩

namespace CodeCache

/-- Only blocks of known instructions are installed. -/
def AdmitsFrom (K : Located → Prop) (c : CodeCache) (op : Operation) : Prop :=
  Admits c op ∧ ∀ block, op = .install block → ∀ d ∈ block.insns, K d

/-- The live blocks of a cache are from instructions of the blocks that were installed. -/
theorem runs_intact_from {c₀ c : CodeCache} (intact : c₀.Intact (Block.IsFrom K))
    (runs : Runs (AdmitsFrom K) c₀ c) :
  c.Intact (Block.IsFrom K)
  := by
  induction runs with
  | refl => exact intact
  | @step c₁ c₂ op _ admitted on ih =>
    refine (on_intact_of ih admitted.1 fun block hblock hroom => ?_).post_of_eq on
    have hlow := ih.low
    have hformed : block.IsFormed := by
      subst hblock
      exact admitted.1.1.isFormed
    exact ⟨hformed, count_lt_of_codeBound (by omega), admitted.2 block hblock⟩

/-- All instructions of blocks that were formed were decoded. -/
theorem runs_admitsFrom_decoded {c₀ c : CodeCache} (runs : Runs Admits c₀ c) :
  Runs (AdmitsFrom Located.IsDecoded) c₀ c
  := by
  refine runs.imp fun c op admitted => ⟨admitted, ?_⟩
  rintro block rfl
  exact admitted.1.isFormed.decoded

end CodeCache

/-- A computation has a result with some property, unless there are no numbers left to count
instructions. -/
inductive UnlessFull {α : Type} (full : Prop) (post : α → Prop) : Except Crash α → Prop
  | ok {a : α} (h : post a) : UnlessFull full post (.ok a)
  | overflow (h : full) : UnlessFull full post (.error .overflow)

theorem UnlessFull.bind {α β : Type} {full : Prop} {post : α → Prop} {post' : β → Prop}
    {x : Except Crash α} {f : α → Except Crash β} (h : UnlessFull full post x)
    (hf : ∀ a, post a → UnlessFull full post' (f a)) :
  UnlessFull full post' (x >>= f)
  := by
  cases h with
  | ok h => exact hf _ h
  | overflow h => exact .overflow h

theorem UnlessFull.imp {α : Type} {full : Prop} {post post' : α → Prop} {x : Except Crash α}
    (h : UnlessFull full post x) (himp : ∀ a, post a → post' a) :
  UnlessFull full post' x
  := by
  cases h with
  | ok h => exact .ok (himp _ h)
  | overflow h => exact .overflow h

/-- The numbers are used up in more cases. -/
theorem UnlessFull.weaken {α : Type} {full full' : Prop} {post : α → Prop} {x : Except Crash α}
    (h : UnlessFull full post x) (hfull : full → full') :
  UnlessFull full' post x
  := by
  cases h with
  | ok h => exact .ok h
  | overflow h => exact .overflow (hfull h)

/-- A turn goes on after some instructions and one more, or ends the run with an instruction that may
count. -/
inductive Passes (handler : Handler η) (s : Scene η) (n : Nat) : Nat → Option RunExit → Scene η → Prop
  | on {t : Scene η} (course : Course handler s (n + 1) t) : Passes handler s n 1 none t
  | ends {k : Nat} {t t' : Scene η} {exit : RunExit} (course : Course handler s n t)
      (ends : Ends handler t k exit t') : Passes handler s n k (some exit) t'

theorem Passes.after {s t u : Scene η} {j n k : Nat} {exit : Option RunExit}
    (h : Passes handler t n k exit u) (course : Course handler s j t) :
  Passes handler s (j + n) k exit u
  := by
  cases h with
  | on hcourse => exact .on (course.trans hcourse)
  | ends hcourse hends => exact .ends (course.trans hcourse) hends

namespace Machine

variable {m m' : Machine} {h : η} {n k : Nat}

/-- A machine between turns, with compiled blocks of known instructions. -/
structure Steady (K : Located → Prop) (m : Machine) : Prop where
  sound : m.guest.memory.Sound
  level : m.guest.hart.budgetStart = m.guest.hart.budget
  signed : m.guest.hart.budget.toNat < 2 ^ 63
  stocked : ∀ c, m.cache = some c → c.services.Distinct ∧ c.Intact (Block.IsFrom K)

/-- Nothing was paid for. -/
structure SameAccount (m m' : Machine) : Prop where
  budget : m'.guest.hart.budget = m.guest.hart.budget
  horizon : m'.guest.hart.horizon = m.guest.hart.horizon
  entries : m'.entries = m.entries
  interpreted : m'.interpreted = m.interpreted

/-! ### What follows the instructions of a turn -/

theorem stocked_flushCode
    (stocked : ∀ c, m.cache = some c → c.services.Distinct ∧ c.Intact (Block.IsFrom K)) :
  ∀ c, m.flushCode.cache = some c → c.services.Distinct ∧ c.Intact (Block.IsFrom K)
  := by
  intro c hc
  obtain ⟨c₀, hc₀, rfl⟩ := Option.map_eq_some_iff.mp hc
  obtain ⟨hdistinct, hintact⟩ := stocked c₀ hc₀
  exact ⟨hdistinct, CodeCache.flush_intact hintact⟩

theorem Steady.flushCode (steady : m.Steady K) :
  m.flushCode.Steady K
  := ⟨steady.sound, steady.level, steady.signed, stocked_flushCode steady.stocked⟩

/-- Instructions that ended in some way are followed by the rest of their turn. -/
theorem finish_passes (returns : handler.Returns) {s : Scene η} {r : Except Exception Hart.StepExit}
    (steady : m.Steady K) (reaches : Reaches handler s n r ⟨K, m.guest.seen, h⟩) :
  ∃ t : Turn η, finish handler r m h = .ok t ∧
    Passes handler s n (Hart.charges r).toNat t.1 ⟨K, t.2.1.guest.seen, t.2.2⟩ ∧
    t.2.1.Steady K ∧ m.SameAccount t.2.1
  := by
  obtain ⟨⟨K₀, g₀, h₀⟩, d, g, course, next, step, heq⟩ := reaches
  obtain ⟨rfl, hguest, rfl⟩ := Scene.mk.inj heq
  dsimp only at step hguest
  have hregs : m.guest.hart.regs = g.hart.regs := by
    rw [← g.regs_tallied r, ← hguest]
    rfl
  have hmemory : m.guest.memory = g.memory := by
    rw [← g.memory_tallied r, ← hguest]
    rfl
  match r with
  | .ok .continue =>
    refine ⟨_, rfl, .on ?_, steady, rfl, rfl, rfl, rfl⟩
    rw [hguest]
    exact .retire course next step nofun
  | .ok .fenceI =>
    refine ⟨_, rfl, .on ?_, steady.flushCode, rfl, rfl, rfl, rfl⟩
    change Course handler s (n + 1) ⟨K, m.guest.seen, h⟩
    rw [hguest]
    exact .retire course next step nofun
  | .ok .ecall =>
    obtain ⟨outcome, h', memory', hanswer, hsound⟩ :=
      returns m.guest.hart.regs.call h m.guest.memory steady.sound
    have hfinish : finish handler (.ok .ecall) m h =
        .ok (m.answered m.guest.hart.regs.pc (outcome, h', memory')) := by
      unfold finish
      dsimp only
      rw [ecall_eq, hanswer]
      rfl
    rw [hregs, hmemory] at hanswer
    have hcounted : m.guest.seen = g.counted := hguest
    refine ⟨_, hfinish, ?_⟩
    cases outcome with
    | exit status =>
      refine ⟨.ends course ?_, ⟨hsound, steady.level, steady.signed, steady.stocked⟩, rfl, rfl, rfl,
        rfl⟩
      change Ends handler _ 1 _ ⟨K, ⟨m.guest.seen.hart, memory'⟩, h'⟩
      rw [hcounted]
      exact .exit next step hanswer
    | ret v =>
      refine ⟨.on ?_, ⟨hsound, steady.level, steady.signed, steady.stocked⟩, rfl, rfl, rfl, rfl⟩
      change Course handler s (n + 1) ⟨K, m.guest.seen.answered v memory', h'⟩
      rw [hcounted]
      exact .call course next step hanswer
  | .error e =>
    have hpc : m.guest.hart.regs.pc = g₀.hart.regs.pc := by
      rw [hregs]
      exact Hart.pc_of_step_error step
    refine ⟨_, rfl, ?_, steady, rfl, rfl, rfl, rfl⟩
    rw [hguest, hpc, Guest.tallied]
    by_cases hcause : e.cause = .breakpoint
    · rw [show Hart.charges (.error e) = true from decide_eq_true hcause]
      exact .ends course (.breakpoint next step hcause)
    · rw [show Hart.charges (.error e) = false from decide_eq_false hcause]
      exact .ends course (.trap next step hcause)

/-! ### Counting -/

/-- A hart that counted an instruction if it counts. -/
structure Counted (g : Guest) (r : Except Exception Hart.StepExit) (hart : Hart) : Prop where
  seen : Guest.seen ⟨hart, g.memory⟩ = g.seen.tallied r
  level : hart.budgetStart = hart.budget
  budget : (Hart.charges r).toNat + hart.budget.toNat = g.hart.budget.toNat
  horizon : hart.horizon = g.hart.horizon

/-- An interpreted instruction is counted if it counts. -/
theorem counted_of_step {g : Guest} (level : g.hart.budgetStart = g.hart.budget)
    (left : 0 < g.hart.budget.toNat) (signed : g.hart.budget.toNat < 2 ^ 63)
    (r : Except Exception Hart.StepExit) :
  UnlessFull (Word.count ≤ g.hart.retired.toNat + (Hart.charges r).toNat) (Counted g r)
    (if Hart.charges r then retireOne g.hart else .ok g.hart)
  := by
  have hnat : (g.hart.budget - 1).toNat = g.hart.budget.toNat - 1 := by
    rw [BitVec.toNat_sub, show (1 : Word).toNat = 1 from rfl]
    omega
  cases hcharges : Hart.charges r with
  | false =>
    refine .ok ⟨?_, level, ?_, rfl⟩
    · rw [Guest.tallied, hcharges]
      rfl
    · rw [hcharges, Bool.toNat_false, Nat.zero_add]
  | true =>
    rw [if_pos rfl]
    by_cases hroom : g.hart.retired.toNat + 1 < Word.count
    · rw [retireOne_eq left signed hroom]
      refine .ok ⟨?_, rfl, ?_, ?_⟩
      · rw [Guest.tallied, hcharges, if_pos rfl]
        have hinstret : g.hart.instret = g.hart.retired := by
          rw [Hart.instret, level, BitVec.sub_self, BitVec.add_zero]
        rw [Guest.seen, Guest.seen, hinstret]
        simp [Guest.counted, Hart.instret]
      · rw [hcharges, Bool.toNat_true, hnat]
        omega
      · rw [Hart.horizon, Hart.horizon, level]
        dsimp only
        rw [hnat, BitVec.toNat_add, show (1 : Word).toNat = 1 from rfl, Nat.mod_eq_of_lt hroom]
        omega
    · rw [retireOne_of_full (by omega)]
      exact .overflow (Nat.not_lt.mp hroom)

/-- A hart that counted the instructions of a run of compiled code. -/
structure CountedRun (g : Guest) (hart : Hart) : Prop where
  seen : Guest.seen ⟨hart, g.memory⟩ = g.seen
  level : hart.budgetStart = hart.budget
  budget : hart.budget = g.hart.budget
  horizon : hart.horizon = g.hart.horizon
  raised : hart.cause = g.hart.cause ∧ hart.tval = g.hart.tval

/-- The instructions of a run of compiled code are counted at its end. -/
theorem counted_of_run {g : Guest} (spent : g.hart.budget.toNat ≤ g.hart.budgetStart.toNat)
    (signed : g.hart.budgetStart.toNat < 2 ^ 63) :
  UnlessFull (Word.count ≤ g.hart.total) (CountedRun g) (retireRun g.hart)
  := by
  by_cases hroom : g.hart.total < Word.count
  · rw [Hart.retireRun_eq spent signed hroom]
    refine .ok ⟨?_, rfl, rfl, ?_, rfl, rfl⟩
    · simp [Guest.seen, Hart.instret]
    · rw [Hart.total] at hroom
      rw [Hart.horizon, Hart.horizon]
      dsimp only
      rw [BitVec.toNat_add, Hart.toNat_ran spent, Nat.mod_eq_of_lt hroom]
      omega
  · have hfull : Word.count ≤ g.hart.total := Nat.not_lt.mp hroom
    rw [Hart.retireRun_overflow spent signed hfull]
    exact .overflow hfull

/-! ### Turns -/

/-- What a turn pays for: instructions before the last, and the last if it counts. -/
structure Accounts (m m' : Machine) (n k : Nat) : Prop where
  within : n < m.guest.hart.budget.toNat
  spent : n + k + m'.guest.hart.budget.toNat = m.guest.hart.budget.toNat
  horizon : m'.guest.hart.horizon = m.guest.hart.horizon
  turns : m'.entries + m'.interpreted ≤ m.entries + m.interpreted + 1

theorem Accounts.then_same {m₁ : Machine} (h : m.Accounts m₁ n k) (same : m₁.SameAccount m') :
  m.Accounts m' n k
  := by
  refine ⟨h.within, ?_, same.horizon.trans h.horizon, ?_⟩
  · rw [same.budget]
    exact h.spent
  · rw [same.entries, same.interpreted]
    exact h.turns

theorem SameAccount.then_accounts {m₁ : Machine} (same : m.SameAccount m₁)
    (h : m₁.Accounts m' n k) :
  m.Accounts m' n k
  := by
  refine ⟨?_, ?_, h.horizon.trans same.horizon, ?_⟩
  · rw [← same.budget]
    exact h.within
  · rw [← same.budget]
    exact h.spent
  · rw [← same.entries, ← same.interpreted]
    exact h.turns

/-- A turn carried out known instructions, paid for them, and left the machine steady. -/
def Turned (handler : Handler η) (K : Located → Prop) (m : Machine) (h : η) (r : Turn η) : Prop :=
  ∃ n k K', Passes handler ⟨K, m.guest.seen, h⟩ n k r.1 ⟨K', r.2.1.guest.seen, r.2.2⟩ ∧
    r.2.1.Steady K' ∧ m.Accounts r.2.1 n k

/-- The guest carries out instructions that there are no numbers left to count. -/
def Overruns (handler : Handler η) (K : Located → Prop) (m : Machine) (h : η) : Prop :=
  ∃ n r t, Reaches handler ⟨K, m.guest.seen, h⟩ n r t ∧ n < m.guest.hart.budget.toNat ∧
    Word.count ≤ m.guest.hart.retired.toNat + (n + (Hart.charges r).toNat)

theorem Overruns.le_horizon (h' : m.Overruns handler K h)
    (level : m.guest.hart.budgetStart = m.guest.hart.budget) :
  Word.count ≤ m.guest.hart.horizon
  := by
  obtain ⟨n, r, t, -, hwithin, hfull⟩ := h'
  have hone := Bool.toNat_le (Hart.charges r)
  rw [Hart.horizon, level]
  omega

/-- Instructions that were counted come before. -/
theorem Overruns.after {K' : Located → Prop} {h₁ : η} (h' : m'.Overruns handler K' h₁)
    (course : Course handler ⟨K, m.guest.seen, h⟩ n ⟨K', m'.guest.seen, h₁⟩)
    (spent : n + m'.guest.hart.budget.toNat = m.guest.hart.budget.toNat)
    (horizon : m'.guest.hart.horizon = m.guest.hart.horizon)
    (level : m.guest.hart.budgetStart = m.guest.hart.budget)
    (level' : m'.guest.hart.budgetStart = m'.guest.hart.budget) :
  m.Overruns handler K h
  := by
  obtain ⟨j, r, t, hreaches, hwithin, hfull⟩ := h'
  rw [Hart.horizon, Hart.horizon, level, level'] at horizon
  exact ⟨n + j, r, t, hreaches.after course, by omega, by omega⟩

theorem stocked_mono {K' : Located → Prop} (mono : ∀ d, K d → K' d) {c : CodeCache}
    (stocked : c.services.Distinct ∧ c.Intact (Block.IsFrom K)) :
  c.services.Distinct ∧ c.Intact (Block.IsFrom K')
  := ⟨stocked.1, stocked.2.imp fun _ _ _ _ _ _ _ source => source.mono mono⟩

/-- Instructions that were paid for, and the rest of their turn. -/
theorem finish_turned (returns : handler.Returns) {K' : Located → Prop}
    {r : Except Exception Hart.StepExit} (steady : m'.Steady K')
    (reaches : Reaches handler ⟨K, m.guest.seen, h⟩ n r ⟨K', m'.guest.seen, h⟩)
    (accounts : m.Accounts m' n (Hart.charges r).toNat) :
  ∃ t, finish handler r m' h = .ok t ∧ Turned handler K m h t
  := by
  obtain ⟨t, hfinish, hpasses, hsteady, hsame⟩ := finish_passes returns steady reaches
  exact ⟨t, hfinish, n, _, K', hpasses, hsteady, accounts.then_same hsame⟩

theorem interpretOne_turned (returns : handler.Returns) (steady : m.Steady K)
    (left : 0 < m.guest.hart.budget.toNat) (h : η) :
  UnlessFull (m.Overruns handler K h) (Turned handler K m h) (interpretOne handler m h)
  := by
  obtain ⟨⟨fetched, memory⟩, hread, -, hsound⟩ := (Memory.stays_readInstr_of
    Memory.isCourse_staysSound Memory.sound_fetch m.guest.hart.regs.pc _
    steady.sound.stays).exists_ok trivial
  dsimp only at hsound
  cases fetched with
  | error e =>
    obtain ⟨raised, hraises⟩ := exists_raises (Block.throws_readInstr _ _ e _ hread)
    rw [interpretOne_of_raises handler hraises hread h]
    refine .ok ⟨0, 0, _, .ends .start (.unread hread hraises), ?_, left, ?_, rfl, Nat.le_succ _⟩
    · exact ⟨hsound, steady.level, steady.signed,
        fun c hc => stocked_mono (fun _ => .inl) (steady.stocked c hc)⟩
    · exact Nat.zero_add _
  | ok d =>
    obtain ⟨hdecoded, hpc⟩ := Block.isDecoded_of_readInstr hread
    obtain ⟨K', hlook, hmono, hknown⟩ := exists_course_of_read hread
    obtain ⟨⟨r, g⟩, hstep, hproceeds⟩ := (Hart.stays_step_of Memory.isRoutine_staysSound
      hdecoded.proper ⟨m.guest.hart, memory⟩ (Guest.proceeds_self hsound.stays)).exists_ok trivial
    dsimp only at hproceeds
    have hlevel : g.hart.budgetStart = g.hart.budget := by
      rw [hproceeds.start, hproceeds.budget]
      exact steady.level
    have hbudget : g.hart.budget.toNat = m.guest.hart.budget.toNat :=
      congrArg BitVec.toNat hproceeds.budget
    have hhorizon : g.hart.horizon = m.guest.hart.horizon := by
      rw [Hart.horizon, Hart.horizon, hproceeds.retired, hproceeds.start]
    have hsigned := steady.signed
    have hfull (full : Word.count ≤ g.hart.retired.toNat + (Hart.charges r).toNat) :
        m.Overruns handler K h := by
      refine ⟨0, r, _, ⟨_, d, g.seen, hlook, ⟨hknown, hpc⟩, Hart.step_seen hstep, rfl⟩, left, ?_⟩
      rw [Nat.zero_add, ← hproceeds.retired]
      exact full
    rw [interpretOne_eq handler hread hstep]
    refine ((counted_of_step hlevel (by omega) (by omega) r).weaken hfull).bind
      fun hart counted => ?_
    have hspent := counted.budget
    have hsteady : (m.interpretedTo ⟨hart, g.memory⟩).Steady K' := by
      refine ⟨hproceeds.memory.2, counted.level, ?_, ?_⟩
      · change hart.budget.toNat < 2 ^ 63
        omega
      · exact fun c hc => stocked_mono hmono (steady.stocked c hc)
    have hreaches : Reaches handler ⟨K, m.guest.seen, h⟩ 0 r
        ⟨K', (m.interpretedTo ⟨hart, g.memory⟩).guest.seen, h⟩ := by
      refine ⟨_, d, g.seen, hlook, ⟨hknown, hpc⟩, Hart.step_seen hstep, ?_⟩
      rw [← counted.seen]
      rfl
    have haccounts : m.Accounts (m.interpretedTo ⟨hart, g.memory⟩) 0 (Hart.charges r).toNat := by
      refine ⟨left, ?_, counted.horizon.trans hhorizon, Nat.le_refl _⟩
      rw [Nat.zero_add]
      exact hspent.trans hbudget
    obtain ⟨t, hfinish, hturned⟩ := finish_turned returns hsteady hreaches haccounts
    rw [hfinish]
    exact .ok hturned

/-- A turn in which compiled code is entered. -/
theorem runCode_turned (returns : handler.Returns) (steady : m.Steady K) {c : CodeCache}
    (cache : m.cache = some c) {id : Nat} {b : Compiled} (live : c.block? id = some b)
    (at_pc : b.pc = m.guest.hart.regs.pc) (covered : b.count ≤ m.guest.hart.budget.toInt) (h : η) :
  UnlessFull (m.Overruns handler K h) (Turned handler K m h) (runCode handler id m h)
  := by
  obtain ⟨hdistinct, hintact⟩ := steady.stocked c cache
  obtain ⟨ds, r, g, reason, hne, hosted, htrack, hsteps, hcovered, htells, henter⟩ :=
    CodeCache.exists_enter hintact (fun block source => ⟨source.formed, source.small⟩) hdistinct
      live Memory.isRoutine_staysSound steady.sound.stays covered
  have hgoto : m.guest.goto b.pc = m.guest := by
    rw [at_pc]
    rfl
  rw [hgoto] at htrack hsteps
  have hfrom : ∀ d ∈ ds, K d ∧ d.instr.IsProper := by
    intro d hd
    obtain ⟨block, hosts, hd⟩ := hosted d hd
    exact ⟨hosts.1.known d hd, hosts.1.formed.proper d hd⟩
  obtain ⟨n, hn, hreaches, hpays⟩ := exists_reaches_of_steps handler hne steady.sound
    (fun d hd => (hfrom d hd).1) (fun d hd => (hfrom d hd).2) htrack hcovered hsteps h
  -- Compiled code leaves word of an exception in the hart, where no instruction sees it.
  obtain ⟨cause, tval, hobserved⟩ := observed_eq r g
  have hbudget := hpays.budget
  have hstart : g.hart.budgetStart = m.guest.hart.budget := hpays.start.trans steady.level
  have hsigned := steady.signed
  have hhorizon : g.hart.horizon = m.guest.hart.horizon := by
    rw [Hart.horizon, Hart.horizon, hpays.retired, hpays.start]
  have hfull (full : Word.count ≤ g.hart.total) : m.Overruns handler K h := by
    refine ⟨n, r, _, hreaches, by omega, ?_⟩
    rw [Hart.total, hpays.retired, hstart] at full
    omega
  rw [runCode_eq cache steady.level henter, hobserved]
  refine ((counted_of_run (g := ⟨{ g.hart with cause, tval }, g.memory⟩) ?_ ?_).weaken hfull).bind
    fun hart counted => ?_
  · dsimp only
    rw [hstart]
    omega
  · dsimp only
    rw [hstart]
    exact hsigned
  · have hregs : hart.regs = g.hart.regs := congrArg (fun g : Guest => g.hart.regs) counted.seen
    have hleft : hart.budget = g.hart.budget := counted.budget
    rw [afterCode_eq (g := g) htells (congrArg Registers.pc hregs)
      (fun e he => eq_breakpoint_of_steps htrack (he ▸ hsteps))
      (by rw [hobserved]; exact counted.raised.1) (by rw [hobserved]; exact counted.raised.2)]
    have hsteady : (m.returned ⟨hart, g.memory⟩).Steady K := by
      refine ⟨hpays.sound, counted.level, ?_, steady.stocked⟩
      change hart.budget.toNat < 2 ^ 63
      rw [hleft]
      omega
    have hseen : (m.returned ⟨hart, g.memory⟩).guest.seen = g.seen := counted.seen
    rw [← hseen] at hreaches
    have haccounts : m.Accounts (m.returned ⟨hart, g.memory⟩) n (Hart.charges r).toNat := by
      refine ⟨by omega, ?_, counted.horizon.trans hhorizon, ?_⟩
      · change n + (Hart.charges r).toNat + hart.budget.toNat = _
        rw [hleft]
        exact hbudget
      · change m.entries + 1 + m.interpreted ≤ _
        omega
    obtain ⟨t, hfinish, hturned⟩ := finish_turned returns hsteady hreaches haccounts
    rw [hfinish]
    exact .ok hturned

/-! ### Whole turns -/

theorem Turned.after {K' : Located → Prop} {r : Turn η} (h' : Turned handler K' m' h r)
    (course : Course handler ⟨K, m.guest.seen, h⟩ 0 ⟨K', m'.guest.seen, h⟩)
    (same : m.SameAccount m') :
  Turned handler K m h r
  := by
  obtain ⟨n, k, K'', hpasses, hsteady, haccounts⟩ := h'
  refine ⟨n, k, K'', ?_, hsteady, same.then_accounts haccounts⟩
  rw [← Nat.zero_add n]
  exact hpasses.after course

theorem proceed_turned (returns : handler.Returns) (steady : m.Steady K)
    (left : 0 < m.guest.hart.budget.toNat) {c : CodeCache} (cache : m.cache = some c) {id : Option Nat}
    (live : ∀ i, id = some i → ∃ b, c.block? i = some b ∧ b.pc = m.guest.hart.regs.pc) (h : η) :
  UnlessFull (m.Overruns handler K h) (Turned handler K m h) (proceed handler id m h)
  := by
  unfold proceed
  split
  case h_1 i haffordable =>
    obtain ⟨rfl, hcovered⟩ := covered_of_affordable cache haffordable
    obtain ⟨b, hb, hpc⟩ := live i rfl
    exact runCode_turned returns steady cache hb hpc (hcovered b hb) h
  case h_2 => exact interpretOne_turned returns steady left h

/-- Looking for compiled code, and compiling a block, is a course in which nothing is carried out. -/
theorem compiled_steady (steady : m.Steady K) {c : CodeCache} (cache : m.cache = some c)
    (handler : Handler η) (h : η) :
  Meets True (m.compiled m.guest.hart.regs.pc) fun r => ∃ K' c',
    Course handler ⟨K, m.guest.seen, h⟩ 0 ⟨K', r.2.guest.seen, h⟩ ∧ r.2.Steady K' ∧
    m.SameAccount r.2 ∧ r.2.cache = some c' ∧
    ∀ i, r.1 = some i → ∃ b, c'.block? i = some b ∧ b.pc = r.2.guest.hart.regs.pc
  := by
  obtain ⟨hdistinct, hintact⟩ := steady.stocked c cache
  obtain ⟨⟨formed, memory⟩, hform, -, hsound⟩ := (Memory.stays_form_of Memory.isCourse_staysSound
    Memory.sound_fetch m.guest.hart.regs.pc m.config.blockLimit _ steady.sound.stays).exists_ok trivial
  dsimp only at hsound
  refine (compiled_supplies cache hdistinct hintact hform).imp ?_
  rintro ⟨id, m'⟩ ⟨c', supplies⟩
  have hhart : m'.guest.hart = m.guest.hart := supplies.hart
  have hlive : ∀ i, id = some i → ∃ b, c'.block? i = some b ∧ b.pc = m'.guest.hart.regs.pc := by
    rw [hhart]
    exact supplies.live
  have hsame : m.SameAccount m' :=
    ⟨by rw [hhart], by rw [hhart], supplies.entries, supplies.interpreted⟩
  have hsteady {K' : Located → Prop} (hsound : m'.guest.memory.Sound)
      (hintact : c'.Intact (Block.IsFrom K')) : m'.Steady K' := by
    refine ⟨hsound, ?_, ?_, ?_⟩
    · rw [hhart]
      exact steady.level
    · rw [hhart]
      exact steady.signed
    · intro _ hc
      cases supplies.cache.symm.trans hc
      exact ⟨supplies.distinct, hintact⟩
  have hseen : m'.guest.seen = ⟨m.guest.seen.hart, m'.guest.memory⟩ := by
    rw [Guest.seen, hhart]
    rfl
  obtain ⟨hmemory, hintact'⟩ | ⟨hmemory, hintact'⟩ := supplies.memory
  · dsimp only at hmemory
    refine ⟨K, c', ?_, hsteady ?_ hintact', hsame, supplies.cache, hlive⟩
    · rw [hseen, hmemory]
      exact .start
    · rw [hmemory]
      exact steady.sound
  · dsimp only at hmemory
    obtain ⟨K', hcourse, hmono, hall⟩ := exists_course_of_form hform
    refine ⟨K', c', ?_, hsteady ?_ ?_, hsame, supplies.cache, hlive⟩
    · rw [hseen, hmemory]
      exact hcourse
    · rw [hmemory]
      exact hsound
    · exact hintact' _ (fun block source => source.mono hmono)
        fun block hblock hformed hsmall => ⟨hformed, hsmall, hall block hblock⟩

/-- A turn of the engine, with a code cache or without. -/
theorem turn_turned (returns : handler.Returns) (steady : m.Steady K)
    (left : 0 < m.guest.hart.budget.toNat) (h : η) :
  UnlessFull (m.Overruns handler K h) (Turned handler K m h) (turn handler m h)
  := by
  cases hcache : m.cache with
  | none =>
    rw [turn_of_cache_eq_none hcache]
    exact interpretOne_turned returns steady left h
  | some c =>
    obtain ⟨⟨id, m'⟩, hcompiled, K', c', hcourse, hsteady, hsame, hcache', hlive⟩ :=
      (compiled_steady steady hcache handler h).exists_ok trivial
    dsimp only at hcourse hsteady hsame hcache' hlive
    rw [turn_eq hcompiled]
    have hproceed := proceed_turned returns hsteady (by rw [hsame.budget]; exact left) hcache' hlive h
    have hspent : 0 + m'.guest.hart.budget.toNat = m.guest.hart.budget.toNat := by
      rw [Nat.zero_add, hsame.budget]
    refine (hproceed.imp fun _ hturned => hturned.after hcourse hsame).weaken fun hfull => ?_
    exact hfull.after hcourse hspent hsame.horizon steady.level hsteady.level

/-! ### Runs -/

/-- How a run with a quota comes out, and how many instructions it counts. -/
inductive Outcome (handler : Handler η) (s : Scene η) (quota : Nat) : Nat → RunExit → Scene η → Prop
  /-- As many instructions as the quota allows were carried out, and the guest has not ended. -/
  | exhausted {t : Scene η} (course : Course handler s quota t) :
    Outcome handler s quota quota .quotaExhausted t
  /-- The guest ended before that. -/
  | ended {n k : Nat} {t t' : Scene η} {exit : RunExit} (course : Course handler s n t)
      (within : n < quota) (ends : Ends handler t k exit t') : Outcome handler s quota (n + k) exit t'

theorem Outcome.after {s t u : Scene η} {j q n : Nat} {exit : RunExit}
    (h : Outcome handler t q n exit u) (course : Course handler s j t) :
  Outcome handler s (j + q) (j + n) exit u
  := by
  cases h with
  | exhausted hcourse => exact .exhausted (course.trans hcourse)
  | ended hcourse within ends =>
    rw [← Nat.add_assoc]
    exact .ended (course.trans hcourse) (by omega) ends

/-- What a run leaves. -/
structure Ran (handler : Handler η) (K : Located → Prop) (m : Machine) (h : η) (exit : RunExit)
    (m' : Machine) (h' : η) : Prop where
  outcome : ∃ n K', Outcome handler ⟨K, m.guest.seen, h⟩ m.guest.hart.budget.toNat n exit
    ⟨K', m'.guest.seen, h'⟩ ∧ n + m'.guest.hart.budget.toNat = m.guest.hart.budget.toNat ∧ m'.Steady K'
  level : m'.guest.hart.budgetStart = m'.guest.hart.budget
  horizon : m'.guest.hart.horizon = m.guest.hart.horizon
  turns : m'.entries + m'.interpreted ≤ m.entries + m.interpreted + m.guest.hart.budget.toNat

theorem Steady.toInt_budget (steady : m.Steady K) :
  m.guest.hart.budget.toInt = m.guest.hart.budget.toNat
  := by
  have hsigned := steady.signed
  exact BitVec.toInt_eq_toNat_of_lt (by omega)

theorem turns_ran_of_exhausted (handler : Handler η) (f : Nat) (steady : m.Steady K)
    (exhausted : m.guest.hart.budget.toNat = 0) (h : η) :
  ∃ exit m' h', turns handler f m h = .ok (exit, m', h') ∧ Ran handler K m h exit m' h'
  := by
  have hint := steady.toInt_budget
  refine ⟨_, m, h, turns_exhausted handler f h (by omega), ⟨0, K, ?_, Nat.zero_add _, steady⟩,
    steady.level, rfl, Nat.le_add_right _ _⟩
  rw [exhausted]
  exact .exhausted .start

/-- Turns of the engine, as many as the budget asks for, unless instructions cannot be counted. -/
theorem turns_ran_or_overruns (returns : handler.Returns) {f : Nat} (steady : m.Steady K)
    (enough : m.guest.hart.budget.toNat ≤ f) (h : η) :
  (∃ exit m' h', turns handler f m h = .ok (exit, m', h') ∧ Ran handler K m h exit m' h') ∨
  ∃ h', turns handler f m h = .error (.overflow, h') ∧ m.Overruns handler K h
  := by
  -- A turn that goes on pays for an instruction, so the turns that are left cover the budget that is.
  induction f generalizing m h K with
  | zero => exact .inl (turns_ran_of_exhausted handler 0 steady (by omega) h)
  | succ f ih =>
    by_cases hleft : 0 < m.guest.hart.budget.toNat
    case neg => exact .inl (turns_ran_of_exhausted handler (f + 1) steady (by omega) h)
    case pos =>
      have hint := steady.toInt_budget
      have hturn := turn_turned returns steady hleft h
      rw [turns, if_neg (by omega)]
      generalize turn handler m h = x at hturn
      cases hturn with
      | overflow full => exact .inr ⟨h, rfl, full⟩
      | @ok t turned =>
        obtain ⟨exit, m₁, h₁⟩ := t
        obtain ⟨n, k, K₁, hpasses, hsteady, haccounts⟩ := turned
        obtain ⟨hwithin, hspent, hhorizon, hturns⟩ := haccounts
        dsimp only at hpasses hsteady hspent hhorizon hturns
        cases hpasses with
        | ends course ends =>
          refine .inl ⟨_, m₁, h₁, rfl, ⟨n + k, K₁, .ended course hwithin ends, hspent, hsteady⟩,
            hsteady.level, hhorizon, by omega⟩
        | on course =>
          obtain ⟨exit, m', h', hrun, ⟨j, K', houtcome, hspent', hsteady'⟩, hlevel, hhorizon',
            hturns'⟩ | ⟨h', hrun, hfull⟩ := ih hsteady (by omega) h₁
          · refine .inl ⟨exit, m', h', hrun, ⟨n + 1 + j, K', ?_, by omega, hsteady'⟩, hlevel,
              hhorizon'.trans hhorizon, by omega⟩
            rw [← hspent]
            exact houtcome.after course
          · refine .inr ⟨h', hrun, ?_⟩
            exact hfull.after course hspent hhorizon steady.level hsteady.level

theorem turns_ran (returns : handler.Returns) {f : Nat} (steady : m.Steady K)
    (enough : m.guest.hart.budget.toNat ≤ f) (h : η) :
  (∃ exit m' h', turns handler f m h = .ok (exit, m', h') ∧ Ran handler K m h exit m' h') ∨
  ∃ h', turns handler f m h = .error (.overflow, h') ∧ Word.count ≤ m.guest.hart.horizon
  := by
  refine (turns_ran_or_overruns returns steady enough h).imp_right ?_
  rintro ⟨h', hrun, hfull⟩
  exact ⟨h', hrun, hfull.le_horizon steady.level⟩

/-- The code cache, if there is one, is of at most two gigabytes, and only blocks of known instructions
were installed in it. -/
def HasKnownCache (K : Located → Prop) (m : Machine) : Prop :=
  ∀ c, m.cache = some c → ∃ size eviction services platform c₀, size ≤ 0x80000000 ∧
    services.Distinct ∧ CodeCache.create size eviction services platform = .ok (some c₀) ∧
    CodeCache.Runs (CodeCache.AdmitsFrom K) c₀ c

theorem steady_started (sound : m.guest.memory.Sound) (known : m.HasKnownCache K)
    (quota : Option Nat) :
  (m.started quota).Steady K
  := by
  obtain ⟨hbudget, hsigned⟩ := toNat_budgetOf quota
  refine ⟨sound, rfl, hbudget.trans_lt hsigned, fun c hc => ?_⟩
  obtain ⟨size, eviction, services, platform, c₀, small, distinct, created, runs⟩ := known c hc
  have hcreated := CodeCache.created_of_create created
  obtain ⟨-, hguards⟩ := CodeCache.runs_arena hcreated.arena runs
  refine ⟨?_, CodeCache.runs_intact_from (hcreated.intact small) runs⟩
  rw [hguards.services, hcreated.services]
  exact distinct

/-- Whatever the policy, the devices and the guest, a run returns if the handler does.  It has entered
compiled code or interpreted an instruction at most as many times as the quota allows instructions.
Either it carried out exactly so many without an end of the guest, says that the quota is exhausted,
and leaves the program counter at the next one; or the guest ended before that, and the run says how.
The instructions carried out were read from memory, are what is counted, and are never more than the
quota; one that raises an exception other than a breakpoint does not count.  Only a count of
instructions that comes to its end stops a run otherwise. -/
theorem quota_is_exact (returns : handler.Returns) (sound : m.guest.memory.Sound)
    (known : m.HasKnownCache K) (h : η) (quota : Option Nat) :
  (∃ exit m' h' n K', run handler m h quota = .ok (exit, m', h') ∧
    Outcome handler ⟨K, (m.started quota).guest.seen, h⟩ (budgetOf quota) n exit
      ⟨K', m'.guest.seen, h'⟩ ∧
    n ≤ budgetOf quota ∧ m'.guest.hart.retired.toNat = m.guest.hart.retired.toNat + n ∧
    m'.guest.hart.instret = m'.guest.hart.retired ∧
    m'.entries + m'.interpreted ≤ m.entries + m.interpreted + budgetOf quota) ∨
  ∃ h', run handler m h quota = .error (.overflow, h') ∧
    Word.count ≤ m.guest.hart.retired.toNat + budgetOf quota
  := by
  obtain ⟨hbudget, -⟩ := toNat_budgetOf quota
  have hbudget : (m.started quota).guest.hart.budget.toNat = budgetOf quota := hbudget
  have hhorizon : (m.started quota).guest.hart.horizon =
      m.guest.hart.retired.toNat + budgetOf quota := by
    rw [← hbudget]
    rfl
  have hran := turns_ran returns (f := budgetOf quota) (steady_started sound known quota)
    (Nat.le_of_eq hbudget) h
  rw [hhorizon] at hran
  obtain ⟨exit, m', h', hrun, ⟨n, K', houtcome, hspent⟩, hlevel, hhorizon', hturns⟩ | hfull := hran
  · rw [hbudget] at houtcome hspent hturns
    rw [Hart.horizon, hlevel, hhorizon] at hhorizon'
    refine .inl ⟨exit, m', h', n, K', hrun, houtcome, by omega, by omega, ?_, hturns⟩
    rw [Hart.instret, hlevel, BitVec.sub_self, BitVec.add_zero]
  · exact .inr hfull

/-- A machine that compiled a jump to itself, under a policy that changes its mind with every
question. -/
def looping (c : CodeCache) : Machine where
  guest :=
    { memory :=
        { space := ⟨Bytes.zeros 0x1000, 0, []⟩
          policy := { answer history _ := history.length % 2 == 0 } } }
  cache := some c
  config := {}

/-- A handler that counts the calls it answers. -/
def counting : Handler Nat :=
  fun _ calls memory => .ok (.ret 0, calls + 1, memory)

theorem quota_is_exact_for_loop :
  ∃ c₀ c id exit m' h' n K', CodeCache.create 0x10000 .fifo .standard = .ok (some c₀) ∧
    c₀.install CodeCache.loop = .ok (.ok id, c) ∧
    run counting (looping c) 0 (some 3) = .ok (exit, m', h') ∧
    Outcome counting ⟨Located.IsDecoded, ((looping c).started (some 3)).guest.seen, 0⟩ 3 n exit
      ⟨K', m'.guest.seen, h'⟩ ∧
    n ≤ 3 ∧ m'.guest.hart.retired.toNat = n ∧ m'.entries + m'.interpreted ≤ 3
  := by
  obtain ⟨c₀, c, id, created, hinstall, runs⟩ := CodeCache.exists_loop
  have hreturns : Handler.Returns counting := fun _ calls memory hsound =>
    ⟨.ret 0, calls + 1, memory, rfl, hsound⟩
  have hsound : (looping c).guest.memory.Sound := by
    refine Memory.sound_unused ⟨rfl, nofun⟩ ?_
    rw [Bytes.size_zeros]
    rfl
  have hknown : (looping c).HasKnownCache Located.IsDecoded := by
    rintro _ ⟨⟩
    exact ⟨0x10000, .fifo, .standard, .standard, c₀, by decide, by decide, created, CodeCache.runs_admitsFrom_decoded runs⟩
  obtain ⟨exit, m', h', n, K', hrun, houtcome, hn, hretired, -, hturns⟩ | ⟨h', -, hfull⟩ :=
    quota_is_exact hreturns hsound hknown 0 (some 3)
  · refine ⟨c₀, c, id, exit, m', h', n, K', created, hinstall, hrun, houtcome, hn, ?_, hturns⟩
    rw [hretired]
    exact Nat.zero_add n
  · exact absurd hfull (by decide : ¬ Word.count ≤ 0 + budgetOf (some 3))

end Machine

end CrossHart
