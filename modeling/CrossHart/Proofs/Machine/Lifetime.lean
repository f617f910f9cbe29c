import CrossHart.Proofs.Machine.Confinement
import CrossHart.Proofs.Machine.Translation
import CrossHart.Proofs.Memory.Protection

/-!
# The life of a machine

A host builds a machine, sets its registers and its RAM, maps devices, discards what was compiled or
kept of the policy's answers, restores snapshots, and runs the machine as often as it likes.  What
building a machine establishes, and every access and every operation of the host keeps, holds as
long as the machine lives.

So no guest crashes a machine that interprets: whatever the host left in RAM and registers, a run
returns unless the count of instructions comes to its end.
-/

namespace CrossHart

open CrossHart.Action Isa Cache Host

namespace Memory

variable {allows : Query → Bool} {m : Memory}

/-- What memory that was not used yet has, and what accesses and operations of the host keep. -/
structure IsUpkept (policy : Policy) (M : Memory → Memory → Prop) : Prop extends IsRoutine M where
  fetch : ∀ pc, Stays M (fetch pc)
  sound : ∀ m, M m m → m.Sound
  unused : ∀ space : Space, space.Aligned → space.ram.size % pageSize = 0 →
    M { space, policy } { space, policy }
  /-- RAM or the state of devices is changed. -/
  change : ∀ m s, M m m → m.space.SameLayout s → M { m with space := s } { m with space := s }
  /-- Entries of the lookaside table are out of date. -/
  discard : ∀ m t, M m m → t.entries = m.lookaside.entries →
    M { m with lookaside := t } { m with lookaside := t }
  map : ∀ m s base len device, M m m → m.space.map base len device = .ok (.ok s) →
    M { m with space := s } { m with space := s }

theorem Space.map_ram (s : Space) (base len : Word) (device : Device) :
  Meets False (s.map base len device) fun r => ∀ s', r = .ok s' → s'.ram = s.ram
  := by
  unfold Space.map
  split
  · exact .ok nofun
  · refine (Meets.self False.elim).bind fun ramEnd _ => ?_
    dsimp only
    split
    · exact .ok nofun
    · refine .ok fun s' hs' => ?_
      cases hs'
      rfl

theorem isUpkept_staysSound (policy : Policy) :
  IsUpkept policy StaysSound
  := by
  refine ⟨isRoutine_staysSound, sound_fetch, fun _ h => h.1, ?_, ?_, ?_, ?_⟩
  · intro space aligned whole
    exact (sound_unused aligned whole).stays
  · intro m s h layout
    exact (h.1.of_sameLayout layout).stays
  · intro m t h entries
    apply Sound.stays
    refine ⟨h.1.aligned, h.1.whole, fun i e he => h.1.backed i e ?_⟩
    rw [← entries]
    exact he
  · intro m s base len device h hmap
    obtain ⟨haligned, hkept⟩ := (m.space.map_meets base len device).post_of_eq hmap s rfl h.1.aligned
    apply Sound.stays
    refine ⟨haligned, ?_, fun i e he addr hpage => hkept addr _ (h.1.backed i e he addr hpage)⟩
    dsimp only
    rw [(m.space.map_ram base len device).post_of_eq hmap s rfl]
    exact h.1.whole

theorem isUpkept_protects {policy : Policy} (pure : policy.IsPure allows) :
  IsUpkept policy (Protects allows)
  := by
  have hsound := isUpkept_staysSound policy
  refine ⟨isRoutine_protects allows, protects_fetch, fun _ h => h.before.sound, ?_, ?_, ?_, ?_⟩
  · intro space aligned whole
    apply Guarded.protects
    refine ⟨⟨pure, aligned, fun i e he => ?_⟩, whole⟩
    simp at he
  · intro m s h layout
    have hkept := hsound.change m s h.before.sound.stays layout
    exact (hkept.1.guarded (h.before.toHonest.of_sameLayout layout)).protects
  · intro m t h entries
    have hkept := hsound.discard m t h.before.sound.stays entries
    exact (hkept.1.guarded (h.before.toHonest.of_entries entries)).protects
  · intro m s base len device h hmap
    have hkept := hsound.map m s base len device h.before.sound.stays hmap
    obtain ⟨haligned, hresolve⟩ :=
      (m.space.map_meets base len device).post_of_eq hmap s rfl h.before.aligned
    refine (hkept.1.guarded ⟨h.before.pure, haligned, fun i e he addr hpage => ?_⟩).protects
    obtain ⟨hbacked, hrights⟩ := h.before.truthful i e he addr hpage
    exact ⟨hresolve addr _ hbacked, hrights⟩

end Memory

namespace Machine

/-- A machine of a configuration and a policy, in a state that it can be brought into. -/
inductive Lives (config : Config) (policy : Memory.Policy) : Machine → Prop
  | create {services : Host.Services} {platform : Host.Platform} {m : Machine}
      (distinct : services.Distinct) (on : create config policy services platform = .ok (.ok m)) :
    Lives config policy m
  /-- Registers and counters may be anything. -/
  | hart {m : Machine} (lives : Lives config policy m) (hart : Hart) :
    Lives config policy (m.withGuest ⟨hart, m.guest.memory⟩)
  /-- RAM may hold anything. -/
  | ram {m : Machine} (lives : Lives config policy m) (ram : ByteArray) (size : ram.size = m.ram.size) :
    Lives config policy (m.mapMemory fun ⟨lookaside, space, policy⟩ =>
      ⟨lookaside, { space with ram }, policy⟩)
  | touch {m : Machine} {memory : Memory} (lives : Lives config policy m)
      (touches : m.guest.memory.Touches memory) :
    Lives config policy (m.withGuest ⟨m.guest.hart, memory⟩)
  | load {m m' : Machine} {result : Except MachineError Unit} (lives : Lives config policy m)
      (addr : Word) (data : ByteArray) (on : load addr data m = .ok (result, m')) :
    Lives config policy m'
  | map {m m' : Machine} {result : Except MachineError Unit} (lives : Lives config policy m)
      (base len : Word) (device : Memory.Device) (on : map base len device m = .ok (result, m')) :
    Lives config policy m'
  | invalidatePage {m m' : Machine} (lives : Lives config policy m) (page : Word)
      (on : m.invalidatePage page = .ok m') : Lives config policy m'
  | flush {m : Machine} (lives : Lives config policy m) : Lives config policy m.flush
  | flushCode {m : Machine} (lives : Lives config policy m) : Lives config policy m.flushCode
  | restore {m m' : Machine} {result : Except MachineError Unit} (lives : Lives config policy m)
      (s : Snapshot) (on : restore s m = .ok (result, m')) : Lives config policy m'
  | run {η : Type} {m m' : Machine} {exit : RunExit} {h h' : η} (lives : Lives config policy m)
      (handler : Handler η) (confined : handler.IsConfined) (quota : Option Nat)
      (on : run handler m h quota = .ok (exit, m', h')) : Lives config policy m'

/-- A machine between runs, with compiled blocks of known instructions if it compiles. -/
structure Standing (mode : ExecMode) (M : Memory → Memory → Prop) (P : Located → Prop) (m : Machine) :
    Prop where
  memory : M m.guest.memory m.guest.memory
  stocked : ∀ c, m.cache = some c → c.services.Distinct ∧ c.Intact (Block.IsFrom P)
  mode : mode = .interpret → m.cache = none

variable {η : Type} {handler : Handler η} {mode : ExecMode} {config : Config} {policy : Memory.Policy}
  {M : Memory → Memory → Prop} {P : Located → Prop} {m m' : Machine} {h h' : η} {exit : RunExit}
  {quota : Option Nat}

/-! ### Machines that interpret -/

theorem finish_cache_eq_none (interpreting : m.cache = none) {r : Except Exception Hart.StepExit}
    {t : Turn η} (on : finish handler r m h = .ok t) :
  t.2.1.cache = none
  := by
  match r with
  | .ok .continue =>
    cases on
    exact interpreting
  | .ok .fenceI =>
    cases on
    change m.cache.map _ = none
    rw [interpreting]
    rfl
  | .ok .ecall =>
    unfold finish at on
    dsimp only at on
    rw [ecall_eq] at on
    obtain ⟨⟨outcome, h', memory⟩, -, on⟩ := Except.bind_eq_ok.mp on
    cases outcome <;> cases on <;> exact interpreting
  | .error e =>
    cases on
    exact interpreting

theorem turn_cache_eq_none (interpreting : m.cache = none) {t : Turn η}
    (on : turn handler m h = .ok t) :
  t.2.1.cache = none
  := by
  rw [turn_of_cache_eq_none interpreting] at on
  obtain ⟨_, _, _, -, rfl⟩ | ⟨_, _, _, _, _, -, -, -, on⟩ := interpretOne_cases on
  · exact interpreting
  · exact finish_cache_eq_none (m := m.interpretedTo _) interpreting on

/-- A machine that interprets does so after a run. -/
theorem turns_cache_eq_none (interpreting : m.cache = none) {f : Nat}
    (on : turns handler f m h = .ok (exit, m', h')) :
  m'.cache = none
  := by
  induction f generalizing m h with
  | zero =>
    unfold turns at on
    split at on
    · cases on
      exact interpreting
    · cases on
  | succ f ih =>
    unfold turns at on
    split at on
    · cases on
      exact interpreting
    · dsimp only at on
      split at on
      case h_1 => cases on
      case h_2 hturn =>
        cases on
        exact turn_cache_eq_none interpreting hturn
      case h_3 hturn => exact ih (turn_cache_eq_none interpreting hturn) on

/-! ### Operations of the host -/

namespace Standing

theorem withMemory (standing : m.Standing mode M P) {g : Guest} (memory : M g.memory g.memory) :
  (m.withGuest g).Standing mode M P
  := ⟨memory, standing.stocked, standing.mode⟩

theorem mapMemory (standing : m.Standing mode M P) (f : Memory → Memory)
    (memory : M (f m.guest.memory) (f m.guest.memory)) :
  (m.mapMemory f).Standing mode M P
  := ⟨memory, standing.stocked, standing.mode⟩

theorem flushCode (standing : m.Standing mode M P) :
  m.flushCode.Standing mode M P
  := by
  refine ⟨standing.memory, stocked_flushCode standing.stocked, fun hmode => ?_⟩
  change m.cache.map _ = none
  rw [standing.mode hmode]
  rfl

theorem invalidateCode (standing : m.Standing mode M P) (start len : Word) :
  Meets False (m.invalidateCode start len) fun m' => m'.Standing mode M P
  := by
  unfold Machine.invalidateCode
  split
  case h_1 => exact .ok standing
  case h_2 c hc =>
    obtain ⟨hdistinct, hintact⟩ := standing.stocked c hc
    refine (Meets.self False.elim).bind ?_
    rintro ⟨n, c'⟩ hinvalidate
    have hevicts := (CodeCache.invalidate_evicts c start len).post_of_eq hinvalidate
    have hintact' := (CodeCache.invalidate_intact hintact start len).post_of_eq hinvalidate
    refine .ok ⟨standing.memory, ?_, fun hmode => ?_⟩
    · rintro _ ⟨⟩
      exact ⟨hevicts.services ▸ hdistinct, hintact'⟩
    · rw [standing.mode hmode] at hc
      cases hc

section

variable (upkept : Memory.IsUpkept policy M) (standing : m.Standing mode M P)

include upkept standing

theorem flush :
  m.flush.Standing mode M P
  := by
  have hkept := upkept.discard _ m.guest.memory.lookaside.flush standing.memory rfl
  exact (standing.mapMemory _ hkept).flushCode

theorem invalidatePage (page : Word) :
  Meets False (m.invalidatePage page) fun m' => m'.Standing mode M P
  := by
  have hkept := upkept.discard _ (m.guest.memory.lookaside.invalidate page) standing.memory rfl
  have hstanding := standing.mapMemory
    (fun ⟨lookaside, space, policy⟩ => ⟨lookaside.invalidate page, space, policy⟩) hkept
  unfold Machine.invalidatePage
  dsimp only
  split
  · exact hstanding.invalidateCode _ _
  · exact .ok hstanding

theorem load (addr : Word) (data : ByteArray) :
  Meets False (Machine.load addr data m) fun r => r.2.Standing mode M P
  := by
  unfold Machine.load
  split
  case isFalse => exact .ok standing
  case isTrue hin =>
    obtain ⟨-, hfits⟩ := Bool.and_eq_true_iff.mp hin
    have hlayout : m.guest.memory.space.SameLayout (copyIn addr data m.guest.memory.space) :=
      ⟨rfl, Bytes.size_blit (of_decide_eq_true hfits), rfl⟩
    have hkept := upkept.change _ _ standing.memory hlayout
    have hstanding := standing.mapMemory
      (fun ⟨lookaside, space, policy⟩ => ⟨lookaside, copyIn addr data space, policy⟩) hkept
    refine (hstanding.invalidateCode addr _).bind fun m' standing' => ?_
    exact .ok standing'

theorem map (base len : Word) (device : Memory.Device) :
  Meets False (Machine.map base len device m) fun r => r.2.Standing mode M P
  := by
  unfold Machine.map
  refine (Meets.self False.elim).bind fun result hmap => ?_
  cases result with
  | error e => exact .ok standing
  | ok space =>
    have hmapped := upkept.map _ space base len device standing.memory hmap
    have hkept := upkept.discard _ m.guest.memory.lookaside.flush hmapped rfl
    exact .ok (standing.withMemory (g := ⟨m.guest.hart, _⟩) hkept)

theorem restore (s : Snapshot) :
  Meets False (Machine.restore s m) fun r => r.2.Standing mode M P
  := by
  unfold Machine.restore
  split
  · exact .ok standing
  · split
    · exact .ok standing
    case isFalse hsize =>
      have hlayout : m.guest.memory.space.SameLayout
          { m.guest.memory.space with ram := Bytes.extend s.memory m.ram.size } := by
        refine ⟨rfl, ?_, rfl⟩
        dsimp only
        rw [Bytes.size_extend]
        exact Nat.max_eq_right (Nat.not_lt.mp hsize)
      have hkept := upkept.change _ _ standing.memory hlayout
      exact .ok (flush upkept (standing.withMemory (g := ⟨_, _⟩) hkept))

end

end Standing

/-- An instruction of a block whose code is in the code cache. -/
def IsCompiled (m : Machine) (d : Located) : Prop :=
  ∃ c id b block draft, m.cache = some c ∧ c.table.view.bare id = some b ∧
    Codes c.services b block draft ∧ d ∈ block.insns

theorem Standing.steady_started (upkept : Memory.IsUpkept policy M) (standing : m.Standing mode M P)
    (quota : Option Nat) :
  (m.started quota).Steady fun d => m.IsCompiled d ∧ P d
  := by
  obtain ⟨hbudget, hsigned⟩ := toNat_budgetOf quota
  refine ⟨upkept.sound _ standing.memory, rfl, hbudget.trans_lt hsigned, fun c hc => ?_⟩
  obtain ⟨hdistinct, hintact⟩ := standing.stocked c hc
  refine ⟨hdistinct, hintact.imp_of_codes fun id b block draft live codes source => ?_⟩
  refine ⟨source.formed, source.small, fun d hd => ⟨?_, source.known d hd⟩⟩
  exact ⟨c, id, b, block, draft, hc, live, codes, hd⟩

/-- A run leads to a machine between runs, along a course of instructions that were compiled or are
read. -/
theorem Standing.exists_outcome_of_run (upkept : Memory.IsUpkept policy M)
    (shows : Memory.Shows M P) (proper : ∀ d, P d → d.instr.IsProper)
    (standing : m.Standing mode M P) (confined : handler.IsConfined)
    (on : run handler m h quota = .ok (exit, m', h')) :
  ∃ n K', Outcome handler ⟨fun d => m.IsCompiled d ∧ P d, (m.started quota).guest.seen, h⟩
      (budgetOf quota) n exit ⟨K', m'.guest.seen, h'⟩ ∧
    (∀ d, K' d → P d) ∧ M m.guest.memory m'.guest.memory ∧ m'.Standing mode M P
  := by
  obtain ⟨n, K', houtcome, hsteady⟩ :=
    Machine.exists_outcome_of_run confined (standing.steady_started upkept quota) on
  have hkeeps := houtcome.keeps upkept.toIsRoutine upkept.fetch shows proper confined
    ⟨standing.memory, fun _ h => h.2⟩
  have hmemory : M m.guest.memory m'.guest.memory := hkeeps.memory
  refine ⟨n, K', houtcome, hkeeps.known, hmemory, upkept.course.settled _ _ hmemory, ?_, ?_⟩
  · intro c hc
    exact stocked_mono hkeeps.known (hsteady.stocked c hc)
  · intro hmode
    exact turns_cache_eq_none (m := m.started quota) (standing.mode hmode) on

/-- Whatever a machine went through, it stands between runs. -/
theorem Lives.standing (upkept : Memory.IsUpkept policy M) (shows : Memory.Shows M P)
    (proper : ∀ d, P d → d.instr.IsProper)
    (small : config.mode = .jit → config.cacheSize ≤ 0x80000000) (lives : m.Lives config policy) :
  m.Standing config.mode M P
  := by
  induction lives with
  | create distinct on =>
    obtain ⟨space, hmemory, haligned, hwhole, hmode, hcache⟩ := exists_space_of_create on
    refine ⟨?_, fun c hc => ?_, hmode⟩
    · rw [hmemory]
      exact upkept.unused space haligned hwhole
    · have hcreated := CodeCache.created_of_create (hcache c hc)
      refine ⟨hcreated.services ▸ distinct, hcreated.intact (small ?_)⟩
      cases hjit : config.mode with
      | jit => rfl
      | interpret =>
        rw [hmode hjit] at hc
        cases hc
  | hart _ hart ih => exact ih.withMemory ih.memory
  | @ram m _ ram size ih =>
    have hlayout : m.guest.memory.space.SameLayout { m.guest.memory.space with ram } :=
      ⟨rfl, size, rfl⟩
    exact ih.mapMemory _ (upkept.change _ _ ih.memory hlayout)
  | touch _ touches ih =>
    have hlater := touches.stays upkept.toIsRoutine ih.memory
    exact ih.withMemory (upkept.course.settled _ _ hlater)
  | load _ addr data on ih => exact (ih.load upkept addr data).post_of_eq on
  | map _ base len device on ih => exact (ih.map upkept base len device).post_of_eq on
  | invalidatePage _ page on ih => exact (ih.invalidatePage upkept page).post_of_eq on
  | flush _ ih => exact ih.flush upkept
  | flushCode _ ih => exact ih.flushCode
  | restore _ s on ih => exact (ih.restore upkept s).post_of_eq on
  | run _ handler confined quota on ih =>
    obtain ⟨n, K', -, -, -, hstanding⟩ :=
      ih.exists_outcome_of_run upkept shows proper confined on
    exact hstanding

/-! ### Guests do not crash machines -/

/-- What is read as an instruction was decoded. -/
theorem shows_isDecoded (M : Memory → Memory → Prop) :
  Memory.Shows M Located.IsDecoded
  := fun _ _ _ _ _ read => (Block.isDecoded_of_readInstr read).1

theorem Lives.standing_sound (small : config.mode = .jit → config.cacheSize ≤ 0x80000000)
    (lives : m.Lives config policy) :
  m.Standing config.mode Memory.StaysSound Located.IsDecoded
  := lives.standing (Memory.isUpkept_staysSound policy) (shows_isDecoded _) (fun _ h => h.proper) small

/-- A run returns if the handler does, unless there are instructions that cannot be counted. -/
theorem Lives.returns_or_overruns (small : config.mode = .jit → config.cacheSize ≤ 0x80000000)
    (lives : m.Lives config policy) (confined : handler.IsConfined) (replies : handler.Replies)
    (h : η) (quota : Option Nat) :
  (∃ exit m' h', Machine.run handler m h quota = .ok (exit, m', h')) ∨
  ∃ h', Machine.run handler m h quota = .error (.overflow, h') ∧
    (m.started quota).Overruns handler (fun d => m.IsCompiled d ∧ d.IsDecoded) h
  := by
  have hsteady := (lives.standing_sound small).steady_started (Memory.isUpkept_staysSound policy) quota
  obtain ⟨hbudget, -⟩ := toNat_budgetOf quota
  refine (turns_ran_or_overruns (confined.returns replies) hsteady (Nat.le_of_eq hbudget) h).imp_left ?_
  rintro ⟨exit, m', h', hrun, -⟩
  exact ⟨exit, m', h', hrun⟩

/-- No guest crashes a machine that interprets.  Whatever the host left in RAM and registers, whatever
the policy answers, and for every quota, a run returns if the handler does, unless the guest carries
out instructions that there are no numbers left to count.  At every point of its course, the
instructions that were read name registers that exist, and a translation has a result, which lies
within RAM if it is in RAM. -/
theorem interpreting_never_crashes (interprets : config.mode = .interpret)
    (lives : m.Lives config policy) (confined : handler.IsConfined) (replies : handler.Replies)
    (h : η) (quota : Option Nat) :
  ((∃ exit m' h', run handler m h quota = .ok (exit, m', h')) ∨
    ∃ h', run handler m h quota = .error (.overflow, h') ∧
      (m.started quota).Overruns handler (fun _ => False) h) ∧
  ∀ n t, Course handler ⟨fun _ => False, (m.started quota).guest.seen, h⟩ n t →
    (∀ d, t.known d → d.instr.IsProper) ∧
    ∀ addr access, ∃ r memory, (Memory.locate addr access).on t.guest.memory = .ok (r, memory) ∧
      ∀ position, r = .ok (.ram position) → position < t.guest.memory.space.ram.size
  := by
  have hsmall : config.mode = .jit → config.cacheSize ≤ 0x80000000 := by
    rw [interprets]
    nofun
  have hstanding := lives.standing_sound hsmall
  constructor
  · have hnone : (fun d => m.IsCompiled d ∧ d.IsDecoded) = fun _ => False := by
      funext d
      apply eq_false
      rintro ⟨⟨c, _, _, _, _, hcache, -⟩, -⟩
      rw [hstanding.mode interprets] at hcache
      cases hcache
    rw [← hnone]
    exact lives.returns_or_overruns hsmall confined replies h quota
  · intro n t hcourse
    have hkeeps := hcourse.keeps Memory.isRoutine_staysSound Memory.sound_fetch (shows_isDecoded _)
      (fun _ h => h.proper) confined ⟨hstanding.memory, nofun⟩
    refine ⟨fun d hd => (hkeeps.known d hd).proper, fun addr access => ?_⟩
    exact hkeeps.memory.2.exists_locate addr access

/-- A page that starts with the number 7 and ends with two instructions: a load at the stack pointer and
an addition. -/
def topCode : ByteArray :=
  ⟨(7 :: (List.replicate 0xffb (0 : UInt8) ++ [0x82, 0x45, 0x09, 0x05])).toArray⟩

theorem size_topCode :
  topCode.size = 0x1000
  := by
  rw [← ByteArray.size_data, topCode, List.size_toArray, List.length_cons, List.length_append,
    List.length_replicate]
  rfl

/-- The machine at these instructions, which are the last ones of all, with the stack pointer at the start
of the page and all other registers at their greatest value. -/
def atTop (m : Machine) : Machine :=
  let m := m.mapMemory fun ⟨lookaside, space, policy⟩ =>
    ⟨lookaside, { space with ram := topCode }, policy⟩
  let regs : Registers := ⟨.replicate 32 0xffffffffffffffff, 0xfffffffffffffffc⟩
  m.withGuest ⟨{ regs := regs.put stackPointer 0xfffffffffffff000 }, m.guest.memory⟩

/-- The policy denies everything but what it is asked first.  The two instructions are carried out, and
then the program counter is at 0, where there is nothing. -/
theorem interpreting_never_crashes_at_top :
  ∃ m₀ m' h', create { base := 0xfffffffffffff000, memorySize := 0x1000, mode := .interpret }
      { answer := fun history _ => history.length < 3 } = .ok (.ok m₀) ∧
    run counting m₀.atTop 0 none = .ok (.exception ⟨.instructionAccessFault, 0⟩ 0, m', h') ∧
    m'.guest.hart.retired = 2 ∧ m'.guest.hart.regs.get 10 = .ok 1 ∧ m'.guest.hart.regs.get 11 = .ok 7
  := by
  let config : Config := { base := 0xfffffffffffff000, memorySize := 0x1000, mode := .interpret }
  let policy : Memory.Policy := { answer := fun history _ => history.length < 3 }
  have hends : ((create config policy).toOption.bind fun r => r.toOption.bind fun m₀ =>
      (run counting m₀.atTop 0 none).toOption.map fun r =>
        (m₀.ram.size, r.1, r.2.1.guest.hart.retired, (r.2.1.guest.hart.regs.get 10).toOption,
          (r.2.1.guest.hart.regs.get 11).toOption)) =
      some (0x1000, .exception ⟨.instructionAccessFault, 0⟩ 0, 2, some 1, some 7) := by
    decide +kernel
  obtain ⟨r, hr, hends⟩ := Option.bind_eq_some_iff.mp hends
  obtain ⟨m₀, hm₀, hends⟩ := Option.bind_eq_some_iff.mp hends
  obtain ⟨⟨exit, m', h'⟩, hends, hfields⟩ := Except.exists_of_toOption hends
  obtain ⟨hsize, rfl, hretired, hsum, hloaded⟩ : m₀.ram.size = 0x1000 ∧
      exit = .exception ⟨.instructionAccessFault, 0⟩ 0 ∧ m'.guest.hart.retired = 2 ∧
      (m'.guest.hart.regs.get 10).toOption = some 1 ∧
      (m'.guest.hart.regs.get 11).toOption = some 7 := by simpa using hfields
  rw [Except.eq_ok_of_toOption hm₀] at hr
  have hcreate := Except.eq_ok_of_toOption hr
  have hcode : topCode.size = m₀.ram.size := size_topCode.trans hsize.symm
  have hlives : m₀.atTop.Lives config policy := ((Lives.create (by decide) hcreate).ram topCode hcode).hart _
  have hconfined : Handler.IsConfined counting := by
    rintro _ _ _ _ _ _ ⟨⟩
    exact .start
  have hreplies : Handler.Replies counting := fun _ _ _ _ => ⟨_, rfl⟩
  obtain ⟨⟨_, _, _, hrun⟩ | ⟨_, hrun, -⟩, -⟩ :=
    interpreting_never_crashes rfl hlives hconfined hreplies 0 none
  · obtain ⟨⟩ := hends.symm.trans hrun
    exact ⟨m₀, m', h', hcreate, hrun, hretired, Except.eq_ok_of_toOption hsum,
      Except.eq_ok_of_toOption hloaded⟩
  · cases hends.symm.trans hrun

end Machine

end CrossHart
