import CrossHart.Proofs.Machine.Lifetime

/-!
# The rights of pages in runs

Under a policy that does not change its mind, a run changes no byte of RAM on a page that may not be
written, and carries out only instructions that were read from pages that may be executed.  It
makes no difference whether instructions are compiled or interpreted, when they were compiled, and
which buffers a confined handler fills.
-/

namespace CrossHart

open CrossHart.Action Isa

variable {allows : Memory.Query → Bool}

/-- An instruction that was decoded, with all bytes on pages that may be executed. -/
structure Isa.Located.IsExecutable (allows : Memory.Query → Bool) (d : Located) : Prop where
  decoded : d.IsDecoded
  pages : ∀ k < d.width, allows ⟨Memory.pageOf (d.pc + BitVec.ofNat 64 k), .execute⟩ = true

/-- What is read as an instruction is on pages that may be executed. -/
theorem Memory.shows_isExecutable (allows : Query → Bool) :
  Shows (Protects allows) (Located.IsExecutable allows)
  := by
  intro m m' pc d protects read
  constructor
  · exact (Block.isDecoded_of_readInstr read).1
  · exact fun k hk => protects.before.toHonest.executable_of_read read hk

namespace Machine

variable {η : Type} {handler : Handler η} {config : Config} {policy : Memory.Policy} {m m' : Machine}
  {h h' : η} {exit : RunExit} {quota : Option Nat}

/-- Whatever the guest does, whether it is compiled or interpreted, and whatever happened to the machine
before, a run with a confined handler leaves all bytes of RAM on pages that may not be written as
they were.  All instructions that it carries out were compiled before or are read in its course, and
all of their bytes are on pages that may be executed. -/
theorem run_respects_rights (pure : policy.IsPure allows)
    (small : config.mode = .jit → config.cacheSize ≤ 0x80000000) (lives : m.Lives config policy)
    (confined : handler.IsConfined) (on : run handler m h quota = .ok (exit, m', h')) :
  m.guest.memory.space.SameLayout m'.guest.memory.space ∧
  (∀ addr, allows ⟨Memory.pageOf addr, .write⟩ = false →
    m'.guest.memory.space.byteAt addr = m.guest.memory.space.byteAt addr) ∧
  ∃ n K, Outcome handler ⟨fun d => m.IsCompiled d ∧ d.IsExecutable allows,
      (m.started quota).guest.seen, h⟩ (budgetOf quota) n exit ⟨K, m'.guest.seen, h'⟩ ∧
    ∀ d, K d → d.IsExecutable allows
  := by
  have hupkept := Memory.isUpkept_protects pure
  have hshows := Memory.shows_isExecutable allows
  have hproper (d : Located) (hd : d.IsExecutable allows) : d.instr.IsProper := hd.decoded.proper
  have hstanding := lives.standing hupkept hshows hproper small
  obtain ⟨n, K, houtcome, hknown, hprotects, -⟩ :=
    hstanding.exists_outcome_of_run hupkept hshows hproper confined on
  exact ⟨hprotects.layout, hprotects.kept, n, K, houtcome, hknown⟩

/-- A handler that stores where the guest asks it to. -/
def storing : Handler Nat := fun call calls memory => do
  let (_, memory) ← (Memory.store (call.args.get 0) 8 (call.args.get 1)).on memory
  return (.ret 0, calls + 1, memory)

theorem isConfined_storing :
  Handler.IsConfined storing
  := by
  intro call calls m outcome calls' m' on
  obtain ⟨⟨r, m₁⟩, hstore, on⟩ := Except.bind_eq_ok.mp on
  cases on
  exact .store .start (by decide) hstore

theorem replies_storing :
  Handler.Replies storing
  := by
  intro call calls m sound
  obtain ⟨⟨r, m₁⟩, hstore, -⟩ := (Memory.sound_store (call.args.get 0) (by decide : 8 ≤ 8) (call.args.get 1) m
    sound.stays).exists_ok trivial
  unfold storing
  rw [hstore]
  exact ⟨_, rfl⟩

/-- Code on the first page may be executed but not written, all else may be written but not executed. -/
def codeRights (q : Memory.Query) : Bool :=
  if q.page = 0 then q.access != .write else q.access != .execute

/-- A system call that asks for a store on the first page, and then such a store. -/
def storingCode : ByteArray :=
  Bytes.overwrite (Bytes.zeros 0x2000) 0 [0x73, 0, 0, 0, 0x23, 0x30, 0, 0]

/-- Neither the guest nor the handler changes the code. -/
theorem run_respects_rights_of_code :
  ∃ m₀ exit m' h', create { cacheSize := 0x10000, memorySize := 0x2000 } (.ofFun codeRights) =
      .ok (.ok m₀) ∧
    run storing (m₀.mapMemory fun ⟨lookaside, space, policy⟩ =>
      ⟨lookaside, { space with ram := storingCode }, policy⟩) 0 (some 100) = .ok (exit, m', h') ∧
    ∀ addr, Memory.pageOf addr = 0 → m'.guest.memory.space.byteAt addr =
      Memory.Space.byteAt ⟨storingCode, 0, []⟩ addr
  := by
  obtain ⟨c₀, created⟩ := CodeCache.exists_create (by decide : Host.Platform.standard.Affords 0x10000) .fifo
    .standard
  have hspace : Memory.Space.create 0 (BitVec.ofNat 64 0x2000) =
      .ok { ram := Bytes.zeros 0x2000, base := 0 } := rfl
  obtain ⟨m₀, hcreate, hm₀, hretired⟩ : ∃ m₀,
      create { cacheSize := 0x10000, memorySize := 0x2000 } (.ofFun codeRights) = .ok (.ok m₀) ∧
      m₀.guest.memory.space = ⟨Bytes.zeros 0x2000, 0, []⟩ ∧ m₀.guest.hart.retired = 0 := by
    unfold create
    rw [hspace, Except.ok_bind]
    dsimp only
    rw [created]
    exact ⟨_, rfl, rfl, rfl⟩
  have hsize : storingCode.size = m₀.ram.size := by
    rw [ram, hm₀, storingCode, Bytes.size_overwrite]
  have hlives := (Lives.create (by decide) hcreate).ram storingCode hsize
  have hpure : (Memory.Policy.ofFun codeRights).IsPure codeRights := fun _ _ => rfl
  obtain ⟨exit, m', h', hrun⟩ | ⟨h', -, hfull⟩ :=
    hlives.returns_or_overruns (fun _ => by decide) isConfined_storing replies_storing 0 (some 100)
  · obtain ⟨-, hkept, -⟩ :=
      run_respects_rights hpure (fun _ => by decide) hlives isConfined_storing hrun
    refine ⟨m₀, exit, m', h', hcreate, hrun, fun addr hpage => ?_⟩
    rw [hkept addr (by rw [codeRights, if_pos hpage]; rfl)]
    change Memory.Space.byteAt { m₀.guest.memory.space with ram := storingCode } addr = _
    rw [hm₀]
  · have hfull : Word.count ≤ m₀.guest.hart.retired.toNat + 100 := hfull.le_horizon rfl
    rw [hretired] at hfull
    exact absurd hfull (by decide)

end Machine

end CrossHart
