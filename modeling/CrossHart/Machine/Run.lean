import CrossHart.Machine.State

/-!
# Running a machine

The engine goes round in a loop.  It looks for compiled code at the program counter, compiles the
block there if there is none, and enters it; where that is not possible it interprets a single
instruction.  A run ends when the guest exits, when an exception is raised, or when the quota of
instructions is used up.

System calls go to a handler, which has a state of its own and may use guest memory.
-/

namespace CrossHart

open Cache Host

/-- A system call: its number, its arguments, and the registers. -/
structure Call where
  number : Word
  args : Vector Word 4
  regs : Registers

/-- The answer to a system call. -/
inductive CallOutcome where
  /-- The guest goes on with a value in the first argument register. -/
  | ret (v : Word)
  /-- The guest exits with a status. -/
  | exit (status : BitVec 32)
  deriving DecidableEq, Repr

/-- A handler of system calls with states `η`. -/
abbrev Handler (η : Type) := Call → η → Memory → Except Crash (CallOutcome × η × Memory)

/-- The ways in which a run ends. -/
inductive RunExit where
  | exit (status : BitVec 32)
  | exception (e : Exception) (pc : Word)
  | quotaExhausted
  deriving DecidableEq, Repr

namespace Machine

/-- The machine with its guest changed. -/
def withGuest (m : Machine) (guest : Guest) : Machine :=
  { m with guest }

/-- The machine with its hart changed. -/
def withHart (m : Machine) (f : Hart → Except Crash Hart) : Except Crash Machine :=
  match m with
  | ⟨⟨hart, memory⟩, cache, config, failures, entries, interpreted⟩ => do
    return ⟨⟨← f hart, memory⟩, cache, config, failures, entries, interpreted⟩

/-! ### Compilation -/

/-- The number of the compiled block at an address, after compiling it if need be. -/
def compiled (m : Machine) (pc : Word) : Except Crash (Option Nat × Machine) :=
  match m with
  | ⟨guest, none, config, failures, entries, interpreted⟩ =>
    .ok (none, ⟨guest, none, config, failures, entries, interpreted⟩)
  | ⟨⟨hart, memory⟩, some cache, config, failures, entries, interpreted⟩ =>
    match cache.lookup pc with
    | (some id, cache) =>
      .ok (some id, ⟨⟨hart, memory⟩, some cache, config, failures, entries, interpreted⟩)
    | (none, cache) => do
      let (block, memory) ← (Block.form Memory.fetch pc config.blockLimit).on memory
      let (result, cache) ←
        match block with
        | .error e => pure (.error e, cache)
        | .ok block => cache.install block
      match result with
      | .ok id =>
        return (some id, ⟨⟨hart, memory⟩, some cache, config, failures, entries, interpreted⟩)
      | .error _ =>
        return (none, ⟨⟨hart, memory⟩, some cache, config, failures + 1, entries, interpreted⟩)

/-- The number of a compiled block that the budget covers. -/
def affordable (m : Machine) (id : Option Nat) : Option Nat :=
  id.filter fun id =>
    match m.cache.bind (·.block? id) with
    | some b => (b.count : Int) ≤ m.guest.hart.budget.toInt
    | none => false

/-! ### Retirement -/

/-- The hart after an instruction outside compiled code. -/
def retireOne (h : Hart) : Except Crash Hart := do
  let retired ← Word.sum h.retired 1
  let budget ← Word.signedDiff h.budget 1
  return { h with retired, budget, budgetStart := budget }

/-- The hart after a run of compiled code. -/
def retireRun (h : Hart) : Except Crash Hart := do
  let ran ← Word.signedDiff h.budgetStart h.budget
  let retired ← Word.sum h.retired ran
  return { h with retired, budgetStart := h.budget }

/-! ### System calls -/

section

variable {η : Type} (handler : Handler η)

/-- The result of a turn of the engine: how the run ends, if it does, and the states after it. -/
abbrev Turn (η : Type) := Option RunExit × Machine × η

/-- The system call at an address. -/
def ecall (pc : Word) (m : Machine) (h : η) : Except Crash (Turn η) := do
  let regs := m.guest.hart.regs
  let number ← regs.get callNumber
  let args ← (Vector.range 4).mapM fun i => regs.get (firstArgument + i)
  match m with
  | ⟨⟨hart, memory⟩, cache, config, failures, entries, interpreted⟩ =>
    let (outcome, h, memory) ← handler ⟨number, args, regs⟩ h memory
    match outcome with
    | .exit status =>
      return (some (.exit status),
        ⟨⟨hart, memory⟩, cache, config, failures, entries, interpreted⟩, h)
    | .ret v =>
      let regs ← hart.regs.set firstArgument v
      let hart := { hart with regs := { regs with pc := pc + 4 } }
      return (none, ⟨⟨hart, memory⟩, cache, config, failures, entries, interpreted⟩, h)

/-! ### Turns -/

/-- What follows when compiled code is back at the engine for a reason. -/
def afterCode (reason : ExitReason) (m : Machine) (h : η) : Except Crash (Turn η) :=
  let pc := m.guest.hart.regs.pc
  match reason with
  | .chain | .indirect | .budget => return (none, m, h)
  | .ecall => ecall handler pc m h
  | .ebreak => return (some (.exception ⟨.breakpoint, pc⟩ pc), m, h)
  | .exception =>
    match Cause.ofCode? m.guest.hart.cause.toNat with
    | none => throw (.breach .unknownCause)
    | some cause => return (some (.exception ⟨cause, m.guest.hart.tval⟩ pc), m, h)
  | .fenceI => return (none, m.flushCode, h)

/-- Compiled code, from a block on until it is back at the engine. -/
def runCode (id : Nat) (m : Machine) (h : η) : Except Crash (Turn η) :=
  match m with
  | ⟨_, none, _, _, _, _⟩ => .error (.breach .noCache)
  | ⟨⟨hart, memory⟩, some cache, config, failures, entries, interpreted⟩ => do
    let hart := { hart with budgetStart := hart.budget }
    let (code, ⟨hart, memory⟩) ← cache.enter id ⟨hart, memory⟩
    let hart ← retireRun hart
    match ExitReason.ofCode? code with
    | none => throw (.breach .unknownExit)
    | some reason =>
      afterCode handler reason
        ⟨⟨hart, memory⟩, some cache, config, failures, entries + 1, interpreted⟩ h

/-- One interpreted instruction. -/
def interpretOne (m : Machine) (h : η) : Except Crash (Turn η) :=
  let pc := m.guest.hart.regs.pc
  match m with
  | ⟨⟨hart, memory⟩, cache, config, failures, entries, interpreted⟩ => do
    let (fetched, memory) ← (Block.readInstr Memory.fetch pc).on memory
    match fetched with
    | .error e =>
      let e : Exception ←
        match e with
        | .fetch f => pure (.ofFault f)
        | .decode e => pure (.ofDecodeError e)
        | .outOfCapacity _ => throw .badArgument
      return (some (.exception e pc),
        ⟨⟨hart, memory⟩, cache, config, failures, entries, interpreted⟩, h)
    | .ok d =>
      let (result, ⟨hart, memory⟩) ← (Hart.step d).on ⟨hart, memory⟩
      let m (hart : Hart) : Machine :=
        ⟨⟨hart, memory⟩, cache, config, failures, entries, interpreted + 1⟩
      match result with
      | .ok .continue => return (none, m (← retireOne hart), h)
      | .ok .fenceI => return (none, (m (← retireOne hart)).flushCode, h)
      | .ok .ecall => ecall handler pc (m (← retireOne hart)) h
      | .error e =>
        let hart ← if e.cause = .breakpoint then retireOne hart else pure hart
        return (some (.exception e pc), m hart, h)

/-- One turn of the engine. -/
def turn (m : Machine) (h : η) : Except Crash (Turn η) := do
  let (id, m) ← m.compiled m.guest.hart.regs.pc
  match m.affordable id with
  | some id => runCode handler id m h
  | none => interpretOne handler m h

/-! ### Runs -/

/-- Turns of the engine until the run ends, at most `fuel` of them.  After a crash, the state of the
handler at that time. -/
def turns : (fuel : Nat) → Machine → η → Except (Crash × η) (RunExit × Machine × η)
  | fuel, m, h =>
    if m.guest.hart.budget.toInt ≤ 0 then .ok (.quotaExhausted, m, h)
    else
      match fuel with
      | 0 => .error (.hostFault, h)
      | fuel + 1 =>
        match turn handler m h with
        | .error crash => .error (crash, h)
        | .ok (some exit, m, h) => .ok (exit, m, h)
        | .ok (none, m, h) => turns fuel m h

/-- The greatest budget. -/
def maxBudget : Nat := 0x7fffffffffffffff

/-- The budget for a quota. -/
def budgetOf (quota : Option Nat) : Nat :=
  min (quota.getD maxBudget) maxBudget

/-- Running a machine for at most a quota of instructions, or without one.  Every turn that does
not end the run uses up some of the budget. -/
def run (m : Machine) (h : η) (quota : Option Nat) :
    Except (Crash × η) (RunExit × Machine × η) :=
  let budget := budgetOf quota
  let word := BitVec.ofNat 64 budget
  match m with
  | ⟨⟨hart, memory⟩, cache, config, failures, entries, interpreted⟩ =>
    let hart := { hart with budget := word, budgetStart := word }
    turns handler budget ⟨⟨hart, memory⟩, cache, config, failures, entries, interpreted⟩ h

end

end Machine

end CrossHart
