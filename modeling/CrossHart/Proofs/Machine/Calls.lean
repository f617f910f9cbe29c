import CrossHart.Proofs.Machine.Lockstep

/-!
# Two machines side by side

Machines whose guests cannot be told apart do the same where compiled code plays no part: in a system
call, in what follows the instructions of a turn, and in an interpreted instruction.
-/

namespace CrossHart

open CrossHart.Action Isa

variable {allows : Memory.Query → Bool} {η : Type}

/-! ### Pairs of computations -/

section

variable {α β α' β' : Type} {C : Crash → Prop} {R : α → β → Prop} {S : α' → β' → Prop}

/-- Two computations have related results, or crash in the same way, which `C` knows of. -/
inductive Pairs (C : Crash → Prop) (R : α → β → Prop) : Except Crash α → Except Crash β → Prop
  | ok {a : α} {b : β} (related : R a b) : Pairs C R (.ok a) (.ok b)
  | crash {c : Crash} (known : C c) : Pairs C R (.error c) (.error c)

namespace Pairs

theorem bind {x : Except Crash α} {y : Except Crash β} {f : α → Except Crash α'}
    {g : β → Except Crash β'} (h : Pairs C R x y) (hfg : ∀ a b, R a b → Pairs C S (f a) (g b)) :
  Pairs C S (x >>= f) (y >>= g)
  := by
  cases h with
  | ok related => exact hfg _ _ related
  | crash known => exact .crash known

theorem imp {C' : Crash → Prop} {R' : α → β → Prop} {x : Except Crash α} {y : Except Crash β}
    (h : Pairs C R x y) (hC : ∀ c, x = .error c → C c → C' c) (hR : ∀ a b, R a b → R' a b) :
  Pairs C' R' x y
  := by
  cases h with
  | ok related => exact .ok (hR _ _ related)
  | crash known => exact .crash (hC _ rfl known)

/-- What is related are the results. -/
theorem known {x : Except Crash α} {y : Except Crash β} (h : Pairs C R x y) :
  Pairs C (fun a b => R a b ∧ x = .ok a ∧ y = .ok b) x y
  := by
  cases h with
  | ok related => exact .ok ⟨related, rfl, rfl⟩
  | crash known => exact .crash known

end Pairs

end

/-! ### Handlers -/

namespace Handler

/-- The same answer and the same state, and memory that cannot be told apart, changed only where the
policy lets it be written. -/
structure Answers {α : Type} (allows : Memory.Query → Bool) (before : Memory) (r r' : α × η × Memory) :
    Prop where
  outcome : r.1 = r'.1
  state : r.2.1 = r'.2.1
  memory : Memory.Alike allows r.2.2 r'.2.2
  evolves : before.Evolves allows r.2.2

/-- What a handler does is decided by the call, by its own state and by what can be seen of memory,
and it changes memory only where the policy lets it be written.  This is so of handlers that use
memory through loads and stores. -/
def IsRegular (allows : Memory.Query → Bool) (handler : Handler η) : Prop :=
  ∀ call h m m', Memory.Alike allows m m' → m.Plain allows →
    Pairs (fun _ => True) (Answers allows m) (handler call h m) (handler call h m')

end Handler

theorem Action.Throws.adapt {σ ε ε' α : Type} {E : ε' → Prop} {f : ε → ε'} (h : ∀ e, E (f e))
    (a : Action σ ε α) :
  Throws E (ExceptT.adapt f a : Action σ ε' α)
  := by
  intro s e t ht
  rw [on_adapt] at ht
  cases hr : a.on s with
  | error c =>
    rw [hr] at ht
    cases ht
  | ok r =>
    obtain ⟨y, u⟩ := r
    rw [hr] at ht
    cases y with
    | ok x => cases ht
    | error e' =>
      cases ht
      exact h e'

/-- An instruction cannot be read because of a fetch, or because of its bits. -/
theorem Block.throws_readInstr (pc : Word) :
  Throws (fun e => ∀ needed, e ≠ .outOfCapacity needed) (Block.readInstr Memory.fetch pc)
  := by
  refine (Throws.adapt (fun _ _ => nofun) _).bind fun raw => ?_
  split
  · exact .pure _
  · exact .throw nofun

theorem Memory.Evolves.of_alike {m m' m'' : Memory} (evolves : m.Evolves allows m')
    (alike : Memory.Alike allows m' m'') :
  m.Evolves allows m''
  := by
  refine ⟨evolves.before, alike.plain evolves.after, ?_, ?_⟩
  · rw [← alike.space]
    exact evolves.layout
  · rw [← alike.space]
    exact evolves.kept

namespace Registers

theorem mapM_get (r : Registers) (is : List Nat) (h : ∀ i ∈ is, firstArgument + i < 32) :
  is.mapM (fun i => r.get (firstArgument + i)) = .ok (is.map fun i => r.value (firstArgument + i))
  := by
  induction is with
  | nil => rfl
  | cons i is ih =>
    obtain ⟨hi, his⟩ := List.forall_mem_cons.mp h
    rw [List.mapM_cons, get_eq_value r hi, ih his]
    rfl

/-- The arguments of a system call. -/
def args (r : Registers) : Vector Word 4 :=
  (Vector.range 4).map fun i => r.value (firstArgument + i)

theorem mapM_args (r : Registers) :
  (Vector.range 4).mapM (fun i => r.get (firstArgument + i)) = .ok r.args
  := by
  apply Except.eq_of_map_eq (f := Vector.toArray) fun _ _ => Vector.toArray_inj.mp
  apply Except.eq_of_map_eq (f := Array.toList) fun _ _ => Array.toList_inj.mp
  rw [Vector.toArray_mapM, Array.toList_mapM]
  apply (r.mapM_get (Vector.range 4).toList (by decide)).trans
  apply congrArg Except.ok
  rw [args, Vector.toArray_map, Array.toList_map]
  rfl

/-- The system call that the registers ask for. -/
def call (r : Registers) : Call :=
  ⟨r.value callNumber, r.args, r⟩

end Registers

namespace Hart

/-- The count of instructions when the budget is used up. -/
def horizon (h : Hart) : Nat :=
  h.retired.toNat + h.budgetStart.toNat

theorem total_le_horizon (h : Hart) :
  h.total ≤ h.horizon
  := by
  rw [total, horizon]
  omega

theorem memory_settle (r : Except Exception StepExit) (g : Guest) :
  (settle r g).memory = g.memory
  := by
  unfold settle
  split <;> rfl

theorem horizon_settle (r : Except Exception StepExit) (g : Guest) :
  (settle r g).hart.horizon = g.hart.horizon
  := by
  unfold settle
  split <;> rfl

namespace Counts

variable {h k k' : Hart}

/-- Harts that count at once what the same hart counts later. -/
theorem join (hk : Counts h k) (hk' : Counts h k') :
  Counts k k'
  := by
  have hlt := k.retired.isLt
  have hspent := hk.spent
  have hsigned := hk.signed
  have hbudget := hk.budget
  refine ⟨?_, ?_, ?_, ?_, hk'.level, ?_, ?_, ?_⟩
  · rw [hk.regs, hk'.regs]
  · rw [hk.reservation, hk'.reservation]
  · rw [hk.budget, hk'.budget]
  · rw [hk.instret, hk'.instret]
  · exact Nat.le_of_eq (congrArg BitVec.toNat hk.level.symm)
  · rw [hk.level, hbudget]
    omega
  · rw [total, hk.level, Nat.sub_self]
    exact hlt

/-- A hart between two runs counts at once. -/
theorem self (level : h.budgetStart = h.budget) (signed : h.budget.toNat < 2 ^ 63) :
  Counts h h
  := by
  refine ⟨rfl, rfl, rfl, rfl, level, Nat.le_of_eq (congrArg BitVec.toNat level.symm), ?_, ?_⟩
  · rw [level]
    exact signed
  · rw [total, level, Nat.sub_self]
    exact h.retired.isLt

theorem horizon_eq (hk : Counts h k) :
  k.horizon = h.horizon
  := by
  have hspent := hk.spent
  rw [horizon, horizon, hk.toNat_retired, hk.level, hk.budget, total]
  omega

theorem withRegs (hk : Counts h k) (regs : Registers) :
  Counts { h with regs } { k with regs }
  := ⟨rfl, hk.reservation, hk.budget, hk.instret, hk.level, hk.spent, hk.signed, hk.room⟩

/-- The exception left by a service does not count. -/
theorem withRaised (hk : Counts h k) (cause tval : Word) :
  Counts { h with cause, tval } k
  := ⟨hk.regs, hk.reservation, hk.budget, hk.instret, hk.level, hk.spent, hk.signed, hk.room⟩

end Counts

end Hart

namespace Machine

variable {handler : Handler η} {m m₂ x x₂ : Machine} {h : η} {k : Nat}

/-- Two machines between turns whose guests cannot be told apart. -/
structure Twins (allows : Memory.Query → Bool) (m x : Machine) : Prop where
  alike : m.guest.Alike allows x.guest
  plain : m.guest.memory.Plain allows
  level : m.guest.hart.budgetStart = m.guest.hart.budget

/-- The crashes of a turn: the handler crashes, or no number is left to count instructions. -/
def Fails (allows : Memory.Query → Bool) (handler : Handler η) (h : η) (horizon : Nat) (c : Crash) :
    Prop :=
  (∃ call memory, memory.Plain allows ∧ handler call h memory = .error c) ∨
    c = .overflow ∧ Word.count ≤ horizon

/-- What a machine that has carried out some instructions keeps of the machine before. -/
structure Keeps (allows : Memory.Query → Bool) (m m' : Machine) : Prop where
  memory : m.guest.memory.Evolves allows m'.guest.memory
  horizon : m'.guest.hart.horizon = m.guest.hart.horizon

/-- The results of turns from `m` and its twin: the same exit, the same state of the handler, and
twins again.  If the run goes on, `k` instructions are paid for. -/
structure Tallies (allows : Memory.Query → Bool) (m : Machine) (k : Nat) (r r' : Turn η) : Prop where
  exit : r.1 = r'.1
  state : r.2.2 = r'.2.2
  twins : Twins allows r.2.1 r'.2.1
  keeps : m.Keeps allows r.2.1
  spends : r.1 = none → k + r.2.1.guest.hart.budget.toNat = m.guest.hart.budget.toNat

/-- Results that tally, with the code cache as it was or flushed. -/
structure Follows (allows : Memory.Query → Bool) (m : Machine) (k : Nat) (r r' : Turn η) : Prop
    extends Tallies allows m k r r' where
  cache : r.2.1.cache = m.cache ∨ r.2.1.cache = m.cache.map (·.flush)

/-- The machine with the guest after a call. -/
def answered (m : Machine) (pc : Word) : CallOutcome × η × Memory → Turn η
  | (.exit status, h, memory) => (some (.exit status), m.withGuest ⟨m.guest.hart, memory⟩, h)
  | (.ret v, h, memory) =>
    (none, m.withGuest ⟨{ m.guest.hart with
      regs := { m.guest.hart.regs.put firstArgument v with pc := pc + 4 } }, memory⟩, h)

/-- A system call is answered by the handler. -/
theorem ecall_eq (handler : Handler η) (m : Machine) (pc : Word) (h : η) :
  ecall handler pc m h =
    handler m.guest.hart.regs.call h m.guest.memory >>= fun r => .ok (m.answered pc r)
  := by
  obtain ⟨⟨hart, memory⟩, cache, config, failures, entries, interpreted⟩ := m
  unfold ecall
  dsimp only
  rw [Registers.get_eq_value _ (by decide), Except.ok_bind, Registers.mapM_args, Except.ok_bind]
  congr 1
  funext r
  obtain ⟨outcome, h', memory'⟩ := r
  cases outcome with
  | exit status => rfl
  | ret v =>
    dsimp only
    rw [Registers.set_eq_put _ (by decide)]
    rfl

/-- What instructions that ended in some way are paid for. -/
structure Settled (allows : Memory.Query → Bool) (m m₂ : Machine)
    (r : Except Exception Hart.StepExit) (k : Nat) : Prop extends Keeps allows m m₂ where
  cache : m₂.cache = m.cache
  paid : Hart.charges r → k + m₂.guest.hart.budget.toNat = m.guest.hart.budget.toNat

section

variable (regular : Handler.IsRegular allows handler) (twins : Twins allows m₂ x₂)

include regular twins

theorem ecall_pairs {N : Nat} (settled : Settled allows m m₂ (.ok .ecall) k) (pc : Word) (h : η) :
  Pairs (Fails allows handler h N) (Follows allows m k) (ecall handler pc m₂ h) (ecall handler pc x₂ h)
  := by
  have hpairs := regular m₂.guest.hart.regs.call h _ _ twins.alike.2 twins.plain
  rw [ecall_eq, ecall_eq, twins.alike.1.regs]
  refine (hpairs.imp (fun c hc _ => .inl ⟨_, _, twins.plain, hc⟩) fun _ _ answers => answers).bind ?_
  rintro ⟨outcome, h', memory⟩ ⟨_, _, memory'⟩ ⟨rfl, rfl, hmemory, hlater⟩
  have hplain : memory.Plain allows := hlater.after
  have hkeeps : m.guest.memory.Evolves allows memory :=
    (Memory.isCourse_evolves allows).trans _ _ _ settled.memory hlater
  cases outcome with
  | exit status =>
    exact .ok ⟨⟨rfl, rfl, ⟨⟨twins.alike.1, hmemory⟩, hplain, twins.level⟩,
      ⟨hkeeps, settled.horizon⟩, nofun⟩, .inl settled.cache⟩
  | ret v =>
    refine .ok ⟨⟨rfl, rfl, ⟨⟨?_, hmemory⟩, hplain, twins.level⟩, ⟨hkeeps, settled.horizon⟩,
      fun _ => settled.paid rfl⟩, .inl settled.cache⟩
    have hcounts := twins.alike.1.withRegs
      { m₂.guest.hart.regs.put firstArgument v with pc := pc + 4 }
    dsimp only [answered, withGuest]
    rw [twins.alike.1.regs]
    exact hcounts

/-- What follows the instructions of a turn is the same for twins. -/
theorem finish_pairs {N : Nat} {r : Except Exception Hart.StepExit} (settled : Settled allows m m₂ r k)
    (h : η) :
  Pairs (Fails allows handler h N) (Follows allows m k) (finish handler r m₂ h) (finish handler r x₂ h)
  := by
  match r with
  | .ok .continue =>
    exact .ok ⟨⟨rfl, rfl, twins, settled.toKeeps, fun _ => settled.paid rfl⟩, .inl settled.cache⟩
  | .ok .fenceI =>
    refine .ok ⟨⟨rfl, rfl, ⟨twins.alike, twins.plain, twins.level⟩,
      ⟨settled.memory, settled.horizon⟩, fun _ => settled.paid rfl⟩, .inr ?_⟩
    rw [← settled.cache]
    rfl
  | .ok .ecall =>
    unfold finish
    dsimp only
    rw [twins.alike.1.regs]
    exact ecall_pairs regular twins settled _ h
  | .error e =>
    refine .ok ⟨⟨?_, rfl, twins, settled.toKeeps, nofun⟩, .inl settled.cache⟩
    dsimp only
    rw [twins.alike.1.regs]

end

/-- The run goes on after an instruction that counts. -/
theorem charges_of_finish {r : Except Exception Hart.StepExit} {t : Turn η}
    (on : finish handler r m h = .ok t) (goes : t.1 = none) :
  Hart.charges r
  := by
  match r with
  | .ok exit => rfl
  | .error e =>
    cases on
    cases goes

/-! ### Interpreted instructions -/

/-- The exception of an instruction that cannot be read. -/
inductive Raises : CompileError → Exception → Prop
  | fetch (f : Memory.Fault) : Raises (.fetch f) (.ofFault f)
  | decode (e : DecodeError) : Raises (.decode e) (.ofDecodeError e)

theorem exists_raises {e : CompileError} (read : ∀ needed, e ≠ .outOfCapacity needed) :
  ∃ raised, Raises e raised
  := by
  cases e with
  | outOfCapacity needed => exact absurd rfl (read needed)
  | fetch f => exact ⟨_, .fetch f⟩
  | decode e => exact ⟨_, .decode e⟩

/-- An instruction that cannot be read is an exception. -/
theorem interpretOne_of_raises (handler : Handler η) {e : CompileError} {raised : Exception}
    (raises : Raises e raised) {memory : Memory}
    (read : (Block.readInstr Memory.fetch m.guest.hart.regs.pc).on m.guest.memory =
      .ok (.error e, memory)) (h : η) :
  interpretOne handler m h = .ok (some (.exception raised m.guest.hart.regs.pc),
    m.withGuest ⟨m.guest.hart, memory⟩, h)
  := by
  obtain ⟨⟨hart, memory₀⟩, cache, config, failures, entries, interpreted⟩ := m
  unfold interpretOne
  dsimp only at read ⊢
  rw [read]
  cases raises with
  | fetch f => rfl
  | decode e => rfl

theorem interpretOne_of_fault (handler : Handler η) {e : CompileError}
    (read : ∀ needed, e ≠ .outOfCapacity needed) :
  ∃ raised, ∀ (m : Machine) (memory : Memory) (h : η),
    (Block.readInstr Memory.fetch m.guest.hart.regs.pc).on m.guest.memory =
      .ok (.error e, memory) →
    interpretOne handler m h = .ok (some (.exception raised m.guest.hart.regs.pc),
      m.withGuest ⟨m.guest.hart, memory⟩, h)
  := by
  obtain ⟨raised, hraises⟩ := exists_raises read
  exact ⟨raised, fun _ _ h hread => interpretOne_of_raises handler hraises hread h⟩

/-- What an interpreted instruction did: it could not be read, or it was carried out and counted. -/
theorem interpretOne_cases {t : Turn η} (on : interpretOne handler m h = .ok t) :
  (∃ e raised memory, (Block.readInstr Memory.fetch m.guest.hart.regs.pc).on m.guest.memory =
      .ok (.error e, memory) ∧
    t = (some (.exception raised m.guest.hart.regs.pc), m.withGuest ⟨m.guest.hart, memory⟩, h)) ∨
  ∃ d memory r g hart, (Block.readInstr Memory.fetch m.guest.hart.regs.pc).on m.guest.memory =
      .ok (.ok d, memory) ∧
    (Hart.step d).on ⟨m.guest.hart, memory⟩ = .ok (r, g) ∧
    (if Hart.charges r then retireOne g.hart else .ok g.hart) = .ok hart ∧
    finish handler r (m.interpretedTo ⟨hart, g.memory⟩) h = .ok t
  := by
  cases hread : (Block.readInstr Memory.fetch m.guest.hart.regs.pc).on m.guest.memory with
  | error c =>
    obtain ⟨⟨hart, memory⟩, cache, config, failures, entries, interpreted⟩ := m
    unfold interpretOne at on
    dsimp only at hread on
    rw [hread] at on
    cases on
  | ok result =>
    obtain ⟨fetched, memory⟩ := result
    cases fetched with
    | error e =>
      obtain ⟨raised, hfault⟩ := interpretOne_of_fault handler
        (Block.throws_readInstr m.guest.hart.regs.pc _ e _ hread)
      rw [hfault m memory h hread] at on
      cases on
      exact .inl ⟨e, raised, memory, rfl, rfl⟩
    | ok d =>
      cases hstep : (Hart.step d).on ⟨m.guest.hart, memory⟩ with
      | error c =>
        obtain ⟨⟨hart, memory₀⟩, cache, config, failures, entries, interpreted⟩ := m
        unfold interpretOne at on
        dsimp only at hread hstep on
        rw [hread, Except.ok_bind] at on
        dsimp only at on
        rw [hstep] at on
        cases on
      | ok result =>
        obtain ⟨r, g⟩ := result
        rw [interpretOne_eq handler hread hstep] at on
        obtain ⟨hart, hretired, on⟩ := Except.bind_eq_ok.mp on
        exact .inr ⟨d, memory, r, g, hart, rfl, hstep, hretired, on⟩

/-- A turn does not end because the budget is used up. -/
theorem finish_ends {r : Except Exception Hart.StepExit} {t : Turn η}
    (on : finish handler r m h = .ok t) :
  t.1 ≠ some .quotaExhausted
  := by
  match r with
  | .ok .continue =>
    cases on
    exact nofun
  | .ok .fenceI =>
    cases on
    exact nofun
  | .error e =>
    cases on
    exact nofun
  | .ok .ecall =>
    unfold finish at on
    dsimp only at on
    rw [ecall_eq] at on
    obtain ⟨⟨outcome, h', memory⟩, -, on⟩ := Except.bind_eq_ok.mp on
    cases outcome with
    | exit status =>
      cases on
      exact nofun
    | ret v =>
      cases on
      exact nofun

theorem interpretOne_ends {t : Turn η} (on : interpretOne handler m h = .ok t) :
  t.1 ≠ some .quotaExhausted
  := by
  obtain ⟨_, _, _, -, rfl⟩ | ⟨_, _, _, _, _, -, -, -, on⟩ := interpretOne_cases on
  · exact nofun
  · exact finish_ends on

theorem Twins.signed (twins : Twins allows m x) :
  m.guest.hart.budget.toNat < 2 ^ 63
  := Nat.lt_of_le_of_lt twins.alike.1.spent twins.alike.1.signed

/-- A machine between turns is its own twin. -/
theorem Twins.self (twins : Twins allows m x) :
  Twins allows m m
  := by
  have honest := twins.plain.toHonest
  exact ⟨⟨.self twins.level twins.signed, honest, honest, rfl⟩, twins.plain, twins.level⟩

/-- The machines on which the same instructions were counted at once are twins. -/
theorem Twins.of_alike {g : Guest} (plain : g.memory.Plain allows) (alike : g.Alike allows m.guest)
    (alike' : g.Alike allows x.guest) :
  Twins allows m x
  := by
  refine ⟨⟨alike.1.join alike'.1, alike.2.right, alike'.2.right, ?_⟩, alike.2.plain plain,
    alike.1.level⟩
  rw [← alike.2.space, alike'.2.space]

/-- An interpreted instruction does the same to twins. -/
theorem interpretOne_pairs (regular : Handler.IsRegular allows handler) (twins : Twins allows m x)
    (left : 0 < m.guest.hart.budget.toNat) (h : η) :
  Pairs (Fails allows handler h m.guest.hart.horizon) (Follows allows m 1) (interpretOne handler m h)
    (interpretOne handler x h)
  := by
  obtain ⟨⟨r, memory⟩, hread, hlooks⟩ := (Memory.stays_readInstr m.guest.hart.regs.pc _
    twins.plain.looks).exists_ok trivial
  cases r with
  | error e =>
    have hmatches := Memory.respects_readInstr m.guest.hart.regs.pc _ _ twins.alike.2
    rw [hread] at hmatches
    obtain ⟨c, hc, -⟩ | ⟨_, _, memory', ⟨⟩, hread', halike⟩ := hmatches.elim
    · cases hc
    rw [← twins.alike.1.regs] at hread'
    obtain ⟨raised, hfault⟩ := interpretOne_of_fault handler
      (Block.throws_readInstr m.guest.hart.regs.pc _ e _ hread)
    rw [hfault m memory h hread, hfault x memory' h hread', twins.alike.1.regs]
    exact .ok ⟨⟨rfl, rfl, ⟨⟨twins.alike.1, halike⟩, hlooks.after, twins.level⟩,
      ⟨hlooks.evolves, rfl⟩, nofun⟩, .inl rfl⟩
  | ok d =>
    obtain ⟨hdecoded, hpc⟩ := Block.isDecoded_of_readInstr hread
    have hholds := twins.plain.holds_of_read hread (.refl _) fun _ _ => rfl
    obtain ⟨⟨r, g⟩, hstep, hevolves⟩ :=
      (Hart.stays_step hdecoded.proper _ (Guest.evolves_self twins.plain)).exists_ok trivial
    dsimp only at hevolves
    have hself := twins.self.alike
    have hplain : (Hart.settle r g).memory.Plain allows := by
      rw [Hart.memory_settle]
      exact hevolves.memory.after
    have hhorizon : (Hart.settle r g).hart.horizon = m.guest.hart.horizon := by
      rw [Hart.horizon_settle, Hart.horizon, Hart.horizon, hevolves.retired, hevolves.start]
    have hone := interpretOne_of_holds handler h hself twins.plain left hholds hpc hstep
    have hother := interpretOne_of_holds handler h twins.alike twins.plain left hholds hpc hstep
    obtain ⟨m', hm', halike, hcache⟩ | ⟨hfull, hm'⟩ := hone
    · obtain ⟨x', hx', halike', -⟩ | ⟨hfull, -⟩ := hother
      · rw [hm', hx']
        refine finish_pairs regular (.of_alike hplain halike halike') ⟨⟨?_, ?_⟩, hcache, ?_⟩ h
        · have hmemory := hevolves.memory
          rw [← Hart.memory_settle r g] at hmemory
          exact hmemory.of_alike halike.2
        · rw [halike.1.horizon_eq, hhorizon]
        · intro hcharges
          have hspent := toNat_budget_charged hevolves.budget left
          rw [halike.1.budget, Hart.settle, if_pos hcharges]
          omega
      · exact absurd halike.1.room (by omega)
    · obtain ⟨x', hx', halike', -⟩ | ⟨-, hx'⟩ := hother
      · exact absurd halike'.1.room (by omega)
      · rw [hm', hx']
        refine .crash (.inr ⟨rfl, ?_⟩)
        have hle := (Hart.settle r g).hart.total_le_horizon
        omega

end Machine

end CrossHart
