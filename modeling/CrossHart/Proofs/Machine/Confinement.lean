import CrossHart.Proofs.Machine.Quota

/-!
# Handlers that use memory like guests

A handler of system calls is confined if it uses guest memory through loads and stores only, with the
rights of the guest.  What holds of memory, is kept by loads, stores and fetches, and decides what
can be read as an instruction, then holds along every course.

A run that returns has a course, also if the handler would have crashed on another call: where it
crashes, an unfailing handler in its place exits.
-/

namespace CrossHart

open CrossHart.Action Isa Cache Host

variable {η : Type} {handler : Handler η} {M : Memory → Memory → Prop} {P : Located → Prop}

/-- Loads and stores of at most eight bytes lead from one memory to another. -/
inductive Memory.Touches (m : Memory) : Memory → Prop
  | start : Touches m m
  | load {m₁ m₂ : Memory} {addr : Word} {size : Nat} {r : Except Memory.Fault Word}
      (before : Touches m m₁) (small : size ≤ 8) (on : (Memory.load addr size).on m₁ = .ok (r, m₂)) :
    Touches m m₂
  | store {m₁ m₂ : Memory} {addr : Word} {size : Nat} {value : Word} {r : Except Memory.Fault Unit}
      (before : Touches m m₁) (small : size ≤ 8)
      (on : (Memory.store addr size value).on m₁ = .ok (r, m₂)) :
    Touches m m₂

theorem Memory.Touches.stays {m m' : Memory} (touches : m.Touches m') (routine : IsRoutine M)
    (start : M m m) :
  M m m'
  := by
  induction touches with
  | start => exact start
  | @load m₁ m₂ addr size _ _ small on ih =>
    have hlater := (routine.load addr size small m₁ (routine.course.settled m m₁ ih)).post_of_eq on
    exact routine.course.trans m m₁ m₂ ih hlater
  | @store m₁ m₂ addr size value _ _ small on ih =>
    have hlater :=
      (routine.store addr size value small m₁ (routine.course.settled m m₁ ih)).post_of_eq on
    exact routine.course.trans m m₁ m₂ ih hlater

namespace Handler

/-- A handler uses memory through loads and stores only. -/
def IsConfined (handler : Handler η) : Prop :=
  ∀ call h m outcome h' m', handler call h m = .ok (outcome, h', m') → m.Touches m'

/-- A handler does not crash where loads and stores do not. -/
def Replies (handler : Handler η) : Prop :=
  ∀ call h m, m.Sound → ∃ r, handler call h m = .ok r

theorem IsConfined.returns (confined : handler.IsConfined) (replies : handler.Replies) :
  handler.Returns
  := by
  intro call h m sound
  obtain ⟨⟨outcome, h', m'⟩, hanswer⟩ := replies call h m sound
  have hstays := (confined call h m outcome h' m' hanswer).stays Memory.isRoutine_staysSound sound.stays
  exact ⟨outcome, h', m', hanswer, hstays.2⟩

/-- The handler that exits where another one crashes. -/
def unfailing (handler : Handler η) : Handler (Option η) := fun call h m =>
  match h with
  | none => .ok (.exit 0, none, m)
  | some h =>
    match handler call h m with
    | .ok (outcome, h', m') => .ok (outcome, some h', m')
    | .error _ => .ok (.exit 0, none, m)

/-- An unfailing handler has a state as long as the other one did not crash. -/
theorem unfailing_eq_ok_iff {call : Call} {state : Option η} {m m' : Memory} {outcome : CallOutcome}
    {h' : η} :
  handler.unfailing call state m = .ok (outcome, some h', m') ↔
    ∃ h, state = some h ∧ handler call h m = .ok (outcome, h', m')
  := by
  unfold unfailing
  cases state with
  | none =>
    constructor
    · nofun
    · rintro ⟨h, hstate, -⟩
      cases hstate
  | some h =>
    dsimp only
    constructor
    · intro on
      split at on
      case h_1 hanswer =>
        cases on
        exact ⟨h, rfl, hanswer⟩
      case h_2 => cases on
    · rintro ⟨_, ⟨⟩, hanswer⟩
      rw [hanswer]

theorem IsConfined.unfailing (confined : handler.IsConfined) :
  handler.unfailing.IsConfined
  := by
  intro call state m outcome state' m' on
  unfold Handler.unfailing at on
  split at on
  case h_1 =>
    cases on
    exact .start
  case h_2 h =>
    split at on
    case h_1 hanswer =>
      cases on
      exact confined _ _ _ _ _ _ hanswer
    case h_2 =>
      cases on
      exact .start

theorem replies_unfailing (handler : Handler η) :
  handler.unfailing.Replies
  := by
  intro call state m _
  unfold unfailing
  split
  case h_1 => exact ⟨_, rfl⟩
  case h_2 => split <;> exact ⟨_, rfl⟩

end Handler

/-! ### What is kept along a course -/

/-- What is read as an instruction, in memory that is kept, has a property. -/
def Memory.Shows (M : Memory → Memory → Prop) (P : Located → Prop) : Prop :=
  ∀ m m' pc d, M m m → (Block.readInstr Memory.fetch pc).on m = .ok (.ok d, m') → P d

/-- A scene after another: memory is a later one, and the instructions that were read since then have a
property. -/
structure Scene.Keeps (M : Memory → Memory → Prop) (P : Located → Prop) (s t : Scene η) : Prop where
  memory : M s.guest.memory t.guest.memory
  known : ∀ d, t.known d → P d

section

variable (routine : Memory.IsRoutine M) (fetches : ∀ pc, Stays M (Memory.fetch pc))
  (shows : Memory.Shows M P) (proper : ∀ d, P d → d.instr.IsProper) (confined : handler.IsConfined)
  {s t : Scene η}

include routine

theorem Scene.Keeps.later (keeps : Scene.Keeps M P s t) {t' : Scene η} (known : t'.known = t.known)
    (later : M t.guest.memory t'.guest.memory) :
  Scene.Keeps M P s t'
  := by
  constructor
  · exact routine.course.trans _ _ _ keeps.memory later
  · rw [known]
    exact keeps.known

include proper

/-- An instruction that was read is carried out on later memory. -/
theorem Scene.Keeps.step (keeps : Scene.Keeps M P s t) {d : Located} (next : t.Next d)
    {r : Except Exception Hart.StepExit} {g : Guest} (step : (Hart.step d).on t.guest = .ok (r, g)) :
  M t.guest.memory g.memory
  := by
  have hstays := Hart.stays_step_of routine (proper d (keeps.known d next.known))
  have hsettled := Guest.proceeds_self (routine.course.settled _ _ keeps.memory)
  exact ((hstays t.guest hsettled).post_of_eq step).memory

omit proper
include fetches shows

theorem Scene.Keeps.look (keeps : Scene.Keeps M P s t) {pc : Word}
    {r : Except CompileError Located} {memory : Memory}
    (read : (Block.readInstr Memory.fetch pc).on t.guest.memory = .ok (r, memory)) :
  Scene.Keeps M P s (t.looked r memory)
  := by
  have hsettled := routine.course.settled _ _ keeps.memory
  have hlater := (Memory.stays_readInstr_of routine.course fetches pc _ hsettled).post_of_eq read
  refine ⟨routine.course.trans _ _ _ keeps.memory hlater, ?_⟩
  rintro d (hknown | rfl)
  · exact keeps.known d hknown
  · exact shows _ _ _ _ hsettled read

include proper confined

theorem Course.keeps {n : Nat} (course : Course handler s n t) (start : Scene.Keeps M P s s) :
  Scene.Keeps M P s t
  := by
  induction course with
  | start => exact start
  | look _ read ih => exact ih.look routine fetches shows read
  | retire _ next step _ ih =>
    have hstep := ih.step routine proper next step
    exact ih.later routine rfl hstep
  | call _ next step answer ih =>
    have hstep := ih.step routine proper next step
    have hcall := (confined _ _ _ _ _ _ answer).stays routine (routine.course.settled _ _ hstep)
    exact ih.later routine rfl (routine.course.trans _ _ _ hstep hcall)

theorem Ends.keeps {k : Nat} {exit : RunExit} {t' : Scene η} (ends : Ends handler t k exit t')
    (keeps : Scene.Keeps M P s t) :
  Scene.Keeps M P s t'
  := by
  cases ends with
  | exit next step answer =>
    have hstep := keeps.step routine proper next step
    have hcall := (confined _ _ _ _ _ _ answer).stays routine (routine.course.settled _ _ hstep)
    exact keeps.later routine rfl (routine.course.trans _ _ _ hstep hcall)
  | breakpoint next step =>
    have hstep := keeps.step routine proper next step
    exact keeps.later routine rfl hstep
  | trap next step =>
    have hstep := keeps.step routine proper next step
    exact keeps.later routine rfl hstep
  | unread read => exact keeps.look routine fetches shows read

theorem Machine.Outcome.keeps {q n : Nat} {exit : RunExit}
    (outcome : Machine.Outcome handler s q n exit t) (start : Scene.Keeps M P s s) :
  Scene.Keeps M P s t
  := by
  cases outcome with
  | exhausted course => exact course.keeps routine fetches shows proper confined start
  | ended course _ ends =>
    have hkeeps := course.keeps routine fetches shows proper confined start
    exact ends.keeps routine fetches shows proper confined hkeeps

end

/-! ### Courses with an unfailing handler -/

/-- The scene with the state of an unfailing handler. -/
def Scene.unfailing (s : Scene η) : Scene (Option η) :=
  ⟨s.known, s.guest, some s.state⟩

theorem Course.of_unfailing {s : Scene η} {n : Nat} {t : Scene (Option η)}
    (course : Course handler.unfailing s.unfailing n t) {h : η} (state : t.state = some h) :
  Course handler s n ⟨t.known, t.guest, h⟩
  := by
  induction course generalizing h with
  | start =>
    cases state
    exact .start
  | look _ read ih => exact .look (ih state) read
  | retire _ next step on ih => exact .retire (ih state) ⟨next.known, next.at_pc⟩ step on
  | call _ next step answer ih =>
    dsimp only at state
    subst state
    obtain ⟨h₀, hstate, hanswer⟩ := Handler.unfailing_eq_ok_iff.mp answer
    exact .call (ih hstate) ⟨next.known, next.at_pc⟩ step hanswer

theorem Machine.Outcome.of_unfailing {s : Scene η} {q n : Nat} {exit : RunExit}
    {t : Scene (Option η)} (outcome : Outcome handler.unfailing s.unfailing q n exit t) {h : η}
    (state : t.state = some h) :
  Outcome handler s q n exit ⟨t.known, t.guest, h⟩
  := by
  cases outcome with
  | exhausted course => exact .exhausted (course.of_unfailing state)
  | ended course within ends =>
    cases ends with
    | exit next step answer =>
      dsimp only at state
      subst state
      obtain ⟨h₀, hstate, hanswer⟩ := Handler.unfailing_eq_ok_iff.mp answer
      exact .ended (course.of_unfailing hstate) within
        (.exit ⟨next.known, next.at_pc⟩ step hanswer)
    | breakpoint next step cause =>
      exact .ended (course.of_unfailing state) within
        (.breakpoint ⟨next.known, next.at_pc⟩ step cause)
    | trap next step cause =>
      exact .ended (course.of_unfailing state) within
        (.trap ⟨next.known, next.at_pc⟩ step cause)
    | unread read raises => exact .ended (course.of_unfailing state) within (.unread read raises)

/-! ### Runs with an unfailing handler -/

namespace Machine

/-- A turn that comes to an end with a handler comes to the same end with an unfailing one. -/
def Carries (x : Except Crash (Turn η)) (y : Except Crash (Turn (Option η))) : Prop :=
  ∀ exit m h, x = .ok (exit, m, h) → y = .ok (exit, m, some h)

theorem Carries.ok (exit : Option RunExit) (m : Machine) (h : η) :
  Carries (.ok (exit, m, h)) (.ok (exit, m, some h))
  := by
  rintro _ _ _ ⟨⟩
  rfl

theorem Carries.error (c : Crash) (y : Except Crash (Turn (Option η))) :
  Carries (.error c) y
  := by
  intro exit m h on
  cases on

theorem Carries.bind {α : Type} (x : Except Crash α) {f : α → Except Crash (Turn η)}
    {g : α → Except Crash (Turn (Option η))} (h : ∀ a, Carries (f a) (g a)) :
  Carries (x >>= f) (x >>= g)
  := by
  intro exit m h' on
  obtain ⟨a, rfl, on⟩ := Except.bind_eq_ok.mp on
  exact h a exit m h' on

variable (handler) (m : Machine) (h : η)

theorem ecall_carries (pc : Word) :
  Carries (ecall handler pc m h) (ecall handler.unfailing pc m (some h))
  := by
  intro exit m' h' on
  rw [ecall_eq] at on ⊢
  obtain ⟨⟨outcome, h₁, memory⟩, hanswer, on⟩ := Except.bind_eq_ok.mp on
  rw [Handler.unfailing_eq_ok_iff.mpr ⟨h, rfl, hanswer⟩, Except.ok_bind]
  cases outcome <;> cases on <;> rfl

theorem interpretOne_carries :
  Carries (interpretOne handler m h) (interpretOne handler.unfailing m (some h))
  := by
  obtain ⟨⟨hart, memory⟩, cache, config, failures, entries, interpreted⟩ := m
  unfold interpretOne
  apply Carries.bind
  rintro ⟨fetched, memory⟩
  cases fetched with
  | error e =>
    cases e with
    | fetch f => exact .ok _ _ _
    | decode e => exact .ok _ _ _
    | outOfCapacity needed => exact .error _ _
  | ok d =>
    apply Carries.bind
    rintro ⟨r, ⟨hart, memory⟩⟩
    match r with
    | .ok .continue =>
      apply Carries.bind
      exact fun hart => .ok _ _ _
    | .ok .fenceI =>
      apply Carries.bind
      exact fun hart => .ok _ _ _
    | .ok .ecall =>
      apply Carries.bind
      exact fun hart => ecall_carries handler _ _ _
    | .error e =>
      dsimp only
      split
      · apply Carries.bind
        exact fun hart => .ok _ _ _
      · exact .ok _ _ _

theorem afterCode_carries (reason : ExitReason) :
  Carries (afterCode handler reason m h) (afterCode handler.unfailing reason m (some h))
  := by
  unfold afterCode
  cases reason with
  | chain => exact .ok _ _ _
  | indirect => exact .ok _ _ _
  | budget => exact .ok _ _ _
  | ecall => exact ecall_carries handler m h _
  | ebreak => exact .ok _ _ _
  | fenceI => exact .ok _ _ _
  | exception =>
    dsimp only
    split
    · exact .error _ _
    · exact .ok _ _ _

theorem runCode_carries (id : Nat) :
  Carries (runCode handler id m h) (runCode handler.unfailing id m (some h))
  := by
  obtain ⟨⟨hart, memory⟩, cache, config, failures, entries, interpreted⟩ := m
  cases cache with
  | none => exact .error _ _
  | some c =>
    unfold runCode
    apply Carries.bind
    rintro ⟨code, ⟨hart, memory⟩⟩
    apply Carries.bind
    intro hart
    split
    · exact .error _ _
    · exact afterCode_carries handler _ h _

theorem turn_carries :
  Carries (turn handler m h) (turn handler.unfailing m (some h))
  := by
  unfold turn
  apply Carries.bind
  rintro ⟨id, m⟩
  dsimp only
  split
  · exact runCode_carries handler m h _
  · exact interpretOne_carries handler m h

variable {handler m h}

theorem turns_unfailing {f : Nat} {exit : RunExit} {m' : Machine} {h' : η}
    (on : turns handler f m h = .ok (exit, m', h')) :
  turns handler.unfailing f m (some h) = .ok (exit, m', some h')
  := by
  induction f generalizing m h with
  | zero =>
    unfold turns at on ⊢
    split at on
    case isTrue hspent =>
      cases on
      rw [if_pos hspent]
    case isFalse => cases on
  | succ f ih =>
    unfold turns at on ⊢
    split at on
    case isTrue hspent =>
      cases on
      rw [if_pos hspent]
    case isFalse hleft =>
      rw [if_neg hleft]
      dsimp only at on ⊢
      split at on
      case h_1 => cases on
      case h_2 hturn =>
        rw [turn_carries handler m h _ _ _ hturn]
        cases on
        rfl
      case h_3 hturn =>
        rw [turn_carries handler m h _ _ _ hturn]
        exact ih on

/-- A run with a confined handler that returns has a course, and leaves compiled blocks of instructions
that were read in the course. -/
theorem exists_outcome_of_run {K : Located → Prop} (confined : handler.IsConfined)
    {quota : Option Nat} (steady : (m.started quota).Steady K) {exit : RunExit} {m' : Machine} {h' : η}
    (on : run handler m h quota = .ok (exit, m', h')) :
  ∃ n K', Outcome handler ⟨K, (m.started quota).guest.seen, h⟩ (budgetOf quota) n exit
    ⟨K', m'.guest.seen, h'⟩ ∧ m'.Steady K'
  := by
  have hreturns := confined.unfailing.returns (Handler.replies_unfailing handler)
  have hbudget : (m.started quota).guest.hart.budget.toNat = budgetOf quota := (toNat_budgetOf quota).1
  rw [run_eq] at on
  have hon := turns_unfailing on
  obtain ⟨exit₁, m₁, h₁, hran, ⟨n, K', houtcome, -, hsteady⟩, -⟩ | ⟨h₁, hran, -⟩ :=
    turns_ran_or_overruns hreturns steady (Nat.le_of_eq hbudget) (some h)
  · cases hon.symm.trans hran
    rw [hbudget] at houtcome
    exact ⟨n, K', houtcome.of_unfailing (s := ⟨K, _, h⟩) rfl, hsteady⟩
  · cases hon.symm.trans hran

end Machine

end CrossHart
