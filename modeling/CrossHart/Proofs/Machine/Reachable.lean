import CrossHart.Machine.Run
import CrossHart.Proofs.Cache.Sources

/-!
# The code cache of a machine

Whatever a machine goes through, its code cache is one that operations of the cache lead to: the
engine only installs blocks that it formed, and only where there is none.  So what holds of all such
caches holds of the caches of machines.
-/

namespace CrossHart.Machine

open Cache Host

/-- A machine that compiles, in a state that it can be brought into.  Registers and memory may be
anything. -/
inductive Reachable : Machine → Prop
  | create {config : Config} {policy : Memory.Policy} {services : Services} {platform : Platform}
      {m : Machine} (jit : config.mode = .jit)
      (on : create config policy services platform = .ok (.ok m)) : Reachable m
  | guest {m : Machine} (reached : Reachable m) (g : Guest) : Reachable (m.withGuest g)
  | load {m m' : Machine} {result : Except MachineError Unit} (reached : Reachable m) (addr : Word)
      (data : ByteArray) (on : load addr data m = .ok (result, m')) : Reachable m'
  | map {m m' : Machine} {result : Except MachineError Unit} (reached : Reachable m)
      (base len : Word) (device : Memory.Device) (on : map base len device m = .ok (result, m')) :
    Reachable m'
  | invalidatePage {m m' : Machine} (reached : Reachable m) (page : Word)
      (on : m.invalidatePage page = .ok m') : Reachable m'
  | flush {m : Machine} (reached : Reachable m) : Reachable m.flush
  | flushCode {m : Machine} (reached : Reachable m) : Reachable m.flushCode
  | restore {m m' : Machine} {result : Except MachineError Unit} (reached : Reachable m)
      (s : Snapshot) (on : restore s m = .ok (result, m')) : Reachable m'
  | run {η : Type} {m m' : Machine} {exit : RunExit} {h h' : η} (reached : Reachable m)
      (handler : Handler η) (quota : Option Nat) (on : run handler m h quota = .ok (exit, m', h')) :
    Reachable m'

/-- The code cache of a machine is one that operations lead to. -/
def Evolved (c₀ : CodeCache) (m : Machine) : Prop :=
  ∃ c, m.cache = some c ∧ CodeCache.Runs CodeCache.Admits c₀ c

namespace Evolved

variable {c₀ : CodeCache} {m : Machine}

/-- Only the code cache counts. -/
theorem of_cache {m' : Machine} (evolved : m.Evolved c₀) (same : m'.cache = m.cache) :
  m'.Evolved c₀
  := by
  obtain ⟨c, hc, runs⟩ := evolved
  exact ⟨c, same.trans hc, runs⟩

theorem withGuest (evolved : m.Evolved c₀) (g : Guest) :
  (m.withGuest g).Evolved c₀
  := evolved.of_cache rfl

theorem mapMemory (evolved : m.Evolved c₀) (f : Memory → Memory) :
  (m.mapMemory f).Evolved c₀
  := evolved.of_cache rfl

theorem flushCode (evolved : m.Evolved c₀) :
  m.flushCode.Evolved c₀
  := by
  obtain ⟨c, hc, runs⟩ := evolved
  refine ⟨c.flush, ?_, runs.flush⟩
  rw [Machine.flushCode, hc]
  rfl

theorem invalidateCode (evolved : m.Evolved c₀) (start len : Word) :
  Meets False (m.invalidateCode start len) fun m' => m'.Evolved c₀
  := by
  obtain ⟨c, hc, runs⟩ := evolved
  unfold Machine.invalidateCode
  rw [hc]
  refine (Meets.self False.elim).bind ?_
  rintro ⟨n, c'⟩ hinvalidate
  exact .ok ⟨c', rfl, runs.invalidate hinvalidate⟩

end Evolved

/-! ### Turns of the engine -/

section

variable {c₀ : CodeCache} {m : Machine} (registered : c₀.Registered) (arena : c₀.Arena)

include registered arena

/-- The engine installs a block where it found none. -/
theorem compiled_evolved (evolved : m.Evolved c₀) (pc : Word) :
  Meets False (m.compiled pc) fun r => r.2.Evolved c₀
  := by
  obtain ⟨c, hc, runs⟩ := evolved
  obtain ⟨⟨hart, memory⟩, cache, config, failures, entries, interpreted⟩ := m
  dsimp only at hc
  subst hc
  have hlooked := runs.lookup pc
  have hregistered := CodeCache.runs_registered registered arena runs
  have habsent (hnone : (c.lookup pc).1 = none) (id : Nat) (b : Compiled)
      (hb : (c.lookup pc).2.block? id = some b) : b.pc ≠ pc := by
    rintro rfl
    rw [CodeCache.lookup_snd] at hb
    rw [CodeCache.lookup_eq hregistered.jumps,
      (hregistered.index b.pc id).mpr ⟨b.bare, Table.bare_of_block? hb, rfl⟩] at hnone
    cases hnone
  unfold compiled
  dsimp only
  split
  case h_1 id c₁ hlookup =>
    rw [hlookup] at hlooked
    exact .ok ⟨c₁, rfl, hlooked⟩
  case h_2 c₁ hlookup =>
    rw [hlookup] at hlooked habsent
    refine (Meets.self False.elim).bind ?_
    rintro ⟨block, memory'⟩ hform
    cases block with
    | error e => exact .ok ⟨c₁, rfl, hlooked⟩
    | ok block =>
      refine (Meets.self False.elim).bind ?_
      rintro ⟨result, c₂⟩ hinstall
      obtain ⟨-, rfl⟩ := Block.isFormed_of_form hform
      have hinstalled := hlooked.install ⟨_, _, _, _, _, _, hform⟩ (habsent rfl) hinstall
      cases result with
      | ok id => exact .ok ⟨c₂, rfl, hinstalled⟩
      | error e => exact .ok ⟨c₂, rfl, hinstalled⟩

omit registered arena in
theorem ecall_evolved {η : Type} (handler : Handler η) (evolved : m.Evolved c₀) (pc : Word) (h : η) :
  Meets False (ecall handler pc m h) fun r => r.2.1.Evolved c₀
  := by
  obtain ⟨⟨hart, memory⟩, cache, config, failures, entries, interpreted⟩ := m
  refine (Meets.self False.elim).bind fun number _ => ?_
  refine (Meets.self False.elim).bind fun args _ => ?_
  refine (Meets.self False.elim).bind ?_
  rintro ⟨outcome, h', memory'⟩ -
  cases outcome with
  | exit status => exact .ok (evolved.of_cache rfl)
  | ret v =>
    refine (Meets.self False.elim).bind fun regs _ => ?_
    exact .ok (evolved.of_cache rfl)

omit registered arena in
theorem runCode_evolved {η : Type} (handler : Handler η) (evolved : m.Evolved c₀) (id : Nat) (h : η) :
  Meets False (runCode handler id m h) fun r => r.2.1.Evolved c₀
  := by
  obtain ⟨⟨hart, memory⟩, cache, config, failures, entries, interpreted⟩ := m
  cases cache with
  | none => exact not_false
  | some cache =>
    refine (Meets.self False.elim).bind ?_
    rintro ⟨code, ⟨hart', memory'⟩⟩ -
    refine (Meets.self False.elim).bind fun hart'' _ => ?_
    split
    case h_1 => exact not_false
    case h_2 reason _ =>
      have hevolved : Evolved c₀ ⟨⟨hart'', memory'⟩, some cache, config, failures, entries + 1,
        interpreted⟩ := evolved.of_cache rfl
      unfold afterCode
      cases reason with
      | ecall => exact ecall_evolved handler hevolved _ h
      | fenceI => exact .ok hevolved.flushCode
      | exception =>
        dsimp only
        split
        · exact not_false
        · exact .ok hevolved
      | chain => exact .ok hevolved
      | indirect => exact .ok hevolved
      | budget => exact .ok hevolved
      | ebreak => exact .ok hevolved

omit registered arena in
theorem interpretOne_evolved {η : Type} (handler : Handler η) (evolved : m.Evolved c₀) (h : η) :
  Meets False (interpretOne handler m h) fun r => r.2.1.Evolved c₀
  := by
  obtain ⟨⟨hart, memory⟩, cache, config, failures, entries, interpreted⟩ := m
  refine (Meets.self False.elim).bind ?_
  rintro ⟨fetched, memory'⟩ -
  cases fetched with
  | error e =>
    cases e with
    | fetch f => exact .ok (evolved.of_cache rfl)
    | decode e => exact .ok (evolved.of_cache rfl)
    | outOfCapacity n => exact not_false
  | ok d =>
    refine (Meets.self False.elim).bind ?_
    rintro ⟨result, ⟨hart', memory''⟩⟩ -
    have hevolved (hart : Hart) : Evolved c₀ ⟨⟨hart, memory''⟩, cache, config, failures, entries,
      interpreted + 1⟩ := evolved.of_cache rfl
    cases result with
    | error e =>
      dsimp only
      split
      · refine (Meets.self False.elim).bind fun hart'' _ => ?_
        exact .ok (hevolved hart'')
      · exact .ok (hevolved hart')
    | ok exit =>
      cases exit with
      | «continue» =>
        refine (Meets.self (x := retireOne hart') False.elim).bind fun hart'' _ => ?_
        exact .ok (hevolved hart'')
      | ecall =>
        refine (Meets.self (x := retireOne hart') False.elim).bind fun hart'' _ => ?_
        exact ecall_evolved handler (hevolved hart'') _ h
      | fenceI =>
        refine (Meets.self (x := retireOne hart') False.elim).bind fun hart'' _ => ?_
        exact .ok (hevolved hart'').flushCode

theorem turn_evolved {η : Type} (handler : Handler η) (evolved : m.Evolved c₀) (h : η) :
  Meets False (turn handler m h) fun r => r.2.1.Evolved c₀
  := by
  refine (compiled_evolved registered arena evolved _).bind ?_
  rintro ⟨id, m'⟩ evolved'
  dsimp only
  split
  case h_1 id' _ => exact runCode_evolved handler evolved' id' h
  case h_2 => exact interpretOne_evolved handler evolved' h

theorem turns_evolved {η : Type} (handler : Handler η) (evolved : m.Evolved c₀) {fuel : Nat}
    {h h' : η} {exit : RunExit} {m' : Machine} (on : turns handler fuel m h = .ok (exit, m', h')) :
  m'.Evolved c₀
  := by
  induction fuel generalizing m h with
  | zero =>
    unfold turns at on
    split at on
    · cases on
      exact evolved
    · cases on
  | succ fuel ih =>
    unfold turns at on
    split at on
    · cases on
      exact evolved
    · dsimp only at on
      split at on
      case h_1 => cases on
      case h_2 hturn =>
        cases on
        exact (turn_evolved registered arena handler evolved h).post_of_eq hturn
      case h_3 hturn => exact ih ((turn_evolved registered arena handler evolved h).post_of_eq hturn) on

end

/-- The code cache of a machine that compiles is one that operations lead to. -/
theorem Reachable.evolved {m : Machine} (reached : m.Reachable) :
  ∃ size eviction services platform c₀,
    CodeCache.create size eviction services platform = .ok (some c₀) ∧ m.Evolved c₀
  := by
  induction reached with
  | create jit on =>
    obtain ⟨space, -, on⟩ := Except.bind_eq_ok.mp on
    rw [jit] at on
    obtain ⟨cache, hcreate, on⟩ := Except.bind_eq_ok.mp on
    cases cache with
    | none => cases on
    | some c₀ =>
      cases on
      exact ⟨_, _, _, _, c₀, hcreate, c₀, rfl, .refl⟩
  | guest _ g ih =>
    obtain ⟨size, eviction, services, platform, c₀, hcreate, evolved⟩ := ih
    exact ⟨size, eviction, services, platform, c₀, hcreate, evolved.withGuest g⟩
  | @load m m' result _ addr data on ih =>
    obtain ⟨size, eviction, services, platform, c₀, hcreate, evolved⟩ := ih
    refine ⟨size, eviction, services, platform, c₀, hcreate, ?_⟩
    unfold Machine.load at on
    split at on
    · obtain ⟨m₁, hm₁, on⟩ := Except.bind_eq_ok.mp on
      cases on
      exact ((evolved.mapMemory _).invalidateCode _ _).post_of_eq hm₁
    · cases on
      exact evolved
  | @map m m' result _ base len device on ih =>
    obtain ⟨size, eviction, services, platform, c₀, hcreate, evolved⟩ := ih
    refine ⟨size, eviction, services, platform, c₀, hcreate, ?_⟩
    obtain ⟨space, -, on⟩ := Except.bind_eq_ok.mp on
    cases space with
    | error e =>
      cases on
      exact evolved
    | ok space =>
      cases on
      exact evolved.of_cache rfl
  | @invalidatePage m m' _ page on ih =>
    obtain ⟨size, eviction, services, platform, c₀, hcreate, evolved⟩ := ih
    refine ⟨size, eviction, services, platform, c₀, hcreate, ?_⟩
    unfold Machine.invalidatePage at on
    dsimp only at on
    split at on
    · exact ((evolved.mapMemory _).invalidateCode _ _).post_of_eq on
    · cases on
      exact evolved.of_cache rfl
  | flush _ ih =>
    obtain ⟨size, eviction, services, platform, c₀, hcreate, evolved⟩ := ih
    exact ⟨size, eviction, services, platform, c₀, hcreate, (evolved.mapMemory _).flushCode⟩
  | flushCode _ ih =>
    obtain ⟨size, eviction, services, platform, c₀, hcreate, evolved⟩ := ih
    exact ⟨size, eviction, services, platform, c₀, hcreate, evolved.flushCode⟩
  | @restore m m' result _ s on ih =>
    obtain ⟨size, eviction, services, platform, c₀, hcreate, evolved⟩ := ih
    refine ⟨size, eviction, services, platform, c₀, hcreate, ?_⟩
    unfold Machine.restore at on
    split at on
    · cases on
      exact evolved
    · split at on
      · cases on
        exact evolved
      · cases on
        exact Evolved.flushCode (evolved.of_cache rfl)
  | @run η m m' exit h h' _ handler quota on ih =>
    obtain ⟨size, eviction, services, platform, c₀, hcreate, evolved⟩ := ih
    refine ⟨size, eviction, services, platform, c₀, hcreate, ?_⟩
    have hcreated := CodeCache.created_of_create hcreate
    unfold Machine.run at on
    dsimp only at on
    exact turns_evolved hcreated.registered hcreated.arena handler (evolved.withGuest _) on

end CrossHart.Machine
