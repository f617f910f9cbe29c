import CrossHart.Machine.State
import CrossHart.Proofs.Memory.Lookaside

/-!
# Translation in machines

Whatever a machine does with its memory, and whenever pages of the lookaside table are discarded and
devices mapped, the table gives the answers that the address space and a pure policy would give.
-/

namespace CrossHart.Memory

open CrossHart.Action

variable {allows : Query → Bool} {m : Memory}

/-- A device is mapped in whole pages, and what had a backing keeps it. -/
theorem Space.map_meets (s : Space) (base len : Word) (device : Device) :
  Meets False (s.map base len device) fun r => ∀ s', r = .ok s' → s.Aligned →
    s'.Aligned ∧ ∀ addr b, s.resolve addr = some b → s'.resolve addr = some b
  := by
  unfold Space.map
  split
  · exact .ok nofun
  case isFalse hproper =>
    refine (Meets.self False.elim).bind fun ramEnd _ => ?_
    dsimp only
    split
    · exact .ok nofun
    · refine .ok fun s' hs' aligned => ?_
      cases hs'
      constructor
      · refine ⟨aligned.base, fun r hr => ?_⟩
        obtain hr | hr := List.mem_append.mp hr
        · exact aligned.regions r hr
        · rw [List.mem_singleton.mp hr]
          simp only [not_or, ne_eq, Decidable.not_not] at hproper
          exact hproper.2.1
      · intro addr b hb
        unfold Space.resolve at hb ⊢
        dsimp only at hb ⊢
        have hram : Space.ramContains { s with regions := s.regions ++ [⟨base, len, device⟩] }
          (pageStart addr) = s.ramContains (pageStart addr) := rfl
        rw [hram]
        split at hb
        case isTrue h => rwa [if_pos h]
        case isFalse h =>
          rw [if_neg h]
          obtain ⟨i, hi, hb⟩ := Option.bind_eq_some_iff.mp hb
          obtain ⟨r, hr, rfl⟩ := Option.map_eq_some_iff.mp hb
          have hlt := (List.getElem?_eq_some_iff.mp hr).1
          rw [List.findIdx?_append, hi, Option.some_or, Option.bind_some,
            List.getElem?_append_left hlt, hr]
          rfl

/-- The memory with an empty table. -/
def forget (m : Memory) : Memory :=
  { m with lookaside := {} }

theorem Honest.forget (honest : m.Honest allows) :
  m.forget.Honest allows
  := by
  refine ⟨honest.pure, honest.aligned, fun i e he => ?_⟩
  simp [Memory.forget] at he

/-- Discarding entries. -/
theorem Honest.of_entries (honest : m.Honest allows) {t : Lookaside}
    (entries : t.entries = m.lookaside.entries) :
  Honest allows ⟨t, m.space, m.policy⟩
  := by
  refine ⟨honest.pure, honest.aligned, fun i e he => ?_⟩
  dsimp only at he
  rw [entries] at he
  exact honest.truthful i e he

end CrossHart.Memory

namespace CrossHart.Machine

open Memory

/-- A use of the memory of a machine. -/
inductive Use where
  | locate (addr : Word) (access : Access)
  | readAt (b : Backing) (size : Nat)
  | writeAt (b : Backing) (size : Nat) (value : Word)
  | load (addr : Word) (size : Nat)
  | store (addr : Word) (size : Nat) (value : Word)
  | fetch (pc : Word)
  /-- Discarding what is kept of a page. -/
  | invalidate (page : Word)
  | flush
  | map (base len : Word) (device : Device)

/-- The machine after a use of its memory. -/
def Use.on (m : Machine) : Use → Except Crash Machine
  | locate addr access => (m.onMemory (Memory.locate addr access)).map (·.2)
  | readAt b size => (m.onMemory (Memory.readAt b size)).map (·.2)
  | writeAt b size value => (m.onMemory (Memory.writeAt b size value)).map (·.2)
  | load addr size => (m.onMemory (Memory.load addr size)).map (·.2)
  | store addr size value => (m.onMemory (Memory.store addr size value)).map (·.2)
  | fetch pc => (m.onMemory (Memory.fetch pc)).map (·.2)
  | invalidate page =>
    .ok (m.mapMemory fun ⟨lookaside, space, policy⟩ => ⟨lookaside.invalidate page, space, policy⟩)
  | flush => .ok m.flushLookaside
  | map base len device => (Machine.map base len device m).map (·.2)

/-- Uses of memory lead from one machine to another. -/
inductive Uses (m : Machine) : Machine → Prop
  | refl : Uses m m
  | step {m₁ m₂ : Machine} {use : Use} (uses : Uses m m₁) (on : use.on m₁ = .ok m₂) : Uses m m₂

variable {m : Machine} {allows : Query → Bool}

theorem honest_onMemory (honest : m.guest.memory.Honest allows) {α : Type}
    {a : Action Memory Fault α} (respects : Action.Respects (Alike allows) a) :
  Meets False ((m.onMemory a).map (·.2)) fun m' => m'.guest.memory.Honest allows
  := by
  obtain ⟨⟨hart, memory⟩, cache, config, failures, entries, interpreted⟩ := m
  have hon := honest.on respects
  apply Meets.map
  unfold onMemory
  dsimp only at hon ⊢
  cases h : a.on memory with
  | error c => exact not_false
  | ok r => exact hon.post_of_eq h

theorem honest_use (honest : m.guest.memory.Honest allows) (use : Use) :
  Meets False (use.on m) fun m' => m'.guest.memory.Honest allows
  := by
  cases use with
  | locate addr access => exact honest_onMemory honest (respects_locate addr access)
  | readAt b size => exact honest_onMemory honest (respects_readAt b size)
  | writeAt b size value => exact honest_onMemory honest (respects_writeAt b size value)
  | load addr size => exact honest_onMemory honest (respects_read addr size .read)
  | store addr size value => exact honest_onMemory honest (respects_store addr size value)
  | fetch pc => exact honest_onMemory honest (respects_fetch pc)
  | invalidate page => exact .ok (honest.of_entries rfl)
  | flush => exact .ok (honest.of_entries rfl)
  | map base len device =>
    apply Meets.map
    refine (m.guest.memory.space.map_meets base len device).bind fun r hr => ?_
    cases r with
    | error e => exact .ok honest
    | ok s' =>
      obtain ⟨haligned, hkept⟩ := hr s' rfl honest.aligned
      refine .ok ⟨honest.pure, haligned, fun i e he addr hpage => ?_⟩
      obtain ⟨hbacked, hrights⟩ := honest.truthful i e he addr hpage
      exact ⟨hkept addr _ hbacked, hrights⟩

theorem honest_uses {m₀ : Machine} (honest : m₀.guest.memory.Honest allows) (uses : Uses m₀ m) :
  m.guest.memory.Honest allows
  := by
  induction uses with
  | refl => exact honest
  | step _ on ih => exact (honest_use ih _).post_of_eq on

/-- A new machine has empty RAM in whole pages, an empty table, and a code cache if it compiles. -/
theorem exists_space_of_create {config : Config} {policy : Policy} {services : Host.Services}
    {platform : Host.Platform} (created : create config policy services platform = .ok (.ok m)) :
  ∃ space, m.guest.memory = { space, policy } ∧ space.Aligned ∧ space.ram.size % pageSize = 0 ∧
    (config.mode = .interpret → m.cache = none) ∧
    ∀ c, m.cache = some c →
      CodeCache.create config.cacheSize config.eviction services platform = .ok (some c)
  := by
  obtain ⟨space, hspace, created⟩ := Except.bind_eq_ok.mp created
  have hshape : space.Aligned ∧ space.ram.size % pageSize = 0 := by
    obtain ⟨hbase, -, rfl⟩ := Space.eq_of_create hspace
    refine ⟨⟨hbase, fun _ h => absurd h List.not_mem_nil⟩, ?_⟩
    rw [Bytes.size_zeros]
    exact Nat.mul_mod_left _ _
  obtain ⟨haligned, hwhole⟩ := hshape
  cases hmode : config.mode with
  | interpret =>
    rw [hmode] at created
    cases created
    refine ⟨space, rfl, haligned, hwhole, fun _ => rfl, ?_⟩
    rintro _ ⟨⟩
  | jit =>
    rw [hmode] at created
    obtain ⟨cache, hcache, created⟩ := Except.bind_eq_ok.mp created
    cases cache with
    | none => cases created
    | some c =>
      cases created
      refine ⟨space, rfl, haligned, hwhole, fun h => absurd h (by decide), ?_⟩
      rintro _ ⟨⟩
      exact hcache

/-- The table of a new machine tells the truth. -/
theorem honest_create {config : Config} {policy : Policy} {services : Host.Services}
    {platform : Host.Platform} (pure : policy.IsPure allows)
    (created : create config policy services platform = .ok (.ok m)) :
  m.guest.memory.Honest allows
  := by
  obtain ⟨space, hmemory, haligned, -⟩ := exists_space_of_create created
  rw [hmemory]
  refine ⟨pure, haligned, fun i e he => ?_⟩
  simp at he

theorem onMemory_locate (honest : m.guest.memory.Honest allows) (addr : Word) (access : Access) :
  ∃ m', m.onMemory (Memory.locate addr access) =
      .ok (m.guest.memory.space.translate allows addr access, m') ∧
    m'.guest.memory.space = m.guest.memory.space
  := by
  obtain ⟨⟨hart, memory⟩, cache, config, failures, entries, interpreted⟩ := m
  obtain ⟨memory', hlocate, -, hspace⟩ := honest.locate addr access
  refine ⟨⟨⟨hart, memory'⟩, cache, config, failures, entries, interpreted⟩, ?_, hspace⟩
  unfold onMemory
  dsimp only at hlocate ⊢
  rw [hlocate]

/-- Under a policy that always gives the same answer to the same question, a translation gives what
the address space and the policy say, whatever the machine did with its memory before.  Loads, stores
and fetches give what they give with an empty table. -/
theorem lookaside_unseen {config : Config} {policy : Policy} {services : Host.Services}
    {platform : Host.Platform} {m₀ : Machine} (pure : policy.IsPure allows)
    (created : create config policy services platform = .ok (.ok m₀)) (uses : Uses m₀ m) :
  (∀ addr access, ∃ m', m.onMemory (Memory.locate addr access) =
      .ok (m.guest.memory.space.translate allows addr access, m') ∧
    m'.guest.memory.space = m.guest.memory.space) ∧
  (∀ addr size, Action.Matches (Alike allows) ((Memory.load addr size).on m.guest.memory)
    ((Memory.load addr size).on m.guest.memory.forget)) ∧
  (∀ addr size value, Action.Matches (Alike allows)
    ((Memory.store addr size value).on m.guest.memory)
    ((Memory.store addr size value).on m.guest.memory.forget)) ∧
  ∀ pc, Action.Matches (Alike allows) ((Memory.fetch pc).on m.guest.memory)
    ((Memory.fetch pc).on m.guest.memory.forget)
  := by
  have honest := honest_uses (honest_create pure created) uses
  have halike : Alike allows m.guest.memory m.guest.memory.forget := ⟨honest, honest.forget, rfl⟩
  refine ⟨onMemory_locate honest, fun addr size => ?_, fun addr size value => ?_, fun pc => ?_⟩
  · exact respects_read addr size .read _ _ halike
  · exact respects_store addr size value _ _ halike
  · exact respects_fetch pc _ _ halike

/-- What was kept of a page when it was read answers when it is written. -/
theorem lookaside_unseen_when_read_only :
  ∃ m₀ m m', create { memorySize := 0x1000, mode := .interpret } (.ofFun fun q => q.access != .write) =
      .ok (.ok m₀) ∧
    m₀.onMemory (Memory.locate 0x10 .read) = .ok (.ok (.ram 0x10), m) ∧ Uses m₀ m ∧
    m.onMemory (Memory.locate 0x18 .write) = .ok (.error ⟨0x18, .write⟩, m')
  := by
  have hpure : (Policy.ofFun fun q => q.access != .write).IsPure fun q => q.access != .write :=
    fun _ _ => rfl
  obtain ⟨m₀, hcreate, hspace₀⟩ : ∃ m₀, create { memorySize := 0x1000, mode := .interpret }
      (.ofFun fun q => q.access != .write) = .ok (.ok m₀) ∧
      m₀.guest.memory.space = ⟨Bytes.zeros 0x1000, 0, []⟩ := ⟨_, rfl, rfl⟩
  have hresolve (addr : Word) (h : pageOf addr = pageOf 0) :
      Space.resolve ⟨Bytes.zeros 0x1000, 0, []⟩ addr = some (.ram 0) := by
    rw [Space.resolve_congr _ h]
    simp [Space.resolve, Space.ramContains, pageStart, Bytes.size_zeros]
  obtain ⟨m, hread, hspace⟩ := (lookaside_unseen hpure hcreate .refl).1 0x10 .read
  have huse : (Use.locate 0x10 .read).on m₀ = .ok m := by
    rw [Use.on, hread]
    rfl
  obtain ⟨m', hwrite, -⟩ := (lookaside_unseen hpure hcreate (.step .refl huse)).1 0x18 .write
  rw [hspace, hspace₀, Space.translate, hresolve 0x18 (by decide)] at hwrite
  rw [hspace₀, Space.translate, hresolve 0x10 (by decide)] at hread
  exact ⟨m₀, m, m', hcreate, hread, .step .refl huse, hwrite⟩

end CrossHart.Machine
