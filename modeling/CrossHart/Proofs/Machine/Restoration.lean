import CrossHart.Proofs.Machine.Lifetime
import CrossHart.Proofs.Machine.Recount
import CrossHart.Proofs.Machine.Snapshot

/-!
# Restoring snapshots

A snapshot has the registers and the RAM of a machine.  Restored into a machine of the same size, it
makes that machine go on with the computation: nothing else that a machine holds can be seen by a guest
that reads no counter.
-/

namespace CrossHart

open CrossHart.Action Isa Cache Host

variable {allows : Memory.Query → Bool} {η : Type}

namespace Machine

variable {handler : Handler η} {config config' : Config} {policy policy' : Memory.Policy}
  {m t t' : Machine}

/-! ### What restoring does -/

/-- A machine after a snapshot was restored. -/
structure Restored (s : Snapshot) (m m' : Machine) : Prop where
  regs : m'.guest.hart.regs = { s.regs with x := s.regs.x.set 0 0 (Nat.zero_lt_succ _) }
  reservation : m'.guest.hart.reservation = noReservation
  retired : m'.guest.hart.retired = m.guest.hart.retired
  space : m'.guest.memory.space =
    { m.guest.memory.space with ram := Bytes.extend s.memory m.ram.size }
  cache : m'.cache = m.cache.map (·.flush)

/-- A snapshot with another first address or with too much RAM is refused, and nothing changes. -/
theorem restore_eq (s : Snapshot) (m : Machine) :
  s.base ≠ m.base ∧ restore s m = .ok (.error (.snapshotBase m.base s.base), m) ∨
  m.ram.size < s.memory.size ∧
    restore s m = .ok (.error (.snapshot (.sizeMismatch s.memory.size m.ram.size)), m) ∨
  s.base = m.base ∧ s.memory.size ≤ m.ram.size ∧
    ∃ m', restore s m = .ok (.ok (), m') ∧ Restored s m m'
  := by
  unfold restore
  by_cases hbase : s.base = m.base
  case neg =>
    rw [if_pos hbase]
    exact .inl ⟨hbase, rfl⟩
  rw [if_neg (not_not_intro hbase)]
  by_cases hsize : m.ram.size < s.memory.size
  case pos =>
    rw [if_pos hsize]
    exact .inr (.inl ⟨hsize, rfl⟩)
  rw [if_neg hsize]
  exact .inr (.inr ⟨hbase, Nat.not_lt.mp hsize, _, rfl, rfl, rfl, rfl, rfl, rfl⟩)

theorem Restored.at0_ram {s : Snapshot} {m' : Machine} (restored : Restored s m m') (i : Nat) :
  Bytes.at0 m'.ram i = Bytes.at0 s.memory i
  := by
  rw [ram, restored.space, Bytes.at0_extend]

theorem read_snapshot (zero : m.guest.hart.regs.x.get 0 = 0) (fits : m.ram.size ≤ 2 ^ 36) :
  Snapshot.read m.snapshot.toBytes = .ok (m.snapshot, m.snapshot.toBytes.size)
  := Snapshot.read_toBytes zero fits

/-! ### Machines that can go on -/

/-- The instructions of all live compiled blocks are those in memory. -/
def Matched (allows : Memory.Query → Bool) (m : Machine) : Prop :=
  ∀ c, m.cache = some c → Coded (Block.IsSource allows m.guest.memory.space) c.services c.frame.leave
    c.table.view.bare c.buffer.bytes c.table.view.dest

theorem Lives.standing_pure (pure : policy.IsPure allows)
    (small : config.mode = .jit → config.cacheSize ≤ 0x80000000) (lives : m.Lives config policy) :
  m.Standing config.mode (Memory.Protects allows) Located.IsDecoded
  := lives.standing (Memory.isUpkept_protects pure) (shows_isDecoded _) (fun _ h => h.proper) small

/-- Without devices, the memory of a machine under a pure policy is plain. -/
theorem Lives.plain (pure : policy.IsPure allows)
    (small : config.mode = .jit → config.cacheSize ≤ 0x80000000) (lives : m.Lives config policy)
    (bare : m.guest.memory.space.regions = []) :
  m.guest.memory.Plain allows
  := ⟨(lives.standing_pure pure small).memory.before, bare⟩

theorem Lives.ready (small : config.mode = .jit → config.cacheSize ≤ 0x80000000)
    (lives : m.Lives config policy) (matched : m.Matched allows) :
  m.Ready allows
  := by
  cases hcache : m.cache with
  | none => exact .inl hcache
  | some c =>
    obtain ⟨hdistinct, ⟨arena, linked, low, mode⟩⟩ := (lives.standing_sound small).stocked c hcache
    refine .inr ⟨c, hcache, hdistinct, arena, ?_, low, mode⟩
    exact ⟨linked.graph, linked.index, linked.jumps, linked.waiting, matched c hcache⟩

/-- A restored machine has an empty code cache or none. -/
theorem Lives.ready_of_restored (small : config.mode = .jit → config.cacheSize ≤ 0x80000000)
    (lives : m.Lives config policy) {s : Snapshot} {m' : Machine} (restored : Restored s m m') :
  m'.Ready allows
  := by
  have hcache := restored.cache
  cases hm : m.cache with
  | none =>
    rw [hm] at hcache
    exact .inl hcache
  | some c =>
    rw [hm] at hcache
    obtain ⟨hdistinct, hintact⟩ := (lives.standing_sound small).stocked c hm
    exact .inr ⟨c.flush, hcache, hdistinct, CodeCache.flush_intact hintact⟩

/-- The snapshot of a machine in a machine with as much RAM brings it into the same state. -/
theorem Restored.sameState (restored : Restored m.snapshot t t')
    (bare : m.guest.memory.space.regions = []) (bare' : t.guest.memory.space.regions = [])
    (base : t.base = m.base) (size : t.ram.size = m.ram.size)
    (zero : m.guest.hart.regs.x.get 0 = 0)
    (unreserved : m.guest.hart.reservation = noReservation) :
  m.guest.SameState t'.guest
  := by
  constructor
  · have hset : m.snapshot.regs.x.set 0 0 (Nat.zero_lt_succ _) = m.guest.hart.regs.x := by
      rw [← zero]
      exact Vector.set_getElem_self _
    rw [restored.regs, hset]
    rfl
  · rw [restored.reservation, unreserved]
  · have hram : Bytes.extend m.snapshot.memory t.ram.size = m.guest.memory.space.ram := by
      rw [size]
      exact if_neg (Nat.lt_irrefl _)
    rw [restored.space, hram]
    change Memory.Space.mk _ t.base t.guest.memory.space.regions = _
    rw [base, bare', ← bare]
    rfl

/-- The snapshot of a machine, written out and read back, makes any machine with the same RAM and the
same policy go on with the computation.  If nothing is written over live compiled blocks and the guest
reads no counter, both machines end a run in the same way, with guests in the same state and the same
state of the handler; they crash only if the handler crashes, or if a count comes to its end.

A snapshot is refused exactly if its RAM starts elsewhere or is larger, and then nothing changes.
Otherwise RAM holds its bytes, and zeros behind them. -/
theorem snapshot_resumes (pure : policy.IsPure allows) (pure' : policy'.IsPure allows)
    (regular : Handler.IsRegular allows handler)
    (small : config.mode = .jit → config.cacheSize ≤ 0x80000000)
    (small' : config'.mode = .jit → config'.cacheSize ≤ 0x80000000)
    (lives : m.Lives config policy) (lives' : t.Lives config' policy')
    (bare : m.guest.memory.space.regions = []) (bare' : t.guest.memory.space.regions = [])
    (base : t.base = m.base) (size : t.ram.size = m.ram.size) (fits : m.ram.size ≤ 2 ^ 36)
    (zero : m.guest.hart.regs.x.get 0 = 0)
    (unreserved : m.guest.hart.reservation = noReservation) (matched : m.Matched allows) :
  (∃ n s t', Snapshot.read m.snapshot.toBytes = .ok (s, n) ∧ restore s t = .ok (.ok (), t') ∧
    ∀ h quota, Undisturbed handler (m.started quota) h → Undisturbed handler (t'.started quota) h →
      Uncounted handler ((interpreting m.guest).started quota) h →
      (∃ exit m₁ t₁ h₁, run handler m h quota = .ok (exit, m₁, h₁) ∧
        run handler t' h quota = .ok (exit, t₁, h₁) ∧ m₁.guest.SameState t₁.guest) ∨
      (∃ crash h₁, run handler m h quota = .error (crash, h₁) ∧
        run handler t' h quota = .error (crash, h₁) ∧
        ∃ call memory, memory.Plain allows ∧ handler call h₁ memory = .error crash) ∨
      (∃ h₁, run handler m h quota = .error (.overflow, h₁) ∧
        Word.count ≤ m.guest.hart.retired.toNat + budgetOf quota) ∨
      ∃ h₁, run handler t' h quota = .error (.overflow, h₁) ∧
        Word.count ≤ t.guest.hart.retired.toNat + budgetOf quota) ∧
  ∀ (s : Snapshot) (x : Machine), ∃ r x', restore s x = .ok (r, x') ∧
    ((∃ e, r = .error e) ↔ s.base ≠ x.base ∨ x.ram.size < s.memory.size) ∧
    (∀ e, r = .error e → x' = x) ∧
    (r = .ok () → x'.ram.size = x.ram.size ∧
      (∀ i < s.memory.size, Bytes.at0 x'.ram i = Bytes.at0 s.memory i) ∧
      ∀ i, s.memory.size ≤ i → Bytes.at0 x'.ram i = 0)
  := by
  constructor
  · have hread := read_snapshot zero fits
    obtain ⟨hbase, -⟩ | ⟨hsize, -⟩ | ⟨-, -, t', hrestore, hrestored⟩ := restore_eq m.snapshot t
    · exact absurd base.symm hbase
    · rw [size] at hsize
      exact absurd hsize (Nat.lt_irrefl _)
    refine ⟨_, _, t', hread, hrestore, fun h quota undisturbed undisturbed' uncounted => ?_⟩
    have hbare : t'.guest.memory.space.regions = [] := by
      rw [hrestored.space]
      exact bare'
    have hplain' := (lives'.restore m.snapshot hrestore).plain pure' small' hbare
    have halike := (lives.ready small matched).run_alike regular (lives'.ready_of_restored small' hrestored)
      (lives.plain pure small bare) hplain'
      (hrestored.sameState bare bare' base size zero unreserved) undisturbed undisturbed' uncounted
    rw [hrestored.retired] at halike
    exact halike
  · intro s x
    obtain ⟨hbase, h⟩ | ⟨hsize, h⟩ | ⟨hbase, hsize, x', h, hrestored⟩ := restore_eq s x
    · exact ⟨_, x, h, ⟨fun _ => .inl hbase, fun _ => ⟨_, rfl⟩⟩, fun _ _ => rfl, nofun⟩
    · exact ⟨_, x, h, ⟨fun _ => .inr hsize, fun _ => ⟨_, rfl⟩⟩, fun _ _ => rfl, nofun⟩
    · refine ⟨_, x', h, ⟨nofun, fun hrefused => ?_⟩, nofun, fun _ => ⟨?_, fun i _ => ?_, fun i hi => ?_⟩⟩
      · obtain hne | hlt := hrefused
        · exact absurd hbase hne
        · exact absurd hsize (Nat.not_le.mpr hlt)
      · rw [ram, hrestored.space, Bytes.size_extend]
        exact Nat.max_eq_right hsize
      · exact hrestored.at0_ram i
      · rw [hrestored.at0_ram, Bytes.at0, dif_neg (Nat.not_lt.mpr hi)]

/-- A machine that interprets has no compiled blocks to disturb. -/
theorem undisturbed_of_cache_eq_none (interpreting : m.cache = none) (h : η) :
  Undisturbed handler m h
  := by
  have hcache : ∀ m' h', Comes handler m h m' h' → m'.cache = none := by
    intro m' h' comes
    induction comes with
    | refl => exact interpreting
    | turn _ _ on ih => exact turn_cache_eq_none ih on
  intro m' h' comes _ id m₁ hcompiled c hc
  obtain ⟨guest, cache, config, failures, entries, interpreted⟩ := m'
  obtain rfl : cache = none := hcache _ _ comes
  cases hcompiled
  cases hc

/-- A hart in the middle of something else. -/
def elsewhere : Hart where
  regs := ⟨.replicate 32 0xffffffffffffffff, 0x123⟩
  retired := 7
  reservation := 0x40

/-- The snapshot of a machine that compiles, with a program that exits, in a machine that interprets and
was in the middle of something else. -/
theorem snapshot_resumes_to_exit :
  ∃ m₀ t₀ s n t' m₁ t₁ k,
    create { cacheSize := 0x10000, memorySize := 0x1000 } (.ofFun lowCode) = .ok (.ok m₀) ∧
    create { memorySize := 0x1000, mode := .interpret } (.ofFun lowCode) = .ok (.ok t₀) ∧
    Snapshot.read (m₀.withGuest quitting).snapshot.toBytes = .ok (s, n) ∧
    restore s (t₀.withGuest ⟨elsewhere, t₀.guest.memory⟩) = .ok (.ok (), t') ∧
    run Userland.Kernel.handle (m₀.withGuest quitting) ⟨0, 0, 0, .standard⟩ none =
      .ok (.exit 42, m₁, k) ∧
    run Userland.Kernel.handle t' ⟨0, 0, 0, .standard⟩ none = .ok (.exit 42, t₁, k) ∧
    m₁.guest.SameState t₁.guest
  := by
  obtain ⟨c, created⟩ :=
    CodeCache.exists_create (by decide : Platform.standard.Affords 0x10000) .fifo .standard
  have hempty (id : Nat) : c.block? id = none := by
    rw [CodeCache.block?, (CodeCache.created_of_create created).table]
    simp [Table.block?]
  let config : Config := { cacheSize := 0x10000, memorySize := 0x1000 }
  let config' : Config := { memorySize := 0x1000, mode := .interpret }
  let memory : Memory := { space := ⟨Bytes.zeros 0x1000, 0, []⟩, policy := .ofFun lowCode }
  let m₀ : Machine := { guest := { memory }, cache := some c, config }
  let t₀ : Machine := { guest := { memory }, cache := none, config := config' }
  let t : Machine := t₀.withGuest ⟨elsewhere, memory⟩
  have hspace : Memory.Space.create 0 (BitVec.ofNat 64 0x1000) =
      .ok { ram := Bytes.zeros 0x1000, base := 0 } := rfl
  have hm₀ : create config (.ofFun lowCode) = .ok (.ok m₀) := by
    unfold create
    rw [hspace, Except.ok_bind]
    dsimp only [config]
    rw [created]
    rfl
  have ht₀ : create config' (.ofFun lowCode) = .ok (.ok t₀) := by
    unfold create
    rw [hspace, Except.ok_bind]
    rfl
  have hsize : quitting.memory.space.ram.size = 0x1000 := by
    rw [quitting, Bytes.size_overwrite, Bytes.size_zeros]
  have hfits : (m₀.withGuest quitting).ram.size ≤ 2 ^ 36 := by
    rw [ram, withGuest, hsize]
    decide
  have hlives : (m₀.withGuest quitting).Lives config (.ofFun lowCode) := by
    have hram := (Lives.create (by decide) hm₀).ram quitting.memory.space.ram (by rw [hsize, ram, Bytes.size_zeros])
    dsimp only [mapMemory, quitting] at hram
    exact hram
  have hlives' : t.Lives config' (.ofFun lowCode) := (Lives.create (by decide) ht₀).hart elsewhere
  have hpure : (Memory.Policy.ofFun lowCode).IsPure lowCode := fun _ _ => rfl
  have hregular : Handler.IsRegular lowCode Userland.Kernel.handle :=
    Userland.Kernel.isRegular_handle
  have hstocked : (m₀.withGuest quitting).Stocked lowCode c :=
    stocked_of_empty (by decide) (by decide) created .refl rfl hempty
  have hmatched : (m₀.withGuest quitting).Matched lowCode := by
    rintro _ ⟨⟩
    exact hstocked.intact.linked.coded
  have hexit : ((restore (interpreting quitting).snapshot t).toOption.bind fun r =>
      (run Userland.Kernel.handle r.2 ⟨0, 0, 0, .standard⟩ none).toOption.map (·.1)) =
        some (.exit 42) := by decide +kernel
  have huncounted : Uncounted Userland.Kernel.handle ((interpreting quitting).started none)
      ⟨0, 0, 0, .standard⟩ := uncounted_of_endsUncounted (k := 4) (by decide +kernel)
  have hplain := hlives.plain hpure (fun _ => by decide) rfl
  have hundisturbed : Undisturbed Userland.Kernel.handle ((m₀.withGuest quitting).started none)
      ⟨0, 0, 0, .standard⟩ :=
    undisturbed_of_exclusive exclusive_lowCode hregular
      (twins_started hplain hplain ⟨rfl, rfl, rfl, rfl, rfl⟩ none) (hstocked.started none)
  obtain ⟨⟨n, s, t', hread, hrestore, hresumes⟩, -⟩ :=
    snapshot_resumes hpure hpure hregular (fun _ => by decide) (by decide) hlives hlives' rfl rfl rfl
      ((Bytes.size_zeros _).trans hsize.symm) hfits rfl rfl hmatched
  have hcache : (t'.started none).cache = none :=
    ((hlives'.restore s hrestore).standing_pure hpure (by decide)).mode rfl
  obtain ⟨⟩ := hread.symm.trans (read_snapshot rfl hfits)
  change (restore (interpreting quitting).snapshot t) = _ at hrestore
  rw [hrestore] at hexit
  obtain ⟨⟨exit, t₁, k⟩, hrun, ⟨⟩⟩ := Except.exists_of_toOption hexit
  obtain ⟨exit, m₁, t₁', k', hm, ht, hsame⟩ | ⟨_, _, -, ht, -⟩ | ⟨_, -, hfull⟩ | ⟨_, -, hfull⟩ :=
    hresumes ⟨0, 0, 0, .standard⟩ none hundisturbed (undisturbed_of_cache_eq_none hcache _) huncounted
  · obtain ⟨⟩ := hrun.symm.trans ht
    exact ⟨m₀, t₀, _, _, t', m₁, t₁, k, hm₀, ht₀, hread, hrestore, hm, ht, hsame⟩
  · cases hrun.symm.trans ht
  · have hnone : ¬Word.count ≤ (0 : Word).toNat + budgetOf none := by decide
    exact absurd hfull hnone
  · exact absurd hfull (by decide)

end Machine

end CrossHart
