import CrossHart.Proofs.Machine.Equivalence

/-!
# Runs in parts

A run that ended because its quota was used up can be taken up again.  The two parts lead to what one
run with both quotas leads to, although they compile other blocks.  For a machine that interprets, more
budget changes nothing but the account, so an instruction of the long run is one of a part; a machine
that compiles runs as one that interprets.
-/

namespace CrossHart

open CrossHart.Action Isa Cache Host

variable {allows : Memory.Query → Bool} {η : Type}

/-! ### More budget -/

namespace Hart

/-- The hart with `n` more instructions to carry out. -/
def lent (n : Nat) (h : Hart) : Hart :=
  { h with
    budget := h.budget + BitVec.ofNat 64 n
    budgetStart := h.budgetStart + BitVec.ofNat 64 n }

theorem instret_lent (n : Nat) (h : Hart) :
  (h.lent n).instret = h.instret
  := by
  unfold instret lent
  dsimp only
  generalize BitVec.ofNat 64 n = w
  bv_omega

theorem toNat_budget_lent {n : Nat} {h : Hart} (room : h.budget.toNat + n < 2 ^ 63) :
  (h.lent n).budget.toNat = h.budget.toNat + n
  := by
  unfold lent
  dsimp only
  rw [BitVec.toNat_add, BitVec.toNat_ofNat]
  omega

/-- No instruction sees the budget. -/
theorem isFullCongruence_lent (n : Nat) :
  IsFullCongruence fun h k => k = h.lent n
  := by
  constructor
  · refine ⟨⟨?_, ?_, ?_, ?_⟩, ?_⟩
    · rintro h _ rfl
      rfl
    · rintro h _ x rfl
      rfl
    · rintro h _ rfl
      rfl
    · rintro h _ addr rfl
      rfl
    · rintro h _ rfl
      rw [instret_lent]
  · rintro h _ pc rfl
    rfl

/-- An instruction that respects a change of the hart does the same after it. -/
theorem step_mapHart {f : Hart → Hart} {d : Located}
    (respects : Respects (Guest.Rel (fun h k => k = f h) Eq) (step d)) {g g' : Guest}
    {r : Except Exception StepExit} (on : (step d).on g = .ok (r, g')) :
  (step d).on ⟨f g.hart, g.memory⟩ = .ok (r, ⟨f g'.hart, g'.memory⟩)
  := by
  have hmatches := respects g ⟨f g.hart, g.memory⟩ ⟨rfl, rfl⟩
  rw [on] at hmatches
  obtain ⟨c, hc, -⟩ | ⟨r', s, ⟨hart, memory⟩, hs, ht, hhart, hmemory⟩ := hmatches.elim
  · cases hc
  · cases hs
    dsimp only at hhart hmemory
    rw [ht, hhart, hmemory]

end Hart

namespace Machine

variable {handler : Handler η} {m m₁ x x₁ : Machine} {c : CodeCache} {h h₁ : η} {n : Nat}

theorem retireOne_lent {h : Hart} (left : 0 < h.budget.toNat) (room : h.budget.toNat + n < 2 ^ 63) :
  retireOne (h.lent n) = (retireOne h).map (Hart.lent n)
  := by
  have hnat := Hart.toNat_budget_lent room
  have hlent : Word.signedDiff (h.lent n).budget 1 = .ok ((h.lent n).budget - 1) := by
    apply Word.signedDiff_one
    · omega
    · omega
  have hnext : (h.lent n).budget - 1 = h.budget - 1 + BitVec.ofNat 64 n := by
    unfold Hart.lent
    dsimp only
    generalize BitVec.ofNat 64 n = w
    bv_omega
  have hretired : (h.lent n).retired = h.retired := rfl
  unfold retireOne
  rw [hretired, hlent, hnext, Word.signedDiff_one left (by omega)]
  cases Word.sum h.retired 1 with
  | error c => rfl
  | ok retired => rfl

/-- The machine with `n` more instructions to carry out. -/
def lent (n : Nat) (m : Machine) : Machine :=
  m.withGuest ⟨m.guest.hart.lent n, m.guest.memory⟩

/-- The result of a turn with `n` more instructions to carry out. -/
def Turn.lent (n : Nat) (t : Turn η) : Turn η :=
  (t.1, t.2.1.lent n, t.2.2)

/-- The machine with its hart changed. -/
def mapHart (f : Hart → Hart) (m : Machine) : Machine :=
  m.withGuest ⟨f m.guest.hart, m.guest.memory⟩

/-- The result of a turn with the hart changed. -/
def Turn.mapHart (f : Hart → Hart) (t : Turn η) : Turn η :=
  (t.1, t.2.1.mapHart f, t.2.2)

/-- What follows an instruction sees the registers of the hart only. -/
theorem finish_mapHart (handler : Handler η) {f : Hart → Hart}
    (other : ∀ h regs, f { h with regs } = { f h with regs }) (r : Except Exception Hart.StepExit)
    (m : Machine) (h : η) :
  finish handler r (m.mapHart f) h = (finish handler r m h).map (Turn.mapHart f)
  := by
  have hregs : (f m.guest.hart).regs = m.guest.hart.regs := by
    have hother := congrArg Hart.regs (other m.guest.hart m.guest.hart.regs)
    exact hother
  have hmapped : (m.mapHart f).guest.hart.regs = m.guest.hart.regs := hregs
  match r with
  | .ok .continue => rfl
  | .ok .fenceI => rfl
  | .error e =>
    unfold finish
    dsimp only
    rw [hmapped]
    rfl
  | .ok .ecall =>
    unfold finish
    dsimp only
    rw [ecall_eq, ecall_eq, hmapped]
    change handler m.guest.hart.regs.call h m.guest.memory >>= _ = _
    cases handler m.guest.hart.regs.call h m.guest.memory with
    | error c => rfl
    | ok result =>
      obtain ⟨outcome, h', memory⟩ := result
      cases outcome with
      | exit status => rfl
      | ret v =>
        change Except.ok (none, m.withGuest ⟨{ f m.guest.hart with
          regs := { (f m.guest.hart).regs.put firstArgument v with pc := m.guest.hart.regs.pc + 4 } },
            memory⟩, h') = _
        rw [hregs, ← other]
        rfl

/-- An interpreted instruction that respects a change of the hart does the same after it, unless it is
counted in another way. -/
theorem interpretOne_mapHart (handler : Handler η) {f : Hart → Hart}
    (other : ∀ h regs, f { h with regs } = { f h with regs }) (plain : m.guest.memory.Plain allows)
    (respects : ∀ d memory, (Block.readInstr Memory.fetch m.guest.hart.regs.pc).on m.guest.memory =
      .ok (.ok d, memory) → Respects (Guest.Rel (fun h k => k = f h) Eq) (Hart.step d)) (h : η) :
  interpretOne handler (m.mapHart f) h = (interpretOne handler m h).map (Turn.mapHart f) ∨
  ∃ hart : Hart, hart.budget = m.guest.hart.budget ∧ hart.retired = m.guest.hart.retired ∧
    retireOne (f hart) ≠ (retireOne hart).map f ∧
    (∀ c, retireOne hart = .error c → interpretOne handler m h = .error c) ∧
    ∀ c, retireOne (f hart) = .error c → interpretOne handler (m.mapHart f) h = .error c
  := by
  have hregs : (m.mapHart f).guest.hart.regs = m.guest.hart.regs := by
    have hother := congrArg Hart.regs (other m.guest.hart m.guest.hart.regs)
    exact hother
  obtain ⟨⟨fetched, memory⟩, hread, hlooks⟩ :=
    (Memory.stays_readInstr m.guest.hart.regs.pc _ plain.looks).exists_ok trivial
  have hread' : (Block.readInstr Memory.fetch (m.mapHart f).guest.hart.regs.pc).on
      (m.mapHart f).guest.memory = .ok (fetched, memory) := by
    rw [hregs]
    exact hread
  cases fetched with
  | error e =>
    obtain ⟨raised, hfault⟩ := interpretOne_of_fault handler
      (Block.throws_readInstr m.guest.hart.regs.pc _ e _ hread)
    rw [hfault m memory h hread, hfault (m.mapHart f) memory h hread', hregs]
    exact .inl rfl
  | ok d =>
    obtain ⟨hdecoded, -⟩ := Block.isDecoded_of_readInstr hread
    obtain ⟨⟨r, g⟩, hstep, hevolves⟩ := (Hart.stays_step hdecoded.proper ⟨m.guest.hart, memory⟩
      (Guest.evolves_self hlooks.after)).exists_ok trivial
    have hstep' := Hart.step_mapHart (respects d memory hread) hstep
    rw [interpretOne_eq handler hread hstep,
      interpretOne_eq (m := m.mapHart f) handler hread' hstep']
    split
    case isTrue =>
      by_cases hretire : retireOne (f g.hart) = (retireOne g.hart).map f
      case pos =>
        rw [hretire]
        cases retireOne g.hart with
        | error c => exact .inl rfl
        | ok hart => exact .inl (finish_mapHart handler other r (m.interpretedTo ⟨hart, g.memory⟩) h)
      case neg =>
        refine .inr ⟨g.hart, hevolves.budget, hevolves.retired, hretire, fun c hc => ?_, fun c hc => ?_⟩
        · rw [hc]
          rfl
        · rw [hc]
          rfl
    case isFalse => exact .inl (finish_mapHart handler other r (m.interpretedTo g) h)

/-- With more budget an interpreted instruction does the same. -/
theorem interpretOne_lent (plain : m.guest.memory.Plain allows)
    (left : 0 < m.guest.hart.budget.toNat) (room : m.guest.hart.budget.toNat + n < 2 ^ 63) (h : η) :
  interpretOne handler (m.lent n) h = (interpretOne handler m h).map (Turn.lent n)
  := by
  have hrespects (d : Located) := Hart.respects_step (Hart.isFullCongruence_lent n) Memory.isCongruence_eq d
  obtain hsame | ⟨hart, hbudget, -, hretire, -⟩ := interpretOne_mapHart handler
    (f := Hart.lent n) (fun _ _ => rfl) plain (fun d _ _ => hrespects d) h
  · exact hsame
  · rw [← hbudget] at left room
    exact absurd (retireOne_lent left room) hretire

/-- With more budget the same instructions are interpreted. -/
theorem Interprets.lent (regular : Handler.IsRegular allows handler) (twins : Twins allows x x)
    (run : Interprets handler x h n x₁ h₁) {k : Nat}
    (room : x.guest.hart.budget.toNat + k < 2 ^ 63) :
  Interprets handler (x.lent k) h n (x₁.lent k) h₁
  := by
  induction run with
  | zero => exact .zero
  | @succ n m₁ m₂ h₁ h₂ earlier left on ih =>
    have hinterpreted := earlier.interpreted regular twins
    have hcount := hinterpreted.budget
    have hpos := toNat_pos left
    have hroom : m₁.guest.hart.budget.toNat + k < 2 ^ 63 := by omega
    have hnat := Hart.toNat_budget_lent hroom
    apply ih.succ
    · apply toInt_pos
      · change 0 < (m₁.guest.hart.lent k).budget.toNat
        omega
      · change (m₁.guest.hart.lent k).budget.toNat < 2 ^ 63
        omega
    · rw [interpretOne_lent hinterpreted.twins.plain hpos hroom, on]
      rfl

/-! ### Runs that interpret -/

section

variable (regular : Handler.IsRegular allows handler) (interpreting : x.cache = none)

include regular interpreting

/-- A run that uses up its budget interprets an instruction for each of it. -/
theorem interprets_of_exhausted (twins : Twins allows x x) {f : Nat}
    (run : turns handler f x h = .ok (.quotaExhausted, x₁, h₁)) :
  ∃ n, Interprets handler x h n x₁ h₁ ∧ x₁.guest.hart.budget.toInt ≤ 0
  := by
  induction f generalizing x h with
  | zero =>
    unfold turns at run
    split at run
    case isTrue hexhausted =>
      cases run
      exact ⟨0, .zero, hexhausted⟩
    case isFalse => cases run
  | succ f ih =>
    unfold turns at run
    split at run
    case isTrue hexhausted =>
      cases run
      exact ⟨0, .zero, hexhausted⟩
    case isFalse hleft =>
      have hleft := Int.not_le.mp hleft
      dsimp only at run
      rw [turn_of_cache_eq_none interpreting] at run
      split at run
      case h_1 => cases run
      case h_2 hone =>
        cases run
        exact absurd rfl (interpretOne_ends hone)
      case h_3 x₂ h₂ hone =>
        have hinterpreted := (Interprets.zero.succ hleft hone).interpreted regular twins
        obtain ⟨n, hrest, hexhausted⟩ := ih (hinterpreted.cache interpreting) hinterpreted.twins run
        exact ⟨n + 1, hrest.head hleft hone, hexhausted⟩

/-- With the sum of two quotas, a machine that interprets does what it does with the second one after
it used up the first. -/
theorem run_add_of_exhausted (plain : x.guest.memory.Plain allows) {a b : Nat}
    (small : a + b ≤ maxBudget) (first : run handler x h (some a) = .ok (.quotaExhausted, x₁, h₁)) :
  run handler x h (some (a + b)) = run handler x₁ h₁ (some b) ∧ x₁.cache = none
  := by
  have hinterpreting (quota : Option Nat) : (x.started quota).cache = none := interpreting
  have hbudgetOf {k : Nat} (hk : k ≤ maxBudget) : budgetOf (some k) = k := Nat.min_eq_left hk
  have hsmall : a + b < 2 ^ 63 := Nat.lt_of_le_of_lt small (by decide)
  have htwins (quota : Option Nat) : Twins allows (x.started quota) (x.started quota) :=
    twins_started plain plain ⟨rfl, rfl, rfl, rfl, rfl⟩ quota
  have hbudget : (x.started (some a)).guest.hart.budget.toNat = a := by
    change (BitVec.ofNat 64 (budgetOf (some a))).toNat = a
    rw [(toNat_budgetOf (some a)).1, hbudgetOf (by omega)]
  obtain ⟨n, hrun, hexhausted⟩ := interprets_of_exhausted regular (hinterpreting _) (htwins _) first
  have hinterpreted := hrun.interpreted regular (htwins (some a))
  have hcount := hinterpreted.budget
  have hzero : x₁.guest.hart.budget.toNat = 0 := by
    have hsigned := hinterpreted.twins.signed
    rw [BitVec.toInt_eq_toNat_of_lt (by omega)] at hexhausted
    omega
  obtain rfl : n = a := by omega
  have hlent := hrun.lent regular (htwins (some n)) (k := b) (by omega)
  have hstart : (x.started (some n)).lent b = x.started (some (n + b)) := by
    unfold started lent Hart.lent withGuest
    dsimp only
    rw [hbudgetOf (by omega), hbudgetOf small, BitVec.ofNat_add]
  have hend : x₁.lent b = x₁.started (some b) := by
    have hlevel := hinterpreted.twins.level
    have hnone : x₁.guest.hart.budget = 0#64 := BitVec.eq_of_toNat_eq hzero
    unfold started lent Hart.lent withGuest
    rw [hbudgetOf (by omega), hlevel, hnone, BitVec.zero_add]
  rw [hstart, hend] at hlent
  refine ⟨?_, hinterpreted.cache (hinterpreting _)⟩
  rw [run_eq, run_eq, hbudgetOf small, hbudgetOf (by omega)]
  exact turns_of_interprets regular (htwins _) (hinterpreting _) hlent b

/-- Runs that interpret are alike for twins. -/
theorem turns_concur_of_cache_eq_none (twins : Twins allows m x) (without : m.cache = none)
    {f f' : Nat}
    (enough : m.guest.hart.budget.toNat ≤ f) (enough' : m.guest.hart.budget.toNat ≤ f') :
  Concur allows handler m.guest.hart.horizon (turns handler f m h) (turns handler f' x h)
  := by
  induction f generalizing f' m x h with
  | zero =>
    apply Concur.of_exhausted twins
    have hsigned := twins.signed
    rw [BitVec.toInt_eq_toNat_of_lt (by omega)]
    omega
  | succ f ih =>
    by_cases hleft : 0 < m.guest.hart.budget.toInt
    case neg => exact .of_exhausted twins (Int.not_lt.mp hleft)
    case pos =>
      have hpos := toNat_pos hleft
      have hleft' : 0 < x.guest.hart.budget.toInt := budget_pos twins.alike hpos
      have hpairs := interpretOne_pairs regular twins hpos h
      obtain ⟨k, rfl⟩ : ∃ k, f' = k + 1 := ⟨f' - 1, by omega⟩
      rw [turns, if_neg (Int.not_le.mpr hleft), turns, if_neg (Int.not_le.mpr hleft'),
        turn_of_cache_eq_none without, turn_of_cache_eq_none interpreting]
      generalize hone : interpretOne handler m h = r at hpairs
      generalize hother : interpretOne handler x h = r' at hpairs
      cases hpairs with
      | crash fails => exact .crash fails
      | @ok r r' follows =>
        obtain ⟨exit, m', h'⟩ := r
        obtain ⟨exit', x', h''⟩ := r'
        obtain rfl : exit = exit' := follows.exit
        obtain rfl : h' = h'' := follows.state
        cases exit with
        | some exit => exact .ok follows.twins
        | none =>
          have hspends := follows.spends rfl
          have htwins : Twins allows m' x' := follows.twins
          have hcache :=
            ((Interprets.zero.succ hleft hone).interpreted regular twins.self).cache without
          have hcache' :=
            ((Interprets.zero.succ hleft' hother).interpreted regular twins.other).cache interpreting
          have hhorizon : m'.guest.hart.horizon = m.guest.hart.horizon := follows.keeps.horizon
          dsimp only at hspends ⊢
          rw [← hhorizon]
          exact ih hcache' htwins hcache (by omega) (by omega)

end

end Machine

/-- Guests that are the same as a third one are the same. -/
theorem Guest.Same.join {g g' k : Guest} (same : g.Same k) (same' : g'.Same k) :
  g.Same g'
  := by
  constructor
  · rw [← same.regs, same'.regs]
  · rw [← same.retired, same'.retired]
  · rw [← same.instret, same'.instret]
  · rw [← same.reservation, same'.reservation]
  · rw [← same.space, same'.space]

namespace Machine

variable {handler : Handler η} {m m₁ x : Machine} {h h₁ : η}

/-! ### Runs in either mode -/

/-- The machine interprets, or has a code cache with blocks that memory holds. -/
def Ready (allows : Memory.Query → Bool) (m : Machine) : Prop :=
  m.cache = none ∨ ∃ c, m.Stocked allows c

theorem Stocked.started {c : CodeCache} (stocked : m.Stocked allows c) (quota : Option Nat) :
  (m.started quota).Stocked allows c
  := by
  obtain ⟨hcache, hdistinct, hintact⟩ := stocked
  exact ⟨hcache, hdistinct, hintact⟩

theorem Ready.started (ready : m.Ready allows) (quota : Option Nat) :
  (m.started quota).Ready allows
  := by
  obtain hnone | ⟨c, stocked⟩ := ready
  · exact .inl hnone
  · exact .inr ⟨c, stocked.started quota⟩

/-- Memory holds the live blocks of a machine that used up its budget. -/
theorem stocked_of_exhausted (regular : Handler.IsRegular allows handler) (twins : Twins allows m m)
    {c : CodeCache} (stocked : m.Stocked allows c) (undisturbed : Undisturbed handler m h) {f : Nat}
    (run : turns handler f m h = .ok (.quotaExhausted, m₁, h₁)) :
  ∃ c₁, m₁.Stocked allows c₁
  := by
  induction f generalizing m h c with
  | zero =>
    unfold turns at run
    split at run
    case isTrue =>
      cases run
      exact ⟨c, stocked⟩
    case isFalse => cases run
  | succ f ih =>
    unfold turns at run
    split at run
    case isTrue =>
      cases run
      exact ⟨c, stocked⟩
    case isFalse hleft =>
      have hleft := Int.not_le.mp hleft
      obtain ⟨n, x₁, -, -, hpairs⟩ :=
        turn_pairs regular twins stocked (toNat_pos hleft) (undisturbed m h .refl hleft)
      dsimp only at run
      generalize hone : interpretOne handler x₁ h = r at hpairs
      split at run
      case h_1 => cases run
      case h_2 hturn =>
        cases run
        rw [hturn] at hpairs
        cases hpairs with
        | ok advances => exact absurd advances.exit.symm (interpretOne_ends hone)
      case h_3 m₂ h₂ hturn =>
        rw [hturn] at hpairs
        cases hpairs with
        | ok advances =>
          obtain ⟨c₂, hstocked⟩ := advances.stocked rfl
          exact ih advances.twins.self hstocked (undisturbed.next hleft hturn) run

/-- A machine that used up its budget can go on. -/
theorem Ready.of_exhausted (regular : Handler.IsRegular allows handler) (twins : Twins allows m m)
    (ready : m.Ready allows) (undisturbed : Undisturbed handler m h) {f : Nat}
    (run : turns handler f m h = .ok (.quotaExhausted, m₁, h₁)) :
  m₁.Ready allows
  := by
  obtain hnone | ⟨c, stocked⟩ := ready
  · obtain ⟨n, hrun, -⟩ := interprets_of_exhausted regular hnone twins run
    exact .inl ((hrun.interpreted regular twins).cache hnone)
  · exact .inr (stocked_of_exhausted regular twins stocked undisturbed run)

/-- A machine and one that interprets run alike from the same guest. -/
theorem Ready.run_concur (regular : Handler.IsRegular allows handler) (ready : m.Ready allows)
    (plain : m.guest.memory.Plain allows) (plain' : x.guest.memory.Plain allows)
    (same : m.guest.Same x.guest) (interpreting : x.cache = none) (h : η) (quota : Option Nat)
    (undisturbed : Undisturbed handler (m.started quota) h) :
  Concur allows handler (m.guest.hart.retired.toNat + budgetOf quota) (run handler m h quota)
    (run handler x h quota)
  := by
  obtain ⟨hbudget, -⟩ := toNat_budgetOf quota
  have htwins := twins_started plain plain' same quota
  have henough : (m.started quota).guest.hart.budget.toNat ≤ budgetOf quota := Nat.le_of_eq hbudget
  have hhorizon : (m.started quota).guest.hart.horizon =
      m.guest.hart.retired.toNat + budgetOf quota := by
    rw [← hbudget]
    rfl
  rw [run_eq, run_eq, ← hhorizon]
  obtain hnone | ⟨c, stocked⟩ := ready.started quota
  · have hinterpreting : (x.started quota).cache = none := interpreting
    exact turns_concur_of_cache_eq_none regular hinterpreting htwins hnone henough henough
  · exact turns_concur regular htwins stocked interpreting undisturbed henough henough

/-- A run ends where the other one does. -/
theorem Concur.exists_ok {horizon : Nat} {r r' : Except (Crash × η) (RunExit × Machine × η)}
    (concur : Concur allows handler horizon r r') {exit : RunExit}
    (ends : r'.toOption.map (·.1) = some exit) :
  ∃ m' x' h', r = .ok (exit, m', h') ∧ Twins allows m' x'
  := by
  cases concur with
  | ok twins =>
    obtain rfl := Option.some.inj ends
    exact ⟨_, _, _, rfl, twins⟩
  | crash => cases ends

/-- The code cache, if there is one, is of at most two gigabytes and has no live blocks. -/
def HasEmptyCache (m : Machine) : Prop :=
  ∀ c, m.cache = some c → (∀ id, c.block? id = none) ∧
    ∃ size eviction services platform c₀, size ≤ 0x80000000 ∧ services.Distinct ∧
      CodeCache.create size eviction services platform = .ok (some c₀) ∧
      CodeCache.Runs CodeCache.Admits c₀ c

theorem HasEmptyCache.ready (empty : m.HasEmptyCache) :
  m.Ready allows
  := by
  cases hcache : m.cache with
  | none => exact .inl hcache
  | some c =>
    obtain ⟨hempty, size, eviction, services, platform, c₀, small, distinct, created, runs⟩ :=
      empty c hcache
    exact .inr ⟨c, stocked_of_empty small distinct created runs hcache hempty⟩

/-- Two runs one after the other, of which the first used up its quota, lead to what one run with the
sum of the quotas leads to, with an empty code cache or without one: they end in the same way, with
the same guest and the same state of the handler.  They crash only if the handler crashes or the count
of instructions comes to its end, and then alike. -/
theorem run_in_parts (regular : Handler.IsRegular allows handler)
    (plain : m.guest.memory.Plain allows) (empty : m.HasEmptyCache) {a b : Nat}
    (small : a + b ≤ maxBudget) (first : run handler m h (some a) = .ok (.quotaExhausted, m₁, h₁))
    (undisturbed : Undisturbed handler (m.started (some a)) h)
    (undisturbed₁ : Undisturbed handler (m₁.started (some b)) h₁)
    (undisturbed₂ : Undisturbed handler (m.started (some (a + b))) h) :
  (∃ exit m₂ m' h', run handler m₁ h₁ (some b) = .ok (exit, m₂, h') ∧
    run handler m h (some (a + b)) = .ok (exit, m', h') ∧ m₂.guest.Same m'.guest) ∨
  ∃ crash h', run handler m₁ h₁ (some b) = .error (crash, h') ∧
    run handler m h (some (a + b)) = .error (crash, h') ∧
    ((∃ call memory, memory.Plain allows ∧ handler call h' memory = .error crash) ∨
      crash = .overflow ∧ Word.count ≤ m.guest.hart.retired.toNat + (a + b))
  := by
  have hready : m.Ready allows := empty.ready
  have hbudget : budgetOf (some (a + b)) = a + b := Nat.min_eq_left small
  -- All runs are compared with those of a machine with the same guest that interprets.
  obtain ⟨x, hsame, hplain, hinterpreting⟩ :
      ∃ x : Machine, m.guest.Same x.guest ∧ x.guest.memory.Plain allows ∧ x.cache = none :=
    ⟨{ m with cache := none }, ⟨rfl, rfl, rfl, rfl, rfl⟩, plain, rfl⟩
  have htwins := (twins_started plain hplain hsame (some a)).self
  have hready₁ := (hready.started (some a)).of_exhausted regular htwins undisturbed first
  have hpart := hready.run_concur regular plain hplain hsame hinterpreting h (some a) undisturbed
  have hwhole :=
    hready.run_concur regular plain hplain hsame hinterpreting h (some (a + b)) undisturbed₂
  rw [first] at hpart
  generalize hx : run handler x h (some a) = r at hpart
  cases hpart with
  | ok twins =>
    obtain ⟨hadd, hinterpreting₁⟩ := run_add_of_exhausted regular hinterpreting hplain small hx
    have hrest := hready₁.run_concur regular twins.plain twins.other.plain twins.same hinterpreting₁ h₁
      (some b) undisturbed₁
    rw [hadd, hbudget] at hwhole
    generalize run handler m₁ h₁ (some b) = y at hrest ⊢
    generalize run handler m h (some (a + b)) = z at hwhole ⊢
    generalize run handler _ h₁ (some b) = u at hrest hwhole
    cases hrest with
    | ok twins₂ =>
      cases hwhole with
      | ok twins' => exact .inl ⟨_, _, _, _, rfl, rfl, twins₂.same.join twins'.same⟩
    | crash =>
      cases hwhole with
      | crash fails => exact .inr ⟨_, _, rfl, rfl, fails⟩

/-- A guest with a program in page 0 that asks to exit with status 42. -/
def quitting : Guest where
  memory :=
    { space :=
        ⟨Bytes.overwrite (Bytes.zeros 0x1000) 0
          [0x13, 0x05, 0xa0, 0x02, 0x93, 0x08, 0xd0, 0x05, 0x73, 0x00, 0x00, 0x00], 0, []⟩
      policy := .ofFun lowCode }

/-- A compiled run of three instructions, and the same in two parts. -/
theorem run_in_parts_to_exit :
  ∃ c m₁ m₂ m' k₁ k, CodeCache.create 0x10000 .fifo .standard = .ok (some c) ∧
    run Userland.Kernel.handle { guest := quitting, cache := some c, config := {} }
      ⟨0, 0, 0, .standard⟩ (some 1) = .ok (.quotaExhausted, m₁, k₁) ∧
    run Userland.Kernel.handle m₁ k₁ (some 2) = .ok (.exit 42, m₂, k) ∧
    run Userland.Kernel.handle { guest := quitting, cache := some c, config := {} }
      ⟨0, 0, 0, .standard⟩ (some 3) = .ok (.exit 42, m', k) ∧
    m₂.guest.Same m'.guest
  := by
  obtain ⟨c, created⟩ :=
    CodeCache.exists_create (by decide : Platform.standard.Affords 0x10000) .fifo .standard
  have hempty (id : Nat) : c.block? id = none := by
    rw [CodeCache.block?, (CodeCache.created_of_create created).table]
    simp [Table.block?]
  have hplain : quitting.memory.Plain lowCode := by
    refine Memory.plain_unused (fun _ _ => rfl) rfl rfl ?_
    rw [Bytes.size_overwrite, Bytes.size_zeros]
    rfl
  have hregular : Handler.IsRegular lowCode Userland.Kernel.handle :=
    Userland.Kernel.isRegular_handle
  let m : Machine := { guest := quitting, cache := some c, config := {} }
  let x : Machine := { guest := quitting, cache := none, config := {} }
  have hcache : m.HasEmptyCache := by
    rintro _ ⟨⟩
    exact ⟨hempty, 0x10000, .fifo, .standard, .standard, c, by decide, by decide, created, .refl⟩
  have hstocked (quota : Option Nat) : (m.started quota).Stocked lowCode c :=
    stocked_of_empty (by decide) (by decide) created .refl rfl hempty
  have htwins (quota : Option Nat) : Twins lowCode (m.started quota) (m.started quota) :=
    twins_started hplain hplain ⟨rfl, rfl, rfl, rfl, rfl⟩ quota
  have hundisturbed (k : Userland.Kernel) (quota : Option Nat) :
      Undisturbed Userland.Kernel.handle (m.started quota) k :=
    undisturbed_of_exclusive exclusive_lowCode hregular (htwins quota) (hstocked quota)
  have hconcur (quota : Option Nat) :=
    hcache.ready.run_concur (x := x) hregular hplain hplain ⟨rfl, rfl, rfl, rfl, rfl⟩ rfl
      ⟨0, 0, 0, .standard⟩ quota (hundisturbed _ quota)
  have hstopped : (run Userland.Kernel.handle x ⟨0, 0, 0, .standard⟩ (some 1)).toOption.map (·.1) =
      some .quotaExhausted := by decide +kernel
  have hexit : (run Userland.Kernel.handle x ⟨0, 0, 0, .standard⟩ (some 3)).toOption.map (·.1) =
      some (.exit 42) := by decide +kernel
  obtain ⟨m₁, x₁, k₁, hm₁, twins⟩ := (hconcur (some 1)).exists_ok hstopped
  obtain ⟨m', x', k, hm', -⟩ := (hconcur (some 3)).exists_ok hexit
  obtain ⟨c₁, hstocked₁⟩ :=
    stocked_of_exhausted hregular (htwins (some 1)) (hstocked (some 1)) (hundisturbed _ _) hm₁
  have hundisturbed₁ : Undisturbed Userland.Kernel.handle (m₁.started (some 2)) k₁ :=
    undisturbed_of_exclusive exclusive_lowCode hregular
      (twins_started twins.plain twins.plain ⟨rfl, rfl, rfl, rfl, rfl⟩ (some 2))
      (hstocked₁.started (some 2))
  obtain ⟨exit, m₂, m'', k', hrest, hm'', hsame⟩ | ⟨crash, k', -, hm'', -⟩ :=
    run_in_parts (b := 2) hregular hplain hcache (by decide) hm₁ (hundisturbed _ _) hundisturbed₁
      (hundisturbed _ _)
  · obtain ⟨⟩ := hm'.symm.trans hm''
    exact ⟨c, m₁, m₂, m', k₁, k, created, hm₁, hrest, hm', hsame⟩
  · cases hm'.symm.trans hm''

end Machine

end CrossHart
