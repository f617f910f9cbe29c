import CrossHart.Machine.Run
import CrossHart.Proofs.Hart.Steps
import CrossHart.Proofs.Memory.Fetch

/-!
# Interpretation in lockstep

Single steps through instructions that memory holds are what a machine does that interprets one
instruction after the other.  The harts differ in when they count instructions: compiled code counts
those of a whole run at its end.
-/

namespace CrossHart

open CrossHart.Action Isa

variable {allows : Memory.Query → Bool}

/-! ### Counting instructions -/

/-- The instructions counted so far and those charged to the run since. -/
def Hart.total (h : Hart) : Nat :=
  h.retired.toNat + (h.budgetStart.toNat - h.budget.toNat)

/-- The hart `k` counts each instruction when it is carried out, the hart `h` those of a run of
compiled code at the end of the run.  Apart from that and from the exception left by a service they
are the same. -/
structure Hart.Counts (h k : Hart) : Prop where
  regs : k.regs = h.regs
  reservation : k.reservation = h.reservation
  budget : k.budget = h.budget
  instret : k.instret = h.instret
  level : k.budgetStart = k.budget
  spent : h.budget.toNat ≤ h.budgetStart.toNat
  signed : h.budgetStart.toNat < 2 ^ 63
  room : h.total < Word.count

theorem Word.signedDiff_one {w : Word} (pos : 0 < w.toNat) (signed : w.toNat < 2 ^ 63) :
  Word.signedDiff w 1 = .ok (w - 1)
  := by
  have hnat : (w - 1).toNat = w.toNat - 1 := by
    rw [BitVec.toNat_sub, show (1 : Word).toNat = 1 from rfl]
    omega
  apply if_pos
  rw [BitVec.toInt_eq_toNat_of_lt (by omega), hnat, show (1 : Word).toInt = 1 from rfl,
    BitVec.toInt_eq_toNat_of_lt (by omega)]
  omega

namespace Machine

/-- An instruction outside compiled code is counted at once. -/
theorem retireOne_eq {h : Hart} (left : 0 < h.budget.toNat) (signed : h.budget.toNat < 2 ^ 63)
    (room : h.retired.toNat + 1 < Word.count) :
  retireOne h = .ok { h with
    retired := h.retired + 1, budget := h.budget - 1, budgetStart := h.budget - 1 }
  := by
  have hsum : Word.sum h.retired 1 = .ok (h.retired + 1) := if_pos room
  unfold retireOne
  rw [hsum, Word.signedDiff_one left signed]
  rfl

theorem retireOne_of_full {h : Hart} (full : Word.count ≤ h.retired.toNat + 1) :
  retireOne h = .error .overflow
  := by
  have hsum : Word.sum h.retired 1 = .error .overflow := if_neg (Nat.not_lt.mpr full)
  unfold retireOne
  rw [hsum]
  rfl

end Machine

namespace Hart

theorem isFullCongruence_counts :
  IsFullCongruence Counts
  := by
  constructor
  · refine ⟨⟨?_, ?_, ?_, ?_⟩, ?_⟩
    · intro h k hk
      rw [hk.regs]
    · intro h k x hk
      refine ⟨?_, hk.reservation, hk.budget, hk.instret, hk.level, hk.spent, hk.signed, hk.room⟩
      rw [withFile, withFile, hk.regs]
    · intro h k hk
      exact hk.reservation.symm
    · intro h k addr hk
      exact ⟨hk.regs, rfl, hk.budget, hk.instret, hk.level, hk.spent, hk.signed, hk.room⟩
    · intro h k hk
      exact hk.instret.symm
  · intro h k pc hk
    refine ⟨?_, hk.reservation, hk.budget, hk.instret, hk.level, hk.spent, hk.signed, hk.room⟩
    rw [hk.regs]

namespace Counts

variable {h k : Hart}

/-- The instructions counted at once are those counted so far and those of the run. -/
theorem toNat_retired (hk : Counts h k) :
  k.retired.toNat = h.total
  := by
  obtain ⟨-, -, -, hinstret, hlevel, hspent, hsigned, hroom⟩ := hk
  unfold Hart.instret at hinstret
  rw [hlevel, BitVec.sub_self, BitVec.add_zero] at hinstret
  rw [total, Word.count] at hroom
  rw [hinstret, BitVec.toNat_add, BitVec.toNat_sub, total]
  omega

/-- An instruction is counted at once by one hart, and charged to the run by the other. -/
theorem retireOne (hk : Counts h k) (left : 0 < h.budget.toNat)
    (room : h.total + 1 < Word.count) :
  ∃ k', Machine.retireOne k = .ok k' ∧ Counts { h with budget := h.budget - 1 } k'
  := by
  have hretired := hk.toNat_retired
  obtain ⟨hregs, hreservation, hbudget, hinstret, hlevel, hspent, hsigned, -⟩ := hk
  have hnat : (h.budget - 1).toNat = h.budget.toNat - 1 := by
    rw [BitVec.toNat_sub, show (1 : Word).toNat = 1 from rfl]
    omega
  refine ⟨{ k with retired := k.retired + 1, budget := k.budget - 1, budgetStart := k.budget - 1 },
    ?_, hregs, hreservation, ?_, ?_, rfl, ?_, hsigned, ?_⟩
  · apply Machine.retireOne_eq
    · rw [hbudget]
      exact left
    · rw [hbudget]
      omega
    · omega
  · rw [hbudget]
  · unfold Hart.instret at hinstret ⊢
    dsimp only
    rw [hlevel, BitVec.sub_self, BitVec.add_zero] at hinstret
    rw [BitVec.sub_self, BitVec.add_zero, hinstret]
    apply BitVec.eq_of_toNat_eq
    simp only [BitVec.toNat_add, BitVec.toNat_sub]
    have hb := h.budget.isLt
    have hs := h.budgetStart.isLt
    have hr := h.retired.isLt
    rw [show (1 : Word).toNat = 1 from rfl] at *
    omega
  · dsimp only
    omega
  · unfold total at room ⊢
    dsimp only
    omega

/-- An instruction that has no number is not counted. -/
theorem retireOne_overflow (hk : Counts h k) (full : Word.count ≤ h.total + 1) :
  Machine.retireOne k = .error .overflow
  := by
  apply Machine.retireOne_of_full
  rw [hk.toNat_retired]
  exact full

end Counts

section

variable {h : Hart} (spent : h.budget.toNat ≤ h.budgetStart.toNat)
  (signed : h.budgetStart.toNat < 2 ^ 63)

include spent

theorem toNat_ran :
  (h.budgetStart - h.budget).toNat = h.budgetStart.toNat - h.budget.toNat
  := by
  rw [BitVec.toNat_sub]
  omega

include signed

/-- The instructions of a run have a number. -/
theorem signedDiff_ran :
  Word.signedDiff h.budgetStart h.budget = .ok (h.budgetStart - h.budget)
  := by
  have hnat := toNat_ran spent
  refine if_pos ?_
  rw [BitVec.toInt_eq_toNat_of_lt (by omega), hnat, BitVec.toInt_eq_toNat_of_lt (by omega),
    BitVec.toInt_eq_toNat_of_lt (by omega)]
  omega

/-- The instructions of a run are counted if their count has a number. -/
theorem retireRun_eq (room : h.total < Word.count) :
  Machine.retireRun h = .ok { h with
    retired := h.retired + (h.budgetStart - h.budget), budgetStart := h.budget }
  := by
  have hsum : Word.sum h.retired (h.budgetStart - h.budget) =
      .ok (h.retired + (h.budgetStart - h.budget)) := by
    refine if_pos ?_
    rw [toNat_ran spent]
    exact room
  unfold Machine.retireRun
  rw [signedDiff_ran spent signed, Except.ok_bind, hsum]
  rfl

/-- The instructions of a run are not counted if their count has no number. -/
theorem retireRun_overflow (full : Word.count ≤ h.total) :
  Machine.retireRun h = .error .overflow
  := by
  have hsum : Word.sum h.retired (h.budgetStart - h.budget) = .error .overflow := by
    refine if_neg ?_
    rw [toNat_ran spent]
    rw [total] at full
    omega
  unfold Machine.retireRun
  rw [signedDiff_ran spent signed, Except.ok_bind, hsum]
  rfl

end

/-- The instructions of a run are counted at its end. -/
theorem Counts.retireRun {h k : Hart} (hk : Counts h k) :
  ∃ h', Machine.retireRun h = .ok h' ∧ Counts h' k ∧ h'.budgetStart = h'.budget ∧
    h'.budget = h.budget ∧ h'.cause = h.cause ∧ h'.tval = h.tval
  := by
  obtain ⟨hregs, hreservation, hbudget, hinstret, hlevel, hspent, hsigned, hroom⟩ := hk
  have hnat := toNat_ran hspent
  refine ⟨{ h with retired := h.retired + (h.budgetStart - h.budget), budgetStart := h.budget },
    retireRun_eq hspent hsigned hroom,
    ⟨hregs, hreservation, hbudget, ?_, hlevel, Nat.le_refl _, ?_, ?_⟩, rfl, rfl, rfl, rfl⟩
  · rw [hinstret]
    unfold Hart.instret
    dsimp only
    rw [BitVec.sub_self, BitVec.add_zero]
  · dsimp only
    omega
  · unfold total at hroom ⊢
    dsimp only
    rw [BitVec.toNat_add, hnat]
    omega

end Hart

/-! ### One interpreted instruction -/

namespace Hart

theorem total_charged {g : Guest} (spent : g.hart.budget.toNat ≤ g.hart.budgetStart.toNat)
    (left : 0 < g.hart.budget.toNat) :
  g.charged.hart.total = g.hart.total + 1
  := by
  have hnat : (g.hart.budget - 1).toNat = g.hart.budget.toNat - 1 := by
    rw [BitVec.toNat_sub, show (1 : Word).toNat = 1 from rfl]
    omega
  change g.hart.retired.toNat + (g.hart.budgetStart.toNat - (g.hart.budget - 1).toNat) = _
  rw [hnat, total]
  omega

/-- Whether an instruction that ended in some way counts as carried out. -/
def charges : Except Exception StepExit → Bool
  | .ok _ => true
  | .error e => e.cause = .breakpoint

/-- The guest after an instruction that ended in some way. -/
def settle (r : Except Exception StepExit) (g : Guest) : Guest :=
  if charges r then g.charged else g

@[simp]
theorem settle_continue (g : Guest) :
  settle (.ok .continue) g = g.charged
  := rfl

theorem steps_cons (d : Located) (ds : List Located) {g g' : Guest} {r : Except Exception StepExit}
    (h : (step d).on g = .ok (r, g')) :
  steps (d :: ds) g = if r = .ok .continue then steps ds (settle r g') else .ok (r, settle r g')
  := by
  rw [steps, h]
  cases r with
  | ok exit => cases exit <;> rfl
  | error e =>
    rw [if_neg (by simp), settle, charges]
    simp only [decide_eq_true_eq]

end Hart

namespace Machine

variable {η : Type} (handler : Handler η)

/-- What is left to do when instructions ended in some way and were counted. -/
def finish (r : Except Exception Hart.StepExit) (m : Machine) (h : η) : Except Crash (Turn η) :=
  match r with
  | .ok .continue => .ok (none, m, h)
  | .ok .fenceI => .ok (none, m.flushCode, h)
  | .ok .ecall => ecall handler m.guest.hart.regs.pc m h
  | .error e => .ok (some (.exception e m.guest.hart.regs.pc), m, h)

/-- The machine after an interpreted instruction. -/
def interpretedTo (m : Machine) (guest : Guest) : Machine :=
  { m with guest, interpreted := m.interpreted + 1 }

theorem retireOne_regs {h h' : Hart} (on : retireOne h = .ok h') :
  h'.regs = h.regs
  := by
  obtain ⟨_, -, on⟩ := Except.bind_eq_ok.mp on
  obtain ⟨_, -, on⟩ := Except.bind_eq_ok.mp on
  cases on
  rfl

/-- An interpreted instruction is read, carried out and counted. -/
theorem interpretOne_eq {m : Machine} {h : η} {d : Located} {memory : Memory}
    {r : Except Exception Hart.StepExit} {g : Guest}
    (read : (Block.readInstr Memory.fetch m.guest.hart.regs.pc).on m.guest.memory =
      .ok (.ok d, memory))
    (step : (Hart.step d).on ⟨m.guest.hart, memory⟩ = .ok (r, g)) :
  interpretOne handler m h = (if Hart.charges r then retireOne g.hart else .ok g.hart) >>= fun hart =>
    finish handler r (m.interpretedTo ⟨hart, g.memory⟩) h
  := by
  obtain ⟨⟨hart, memory₀⟩, cache, config, failures, entries, interpreted⟩ := m
  obtain ⟨hart', memory'⟩ := g
  unfold interpretOne
  dsimp only at read step ⊢
  rw [read, Except.ok_bind]
  dsimp only
  rw [step, Except.ok_bind]
  dsimp only
  have hcharges (exit : Hart.StepExit) : Hart.charges (.ok exit) = true := rfl
  match r with
  | .ok .continue =>
    rw [if_pos (hcharges _)]
    rfl
  | .ok .fenceI =>
    rw [if_pos (hcharges _)]
    rfl
  | .ok .ecall =>
    cases Hart.eq_of_step_ecall step
    dsimp only
    rw [if_pos (hcharges _)]
    cases hretired : retireOne hart with
    | error c => rw [Except.error_bind, Except.error_bind]
    | ok hart'' =>
      rw [Except.ok_bind, Except.ok_bind]
      change ecall handler hart.regs.pc _ h = ecall handler hart''.regs.pc _ h
      rw [retireOne_regs hretired]
      rfl
  | .error e =>
    have hpc : hart'.regs.pc = hart.regs.pc := Hart.pc_of_step_error step
    dsimp only
    split
    case isTrue hbreak =>
      have hcharges : Hart.charges (.error e) = true := decide_eq_true hbreak
      rw [if_pos hcharges]
      cases hretired : retireOne hart' with
      | error c => rw [Except.error_bind, Except.error_bind]
      | ok hart'' =>
        rw [Except.ok_bind, Except.ok_bind, ← hpc, ← retireOne_regs hretired]
        rfl
    case isFalse hfault =>
      have hcharges : ¬Hart.charges (.error e) = true := fun h => hfault (of_decide_eq_true h)
      rw [if_neg hcharges, Except.ok_bind, ← hpc]
      rfl

/-! ### Interpreted instructions that memory holds -/

/-- Interpreting one instruction after the other, as long as the budget lasts and the run goes on. -/
inductive Interprets (m : Machine) (h : η) : Nat → Machine → η → Prop
  | zero : Interprets m h 0 m h
  | succ {n : Nat} {m₁ m₂ : Machine} {h₁ h₂ : η} (earlier : Interprets m h n m₁ h₁)
      (left : 0 < m₁.guest.hart.budget.toInt)
      (on : interpretOne handler m₁ h₁ = .ok (none, m₂, h₂)) : Interprets m h (n + 1) m₂ h₂

end Machine

/-- Guests that differ in when they count instructions, and in what cannot be seen of memory. -/
abbrev Guest.Alike (allows : Memory.Query → Bool) : Guest → Guest → Prop :=
  Guest.Rel Hart.Counts (Memory.Alike allows)

namespace Memory

/-- Memory with the same address space is plain if it is honest. -/
theorem Alike.plain {m m' : Memory} (alike : Memory.Alike allows m m') (plain : m.Plain allows) :
  m'.Plain allows
  := by
  refine ⟨⟨alike.right, ?_⟩, ?_⟩
  · rw [← alike.space]
    exact plain.whole
  · rw [← alike.space]
    exact plain.bare

theorem Alike.looks {m m' m'' : Memory} (alike : Memory.Alike allows m m')
    (looks : Looks allows m' m'') :
  Memory.Alike allows m m''
  := ⟨alike.left, looks.after.toHonest, alike.space.trans looks.space.symm⟩

end Memory

/-- An instruction that memory holds has registers that exist. -/
theorem Memory.Plain.proper {m : Memory} (plain : m.Plain allows) {d : Located}
    (holds : m.space.Holds allows d) :
  d.instr.IsProper
  := by
  obtain ⟨m', hread⟩ := holds m plain rfl
  exact (Block.isDecoded_of_readInstr hread).1.proper

namespace Machine

variable {η : Type} {handler : Handler η}

/-- An instruction that memory holds where the program counter points is the one that is
interpreted, unless there is no number left to count it. -/
theorem interpretOne_of_holds (handler : Handler η) (h : η) {g g' : Guest} {m : Machine}
    {d : Located} {r : Except Exception Hart.StepExit} (alike : g.Alike allows m.guest)
    (plain : g.memory.Plain allows) (left : 0 < g.hart.budget.toNat)
    (holds : g.memory.space.Holds allows d) (at_pc : d.pc = g.hart.regs.pc)
    (step : (Hart.step d).on g = .ok (r, g')) :
  (∃ m', interpretOne handler m h = finish handler r m' h ∧
    (Hart.settle r g').Alike allows m'.guest ∧ m'.cache = m.cache) ∨
  Word.count ≤ (Hart.settle r g').hart.total ∧ interpretOne handler m h = .error .overflow
  := by
  have hplain := alike.2.plain plain
  obtain ⟨memory, hread⟩ := holds m.guest.memory hplain alike.2.space.symm
  have hproper := (Block.isDecoded_of_readInstr hread).1.proper
  have hlooks := (Memory.stays_readInstr d.pc _ hplain.looks).post_of_eq hread
  have halike : g.Alike allows ⟨m.guest.hart, memory⟩ := ⟨alike.1, alike.2.looks hlooks⟩
  have hevolves := (Hart.stays_step hproper g (Guest.evolves_self plain)).post_of_eq step
  have hmatches := Hart.respects_step Hart.isFullCongruence_counts
    (Memory.isCongruence_alike allows) d g _ halike
  rw [step] at hmatches
  obtain ⟨c, hc, -⟩ | ⟨r', s, t, hs, ht, hst⟩ := hmatches.elim
  · cases hc
  · cases hs
    have hpc : m.guest.hart.regs.pc = d.pc := by
      rw [at_pc, alike.1.regs]
    rw [← hpc] at hread
    rw [interpretOne_eq handler hread ht]
    unfold Hart.settle
    split
    case isTrue =>
      have hleft : 0 < g'.hart.budget.toNat := by
        rw [hevolves.budget]
        exact left
      rw [Hart.total_charged hst.1.spent hleft]
      by_cases hroom : g'.hart.total + 1 < Word.count
      · obtain ⟨k', hk', hcounts⟩ := hst.1.retireOne hleft hroom
        refine .inl ⟨m.interpretedTo ⟨k', t.memory⟩, ?_, ⟨hcounts, hst.2⟩, rfl⟩
        rw [hk', Except.ok_bind]
      · refine .inr ⟨by omega, ?_⟩
        rw [hst.1.retireOne_overflow (by omega), Except.error_bind]
    case isFalse => exact .inl ⟨m.interpretedTo ⟨t.hart, t.memory⟩, rfl, hst, rfl⟩

namespace Interprets

variable {m m₁ m₂ : Machine} {h h₁ h₂ : η} {n : Nat}

/-- Interpreting one instruction before others. -/
theorem head (left : 0 < m.guest.hart.budget.toInt)
    (on : interpretOne handler m h = .ok (none, m₁, h₁)) (rest : Interprets handler m₁ h₁ n m₂ h₂) :
  Interprets handler m h (n + 1) m₂ h₂
  := by
  induction rest with
  | zero => exact .succ .zero left on
  | succ _ left' on' ih => exact .succ ih left' on'

end Interprets

theorem toInt_pos {b : Word} (pos : 0 < b.toNat) (signed : b.toNat < 2 ^ 63) :
  0 < b.toInt
  := by
  rw [BitVec.toInt_eq_toNat_of_lt (by omega)]
  omega

/-- The budget of guests that are alike is one and the same, and a signed word. -/
theorem budget_pos {g k : Guest} (alike : g.Alike allows k) (left : 0 < g.hart.budget.toNat) :
  0 < k.hart.budget.toInt
  := by
  have hsigned := Nat.lt_of_le_of_lt alike.1.spent alike.1.signed
  rw [alike.1.budget]
  exact toInt_pos left hsigned

/-- What a step leaves of the budget. -/
theorem toNat_budget_charged {g g' : Guest} (same : g'.hart.budget = g.hart.budget)
    (left : 0 < g.hart.budget.toNat) :
  g'.charged.hart.budget.toNat + 1 = g.hart.budget.toNat
  := by
  have hcharged : g'.charged.hart.budget = g.hart.budget - 1 := by
    rw [← same]
    rfl
  rw [hcharged, BitVec.toNat_sub, show (1 : Word).toNat = 1 from rfl]
  omega

/-- What steps leave of the budget that covers them. -/
theorem budget_of_steps {ds : List Located} {g g' : Guest} {r : Except Exception Hart.StepExit}
    (plain : g.memory.Plain allows) (proper : ∀ d ∈ ds, d.instr.IsProper)
    (covered : ds.length ≤ g.hart.budget.toNat) (steps : Hart.steps ds g = .ok (r, g')) :
  g'.hart.budget.toNat ≤ g.hart.budget.toNat ∧ g.hart.total ≤ g'.hart.total
  := by
  have hmeets : Meets True (Hart.steps ds g) _ := Hart.steps_meets plain proper
  obtain ⟨-, hstart, hretired, k, hk, hbudget, -⟩ := hmeets.post_of_eq steps
  have hle : g'.hart.budget.toNat ≤ g.hart.budget.toNat := by
    rw [hbudget, BitVec.toNat_sub, BitVec.toNat_ofNat]
    omega
  unfold Hart.total
  rw [hstart, hretired]
  omega

/-- An instruction is in memory where the program counter points, as long as there are numbers left
to count it. -/
def Found (allows : Memory.Query → Bool) (g : Guest) (d : Located) : Prop :=
  g.hart.total < Word.count → g.memory.space.Holds allows d ∧ d.pc = g.hart.regs.pc

/-- Steps through instructions that are found are interpreted, all but the last before the way in
which they ended matters. -/
theorem interprets_steps {ds : List Located} (ne : ds ≠ []) {g g' : Guest} {m : Machine} {h : η}
    {r : Except Exception Hart.StepExit} (alike : g.Alike allows m.guest)
    (plain : g.memory.Plain allows) (covered : ds.length ≤ g.hart.budget.toNat)
    (proper : ∀ d ∈ ds, d.instr.IsProper) (along : Hart.Along (Found allows) ds g)
    (steps : Hart.steps ds g = .ok (r, g')) :
  ∃ n m₁, Interprets handler m h n m₁ h ∧ 0 < m₁.guest.hart.budget.toInt ∧
    ((∃ m₂, interpretOne handler m₁ h = finish handler r m₂ h ∧ g'.Alike allows m₂.guest ∧
      (Hart.charges r → n + 1 + g'.hart.budget.toNat = g.hart.budget.toNat)) ∨
    Word.count ≤ g'.hart.total ∧ interpretOne handler m₁ h = .error .overflow)
  := by
  induction ds generalizing g m with
  | nil => exact absurd rfl ne
  | cons d ds ih =>
    obtain ⟨hd, hds⟩ := List.forall_mem_cons.mp proper
    rw [List.length_cons] at covered
    have hleft : 0 < g.hart.budget.toNat := by omega
    obtain ⟨hfound, hrest⟩ := along
    obtain ⟨hholds, hpc⟩ := hfound alike.1.room
    obtain ⟨⟨r₁, g₁⟩, hstep, hevolves⟩ :=
      (Hart.stays_step hd g (Guest.evolves_self plain)).exists_ok trivial
    dsimp only at hevolves
    have hspent := toNat_budget_charged hevolves.budget hleft
    have hone := interpretOne_of_holds handler h alike plain hleft hholds hpc hstep
    rw [Hart.steps_cons d ds hstep] at steps
    split at steps
    case isTrue hcontinue =>
      subst hcontinue
      rw [Hart.settle_continue] at hone steps
      have hplain : g₁.charged.memory.Plain allows := hevolves.memory.after
      obtain ⟨m', hinterpret, halike, -⟩ | ⟨hfull, hinterpret⟩ := hone
      · cases ds with
        | nil =>
          cases steps
          exact ⟨0, m, .zero, budget_pos alike hleft, .inl ⟨m', hinterpret, halike, fun _ => by omega⟩⟩
        | cons d' ds =>
          obtain ⟨n, m₁, hrun, hleft', hways⟩ := ih (List.cons_ne_nil _ _) halike hplain (by omega)
            hds (hrest g₁ hstep) steps
          refine ⟨n + 1, m₁, hrun.head (budget_pos alike hleft) hinterpret, hleft', ?_⟩
          obtain ⟨m₂, hlast, halike', hbudget⟩ | hoverflow := hways
          · exact .inl ⟨m₂, hlast, halike', fun hr => by have := hbudget hr; omega⟩
          · exact .inr hoverflow
      · obtain ⟨-, htotal⟩ := budget_of_steps hplain hds (by omega) steps
        exact ⟨0, m, .zero, budget_pos alike hleft, .inr ⟨by omega, hinterpret⟩⟩
    case isFalse =>
      cases steps
      refine ⟨0, m, .zero, budget_pos alike hleft, ?_⟩
      obtain ⟨m', hinterpret, halike, -⟩ | hoverflow := hone
      · refine .inl ⟨m', hinterpret, halike, fun hr => ?_⟩
        rw [Hart.settle, if_pos hr]
        omega
      · exact .inr hoverflow

/-- Where no numbers are left to count instructions, nothing is asked for. -/
theorem along_found_of_full {ds : List Located} {g : Guest} (plain : g.memory.Plain allows)
    (proper : ∀ d ∈ ds, d.instr.IsProper) (covered : ds.length ≤ g.hart.budget.toNat)
    (spent : g.hart.budget.toNat ≤ g.hart.budgetStart.toNat) (full : Word.count ≤ g.hart.total) :
  Hart.Along (Found allows) ds g
  := by
  induction ds generalizing g with
  | nil => trivial
  | cons d ds ih =>
    obtain ⟨hd, hds⟩ := List.forall_mem_cons.mp proper
    rw [List.length_cons] at covered
    refine ⟨fun hroom => absurd hroom (by omega), fun g₁ hstep => ?_⟩
    have hevolves := (Hart.stays_step hd g (Guest.evolves_self plain)).post_of_eq hstep
    dsimp only at hevolves
    have hspent := toNat_budget_charged hevolves.budget (by omega)
    have htotal : g₁.hart.total = g.hart.total := by
      rw [Hart.total, Hart.total, hevolves.budget, hevolves.start, hevolves.retired]
    have hle : g₁.hart.budget.toNat ≤ g₁.hart.budgetStart.toNat := by
      rw [hevolves.budget, hevolves.start]
      exact spent
    have hstart : g₁.charged.hart.budgetStart = g.hart.budgetStart := hevolves.start
    refine ih hevolves.memory.after hds (by omega) ?_ ?_
    · rw [hstart]
      omega
    · rw [Hart.total_charged hle, htotal]
      · omega
      · rw [hevolves.budget]
        omega

/-- As long as interpreting instructions leaves the bytes of some instructions as they are, steps
through these find them in memory. -/
theorem along_found {ds : List Located} {g g' : Guest} {m m₁ : Machine} {h : η} {n : Nat}
    {r : Except Exception Hart.StepExit} {S : Word → Prop}
    (start : m.guest.memory.Plain allows) (run : Interprets handler m h n m₁ h)
    (alike : g.Alike allows m₁.guest) (layout : m.guest.memory.space.SameLayout g.memory.space)
    (plain : g.memory.Plain allows) (covered : ds.length ≤ g.hart.budget.toNat)
    (track : Hart.OnTrack ds g)
    (held : ∀ d ∈ ds, m.guest.memory.space.Holds allows d ∧
      ∀ k < d.width, S (d.pc + BitVec.ofNat 64 k))
    (steps : Hart.steps ds g = .ok (r, g'))
    (spared : ∀ n m₂, n + g'.hart.budget.toNat ≤ m.guest.hart.budget.toNat →
      Interprets handler m h n m₂ h → ∀ addr, S addr →
        m₂.guest.memory.space.byteAt addr = m.guest.memory.space.byteAt addr)
    (count : n + g.hart.budget.toNat = m.guest.hart.budget.toNat) :
  Hart.Along (Found allows) ds g
  := by
  induction ds generalizing g m₁ n with
  | nil => trivial
  | cons d ds ih =>
    have hproper : ∀ x ∈ d :: ds, x.instr.IsProper := fun x hx => start.proper (held x hx).1
    obtain ⟨hd, hds⟩ := List.forall_mem_cons.mp hproper
    obtain ⟨⟨hholds, hcovers⟩, hheld⟩ := List.forall_mem_cons.mp held
    obtain ⟨hpc, hrest⟩ := track
    obtain ⟨hle, -⟩ := budget_of_steps plain hproper covered steps
    rw [List.length_cons] at covered
    have hleft : 0 < g.hart.budget.toNat := by omega
    have hholds' : g.memory.space.Holds allows d := by
      refine start.holds_of_holds hholds layout fun k hk => ?_
      rw [alike.2.space]
      exact spared n m₁ (by omega) run _ (hcovers k hk)
    refine ⟨fun _ => ⟨hholds', hpc⟩, fun g₁ hstep => ?_⟩
    have hevolves := (Hart.stays_step hd g (Guest.evolves_self plain)).post_of_eq hstep
    dsimp only at hevolves
    have hspent := toNat_budget_charged hevolves.budget hleft
    have hplain : g₁.charged.memory.Plain allows := hevolves.memory.after
    have hone := interpretOne_of_holds handler h alike plain hleft hholds' hpc hstep
    rw [Hart.settle_continue] at hone
    obtain ⟨m₂, hinterpret, halike, -⟩ | ⟨hfull, -⟩ := hone
    · rw [Hart.steps_cons d ds hstep, if_pos rfl, Hart.settle_continue] at steps
      exact ih (run.succ (budget_pos alike hleft) hinterpret) halike
        (layout.trans hevolves.memory.layout) hplain (by omega) (hrest g₁ hstep) hheld steps
        (by omega)
    · refine along_found_of_full hplain hds (by omega) ?_ hfull
      have hstart : g₁.charged.hart.budgetStart = g.hart.budgetStart := hevolves.start
      have hle' := alike.1.spent
      rw [hstart]
      omega

end Machine

end CrossHart
