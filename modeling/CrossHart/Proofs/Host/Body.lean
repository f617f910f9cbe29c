import CrossHart.Proofs.Formation
import CrossHart.Proofs.Host.Departure
import Mathlib.Algebra.Ring.Int.Defs

/-!
# The code of a block's instructions

The code of the instructions of a block, one after the other, is left as single steps through the
instructions end.
-/

namespace CrossHart.Host

open Isa Assignment Compile Processor Block

variable {env : Environment} {D D' : Draft} {e : Ending} {pc stop : Word} {ds : List Located}
  {count : Nat}

/-- The code of the last instructions of a block of `count` and, if the block stops at the limit, of
the exit behind them. -/
def Compile.straight (s : Services) (count : Nat) (ds : List Located) (e : Ending) (stop : Word) :
    Compile Unit := do
  body s count ds (count - ds.length)
  if e = .limit then
    sync
    exitTo stop

/-- The code from one instruction of a block on ends as single steps do. -/
structure Completes (env : Environment) (e : Ending) (ds : List Located) (pc : Word) (D D' : Draft)
    (code : List Item) : Prop where
  items : D'.items = code.reverse ++ D.items
  faults : ∃ more, D'.faults = more ++ D.faults
  ends : ds.length < 0x80000000 → ∀ p g, env.services.Distinct →
    D.assignment.Represents env p g → g.hart.budget.toInt + ds.length < 2 ^ 63 →
    Ends env e D' code p (Hart.steps ds (g.before ds.length pc))

theorem toInt_add_ofNat {b : Word} {n : Nat} (h : b.toInt + n < 2 ^ 63) :
  (b + BitVec.ofNat 64 n).toInt = b.toInt + n
  := by
  have hge := b.le_toInt
  rw [BitVec.toInt_add, BitVec.toInt_ofNat', Int.add_bmod_bmod, Int.bmod_eq_of_le (by omega) (by omega)]

theorem ofInstr_ne_limit {i : Isa.Instr} (h : i.endsBlock = true) :
  Ending.ofInstr i ≠ .limit
  := by
  cases i <;> cases h <;> exact Ending.noConfusion

theorem unretired_eq {n : Nat} (le : n ≤ count) (fits : count < 0x100000000) :
  unretired count (count - n) = .ok n
  := by
  rw [unretired, Nat.mod_eq_of_lt fits, Nat.mod_eq_of_lt (Nat.lt_of_le_of_lt (Nat.sub_le _ _) fits),
    if_pos (Nat.sub_le _ _), Nat.sub_sub_self le]

/-- Code starts with that of the first instruction, for which no register is in use yet. -/
theorem on_straight_cons (s : Services) (d : Located) (lt : ds.length < count) (e : Ending)
    (stop : Word) (D : Draft) :
  (straight s count (d :: ds) e stop).on D =
    (located s (unretired count (count - (ds.length + 1))) d >>= fun _ =>
      straight s count ds e stop).on (D.assigned D.assignment.beginInstr)
  := by
  have hnext : count - (ds.length + 1) + 1 = count - ds.length := by omega
  unfold straight
  rw [List.length_cons, body, bind_assoc, bind_assoc, hnext]
  rfl

variable (env count) in
/-- The exit at the limit. -/
theorem completes_nil (wf : D.assignment.WellFormed) (counted : D.exits.length = D.exitCount)
    (stop : Word) :
  ∃ D' code, (straight env.services count [] .limit stop).on D = (.ok (), D') ∧
    Completes env .limit [] stop D D' code
  := by
  have hsync (g : Guest) : Computes env D.assignment (Holds env D.assignment g []) sync
      (fun _ b => b.Clean) (fun _ b => Holds env b g []) := by
    refine (Computes.sync wf).imp (fun _ h => h) ?_ fun _ _ _ _ h => h
    rintro _ _ rfl
    exact wf.clean_sync
  obtain ⟨D', code, hon, hcloses, hdeparts⟩ := closes_exitTo stop id hsync counted
  refine ⟨D', code, hon, hcloses.items, ⟨[], hcloses.faults.1⟩, ?_⟩
  intro _ p g hdistinct hrep _
  rw [List.length_nil, Guest.before_zero]
  exact hdeparts p g hdistinct hrep

variable (env) in
/-- An instruction that ends the block. -/
theorem completes_last {d : Located} (pos : 0 < count) (ends : d.instr.endsBlock = true)
    (decoded : d.IsDecoded) (wf : D.assignment.WellFormed) (counted : D.exits.length = D.exitCount) (stop : Word) :
  ∃ D' code, (straight env.services count [d] (.ofInstr d.instr) stop).on D = (.ok (), D') ∧
    Completes env (.ofInstr d.instr) [d] d.pc D D' code
  := by
  obtain ⟨D', code, hon, hcloses, hends⟩ := closes_located env
    (D := D.assigned D.assignment.beginInstr) ends decoded.proper wf.beginInstr (pins_beginInstr _)
    counted (unretired count (count - 1))
  refine ⟨D', code, ?_, hcloses.items, ⟨[], hcloses.faults.1⟩, ?_⟩
  · rw [on_straight_cons _ _ pos, List.length_nil, on_bind_ok hon, straight,
      if_neg (ofInstr_ne_limit ends)]
    rfl
  · intro _ p g hdistinct hrep _
    exact hends p g hdistinct hrep.beginInstr

theorem exec_append_of_error {items : List Item} {p : Processor} {c : Crash}
    (h : Item.exec env items p = .error c) (rest : List Item) :
  Item.exec env (items ++ rest) p = .error c
  := by
  rw [Item.exec_append, h]

/-- An instruction in front of others. -/
theorem completes_cons {d : Located} {D₁ : Draft} {code₁ code₂ : List Item}
    (ends : d.instr.endsBlock = false) (counted : D.faults.length = D.faultCount)
    (carries : Carries env (ds.length + 1) d D D₁ code₁)
    (completes : Completes env e ds d.next D₁ D' code₂) :
  Completes env e (d :: ds) d.pc D D' (code₁ ++ code₂)
  := by
  obtain ⟨more, hmore⟩ := completes.faults
  refine ⟨?_, ?_, ?_⟩
  · rw [completes.items, carries.items]
    simp
  · obtain ⟨h, -⟩ | ⟨h, -⟩ := carries.faults
    · exact ⟨more, by rw [hmore, h]⟩
    · exact ⟨more ++ [⟨d.pc, ds.length + 1⟩], by rw [hmore, h]; simp⟩
  · intro small p g hdistinct hrep hcovered
    rw [List.length_cons] at small hcovered ⊢
    have hcarried := carries.runs small p g hdistinct hrep (toInt_add_ofNat hcovered)
    rw [Hart.steps]
    rcases hstep : (Hart.step d).on (g.before (ds.length + 1) d.pc) with c | ⟨x | x, s⟩
    · rw [hstep] at hcarried
      exact exec_append_of_error hcarried code₂
    · rw [hstep] at hcarried
      obtain ⟨q, g', hexec, rfl, -, hguest, hbase, hfaults⟩ := hcarried
      have hfault := Hart.isFault_of_step ends hstep
      rw [Hart.IsFault] at hfault
      dsimp only
      rw [if_neg hfault, Ends, departure, if_neg hfault, observed, if_neg hfault]
      have hraised : Hart.Service.raised x (g'.before (ds.length + 1) d.pc) =
          q.guest.before (ds.length + 1) d.pc := by
        rw [hguest]
        rfl
      rw [hraised]
      refine Departs.fault (k := D.faultCount) (f := ⟨d.pc, ds.length + 1⟩) ?_ ?_ small hbase
      · rw [Item.exec_append, hexec]
      · rw [hmore, hfaults, ← counted]
        simp
    · rw [hstep] at hcarried
      obtain ⟨q, g', hexec, rfl, hbudget, hrep'⟩ := hcarried
      cases Hart.eq_continue_of_step ends hstep
      dsimp only
      rw [Guest.charged_before]
      refine (completes.ends (Nat.lt_of_succ_lt small) q g' hdistinct hrep' ?_).append hexec
      rw [hbudget]
      omega

/-- The code of an instruction that does not end the block, and of those behind it. -/
theorem completes_located {d : Located} (decoded : d.IsDecoded) (ends : d.instr.endsBlock = false)
    (lt : ds.length < count) (fits : count < 0x100000000) (wf : D.assignment.WellFormed)
    (exits : D.exits.length = D.exitCount) (faults : D.faults.length = D.faultCount)
    (rest : ∀ D₁ : Draft, D₁.assignment.WellFormed → D₁.exits.length = D₁.exitCount →
      D₁.faults.length = D₁.faultCount → ∃ D' code,
        (straight env.services count ds e stop).on D₁ = (.ok (), D') ∧
          Completes env e ds d.next D₁ D' code) :
  ∃ D' code, (straight env.services count (d :: ds) e stop).on D = (.ok (), D') ∧
    Completes env e (d :: ds) d.pc D D' code
  := by
  have hlocated : ∃ D₁ code, (located env.services (.ok (ds.length + 1)) d).on
      (D.assigned D.assignment.beginInstr) = (.ok (), D₁) ∧
        Carries env (ds.length + 1) d (D.assigned D.assignment.beginInstr) D₁ code :=
    carries_located ends decoded wf.beginInstr (pins_beginInstr _)
  obtain ⟨D₁, code₁, hon₁, hcarries⟩ := hlocated
  have hexits : D₁.exits.length = D₁.exitCount := by
    rw [hcarries.exits.1, hcarries.exits.2]
    exact exits
  have hfaults : D₁.faults.length = D₁.faultCount := by
    obtain ⟨h, h'⟩ | ⟨h, h'⟩ := hcarries.faults
    · rw [h, h']
      exact faults
    · rw [h, h']
      exact congrArg (· + 1) faults
  obtain ⟨D', code₂, hon₂, hcompletes⟩ := rest D₁ hcarries.wellFormed hexits hfaults
  have h : Completes env e (d :: ds) d.pc (D.assigned D.assignment.beginInstr) D' (code₁ ++ code₂) :=
    completes_cons ends faults hcarries hcompletes
  refine ⟨D', code₁ ++ code₂, ?_, h.items, h.faults, ?_⟩
  · rw [on_straight_cons _ _ lt, unretired_eq lt fits, on_bind_ok hon₁, hon₂]
  · intro small p g hdistinct hrep
    exact h.ends small p g hdistinct hrep.beginInstr

/-- The code of the instructions of a block ends as single steps do. -/
theorem completes_straight (run : IsRun pc ds e stop) (le : ds.length ≤ count)
    (fits : count < 0x100000000) (wf : D.assignment.WellFormed)
    (exits : D.exits.length = D.exitCount) (faults : D.faults.length = D.faultCount) :
  ∃ D' code, (straight env.services count ds e stop).on D = (.ok (), D') ∧
    Completes env e ds pc D D' code
  := by
  induction run generalizing D with
  | last decoded ends => exact completes_last env le ends decoded wf exits _
  | limit decoded ends =>
    exact completes_located decoded ends le fits wf exits faults fun _ wf exits _ =>
      completes_nil env _ wf exits _
  | cons decoded ends rest ih =>
    exact completes_located decoded ends le fits wf exits faults fun _ wf exits faults =>
      ih (Nat.le_of_lt le) wf exits faults

end CrossHart.Host
