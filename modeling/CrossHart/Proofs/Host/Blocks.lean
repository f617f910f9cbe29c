import CrossHart.Proofs.Host.Body

/-!
# Compiled blocks

The code of a block first charges its instructions, and has its ways out behind them.  Standing at
an offset of the code buffer, it does what single steps through the instructions do, and leaves
through an exit or for the engine.
-/

namespace CrossHart.Host

open Isa Item Compile Processor Assignment

variable {env : Environment} {b : Block} {D d : Draft} {p : Processor}

/-! ### Charging -/

/-- The items in front of the instructions of a block. -/
def chargeItems (n : Nat) : List Item :=
  [.instr (budgetInstr .sub n), .branch .jl .budget]

theorem signExtend_ofNat {n : Nat} (small : n < 0x80000000) :
  ((BitVec.ofNat 32 n).signExtend 64 : Word) = BitVec.ofNat 64 n
  := by
  apply BitVec.eq_of_toInt_eq
  rw [BitVec.toInt_signExtend_of_le (by decide), BitVec.toInt_ofNat', BitVec.toInt_ofNat',
    Int.bmod_eq_of_le (by omega) (by omega), Int.bmod_eq_of_le (by omega) (by omega)]

theorem toInt_ofNat_small {n : Nat} (small : n < 0x80000000) :
  (BitVec.ofNat 64 n).toInt = n
  := by
  rw [BitVec.toInt_ofNat', Int.bmod_eq_of_le (by omega) (by omega)]

/-- The budget is given back. -/
theorem execute_addBudget (base : p.reg stateReg = env.state) {n : Nat} (small : n < 0x80000000) :
  ∃ q, execute env (budgetInstr .add n) p = .ok q ∧ q.reg stateReg = env.state ∧
    q.guest = p.guest.withBudget (p.guest.hart.budget + BitVec.ofNat 64 n)
  := by
  refine ⟨_, execute_budget base rfl, base, ?_⟩
  rw [signExtend_ofNat small]
  rfl

/-- The code of a block goes on to the instructions only if the budget covers them. -/
theorem exec_chargeItems (base : p.reg stateReg = env.state) {n : Nat} (small : n < 0x80000000) :
  ∃ q, exec env (chargeItems n) p =
      .ok (if p.guest.hart.budget.toInt < n then .jump .budget q else .next q) ∧
    q.reg stateReg = env.state ∧
    q.guest = p.guest.withBudget (p.guest.hart.budget - BitVec.ofNat 64 n)
  := by
  have hexec : execute env (budgetInstr .sub n).normal p =
      .ok ((p.withFlags (some (.ofDifference p.guest.hart.budget (BitVec.ofNat 64 n)))).withGuest
        (p.guest.withBudget (p.guest.hart.budget - BitVec.ofNat 64 n))) := by
    rw [← signExtend_ofNat small]
    exact execute_budget base rfl
  have hholds : Cond.jl.holds (.ofDifference p.guest.hart.budget (BitVec.ofNat 64 n)) =
      decide (p.guest.hart.budget.toInt < n) := by
    rw [Cond.holds_jl, BitVec.slt, toInt_ofNat_small small]
  refine ⟨(p.withFlags (some (.ofDifference p.guest.hart.budget (BitVec.ofNat 64 n)))).withGuest
    (p.guest.withBudget (p.guest.hart.budget - BitVec.ofNat 64 n)), ?_, base, rfl⟩
  rw [chargeItems, exec, hexec, Except.ok_bind, exec]
  change (if Cond.jl.holds (.ofDifference p.guest.hart.budget (BitVec.ofNat 64 n)) then _ else _) = _
  rw [hholds]
  split
  case isTrue h => rw [if_pos (of_decide_eq_true h)]; rfl
  case isFalse h => rw [if_neg fun hlt => h (decide_eq_true hlt)]; rfl

/-! ### Ways out -/

/-- Items are a way out at a target: behind it they leave for a reason, after a change of the
guest. -/
def IsWayOut (env : Environment) (items : List Item) (t : Target) (r : ExitReason)
    (f : Guest → Guest) : Prop :=
  ∃ tail, items = .place t :: tail ∧ ∀ after p, p.reg stateReg = env.state →
    ∃ q, exec env (tail ++ after) p = .ok (.leave q) ∧ q.reg .rax = BitVec.ofNat 64 r.code ∧
      q.guest = f p.guest

theorem exec_leaveAt_append (base : p.reg stateReg = env.state) (pc : Word) (r : ExitReason)
    (after : List Item) :
  ∃ q, exec env ((pcCode pc).map .instr ++ leaveItems r ++ after) p = .ok (.leave q) ∧
    q.reg .rax = BitVec.ofNat 64 r.code ∧ q.guest = p.guest.goto pc
  := by
  obtain ⟨q, hleave, hrax, hguest⟩ := exec_leaveAt base pc r
  refine ⟨q, ?_, hrax, hguest⟩
  rw [exec_append, hleave]

/-- A way out that gives back what was charged. -/
theorem isWayOut_refund (env : Environment) (t : Target) {n : Nat} (small : n < 0x80000000) (pc : Word)
    (r : ExitReason) :
  IsWayOut env (.place t :: .instr (budgetInstr .add n) :: (pcCode pc).map .instr ++ leaveItems r) t r
    (fun g => g.before n pc)
  := by
  refine ⟨_, rfl, fun after p base => ?_⟩
  obtain ⟨q, hexec, hbase, hguest⟩ := execute_addBudget base small
  obtain ⟨q', hleave, hrax, hguest'⟩ := exec_leaveAt_append hbase pc r after
  refine ⟨q', ?_, hrax, ?_⟩
  · exact (congrArg (· >>= _) hexec).trans hleave
  · rw [hguest', hguest]
    rfl

theorem isWayOut_leave (env : Environment) (t : Target) (pc : Word) (r : ExitReason) :
  IsWayOut env (.place t :: (pcCode pc).map .instr ++ leaveItems r) t r (fun g => g.goto pc)
  := ⟨_, rfl, fun after _ base => exec_leaveAt_append base pc r after⟩

theorem isWayOut_fault (env : Environment) {f : FaultExit} (small : f.refund < 0x80000000) (n : Nat) :
  IsWayOut env (faultItems f n) (.fault n) .exception (fun g => g.before f.refund f.pc)
  := by
  unfold faultItems
  split
  case isTrue => exact isWayOut_refund env _ small _ _
  case isFalse h =>
    rw [Nat.eq_zero_of_not_pos h]
    simp only [Guest.before_zero]
    exact isWayOut_leave env _ _ _

/-- What is made for an element of a list is in its place. -/
theorem numbered_eq {γ : Type} (f : γ → Nat → List Item) {xs : List γ} {k : Nat} {x : γ}
    (h : xs[k]? = some x) (n : Nat) :
  ∃ before after, numbered f xs n = before ++ f x (n + k) ++ after
  := by
  induction xs generalizing k n with
  | nil => cases h
  | cons y xs ih =>
    cases k with
    | zero =>
      cases h
      exact ⟨[], numbered f xs (n + 1), rfl⟩
    | succ k =>
      obtain ⟨before, after, heq⟩ := ih h (n + 1)
      refine ⟨f y n ++ before, after, ?_⟩
      rw [numbered, heq, Nat.add_right_comm n 1 k]
      simp [Nat.add_assoc]

/-- A jump to a way out leaves. -/
theorem IsWayOut.walks {items before way after : List Item} {t : Target} {r : ExitReason}
    {f : Guest → Guest} (h : IsWayOut env way t r f) (split : items = before ++ way ++ after)
    {q : Processor} (jumps : exec env items p = .ok (.jump t q)) (base : q.reg stateReg = env.state) :
  ∃ q', Walks env items p (.ok (.leave q')) ∧ q'.reg .rax = BitVec.ofNat 64 r.code ∧
    q'.guest = f q.guest
  := by
  obtain ⟨tail, rfl, hleave⟩ := h
  obtain ⟨q', hexec, hrax, hguest⟩ := hleave after q base
  refine ⟨q', .inr ⟨t, q, before, tail ++ after, jumps, ?_, hexec⟩, hrax, hguest⟩
  rw [split]
  simp

/-! ### Whole blocks -/

/-- How a block with exits to the given addresses is left, and what guest the engine finds; `reach`
says which ways of leaving its code come about. -/
inductive LeavesBy (targets : List Word) (env : Environment) (reach : Flow → Prop) :
    ExitReason → Guest → Prop
  /-- Through an exit to the address at which the guest goes on. -/
  | exit {k : Nat} {q : Processor} {g : Guest} (exits : reach (.exit k q))
      (target : targets[k]? = some g.hart.regs.pc) (guest : q.guest.goto g.hart.regs.pc = g)
      (base : q.reg stateReg = env.state) : LeavesBy targets env reach .chain g
  /-- For the engine. -/
  | leave {q : Processor} {r : ExitReason} (leaves : reach (.leave q))
      (reason : q.reg .rax = BitVec.ofNat 64 r.code) : LeavesBy targets env reach r q.guest

/-- The code of a block yields what its instructions do. -/
def Yields (targets : List Word) (env : Environment) (ending : Block.Ending)
    (reach : Except Crash Flow → Prop) :
    Except Crash (Except Exception Hart.StepExit × Guest) → Prop
  | .error c => reach (.error c)
  | .ok (r, g) => LeavesBy targets env (fun f => reach (.ok f)) (departure ending r) (observed r g)

theorem Yields.imp {targets : List Word} {ending : Block.Ending} {reach reach' : Except Crash Flow → Prop}
    {x : Except Crash (Except Exception Hart.StepExit × Guest)}
    (h : Yields targets env ending reach x) (himp : ∀ r, reach r → reach' r) :
  Yields targets env ending reach' x
  := by
  cases x with
  | error c => exact himp _ h
  | ok x =>
    rw [Yields] at h ⊢
    generalize departure ending x.1 = reason at h ⊢
    generalize observed x.1 x.2 = g at h ⊢
    cases h with
    | exit exits target guest base => exact .exit (himp _ exits) target guest base
    | leave leaves reason => exact .leave (himp _ leaves) reason

/-- Code that departs yields what it should with the ways out behind it. -/
theorem Ends.yields {ending : Block.Ending} {code : List Item}
    {x : Except Crash (Except Exception Hart.StepExit × Guest)} (h : Ends env ending D code p x)
    (b : Block) :
  Yields D.targets env ending (Walks env (code ++ wayItems b D) p) x
  := by
  cases x with
  | error c => exact .inl (exec_append_of_error h _)
  | ok x =>
    rw [Ends] at h
    rw [Yields]
    generalize departure ending x.1 = reason at h ⊢
    generalize observed x.1 x.2 = g at h ⊢
    cases h with
    | @exit k q g exits target guest base =>
      refine .exit ?_ target guest base
      obtain h | ⟨h, start, rfl⟩ := exits
      · refine .inl ?_
        rw [exec_append, h]
      · refine .inr ⟨.taken k, q, start, .exit k :: wayItems b D, ?_, by simp, rfl⟩
        rw [exec_append, h]
    | leave leaves reason =>
      refine .leave (.inl ?_) reason
      rw [exec_append, leaves]
    | @fault k q f jumps way small base =>
      obtain ⟨before, after, heq⟩ := numbered_eq faultItems way 0
      rw [Nat.zero_add] at heq
      have hsplit : code ++ wayItems b D = (code ++ budgetItems b ++ before) ++ faultItems f k ++
          (after ++ numbered stubItems D.exits.reverse 0) := by
        rw [wayItems, heq]
        simp
      have hjump : exec env (code ++ wayItems b D) p = .ok (.jump (.fault k) q) := by
        rw [exec_append, jumps]
      obtain ⟨q', hwalks, hrax, hguest⟩ := (isWayOut_fault env small k).walks hsplit hjump base
      rw [← hguest]
      exact .leave hwalks hrax

/-- The code of a block up to its end charges the instructions and carries them out. -/
theorem on_main (s : Services) (b : Block) :
  (main s b).on {} =
    (straight s b.count b.insns b.ending b.endPc).on (Draft.push {} (chargeItems b.count))
  := by
  rw [straight, Block.count, Nat.sub_self]
  rfl

/-- A formed block is compiled: its code charges the instructions, carries them out and has the ways
out behind. -/
theorem lower_eq (env : Environment) (formed : b.IsFormed) (fits : b.count < 0x100000000) :
  ∃ D code, lower env.services b = (.ok (), D.push (wayItems b D)) ∧
    D.code = chargeItems b.count ++ code ∧
    Completes env b.ending b.insns b.pc (Draft.push {} (chargeItems b.count)) D code
  := by
  have hstraight : ∃ D code, (straight env.services b.count b.insns b.ending b.endPc).on
      (Draft.push {} (chargeItems b.count)) = (.ok (), D) ∧
        Completes env b.ending b.insns b.pc (Draft.push {} (chargeItems b.count)) D code :=
    completes_straight formed (Nat.le_refl _) fits (WellFormed.empty _) rfl rfl
  obtain ⟨D, code, hon, hcompletes⟩ := hstraight
  refine ⟨D, code, ?_, ?_, hcompletes⟩
  · change (block env.services b).on {} = _
    rw [block_eq, on_bind_ok ((on_main _ b).trans hon), on_ways]
  · rw [Draft.code, hcompletes.items]
    simp [Draft.push]

/-- The code of a block leaves with nothing done if the budget does not cover it, and otherwise does
what its instructions do. -/
theorem walks_block (formed : b.IsFormed) (small : b.count < 0x80000000)
    (hlower : lower env.services b = (.ok (), d)) (distinct : env.services.Distinct)
    (base : p.reg stateReg = env.state) :
  if p.guest.hart.budget.toInt < b.count then
    ∃ q, Walks env d.code p (.ok (.leave q)) ∧
      q.reg .rax = BitVec.ofNat 64 ExitReason.budget.code ∧ q.guest = p.guest.goto b.pc
  else
    Yields d.targets env b.ending (Walks env d.code p) (Hart.steps b.insns (p.guest.goto b.pc))
  := by
  obtain ⟨D, code, hlower', hcode, hcompletes⟩ :=
    lower_eq env formed (Nat.lt_trans small (by decide))
  have hd : d = D.push (wayItems b D) := (Prod.ext_iff.mp (hlower.symm.trans hlower')).2
  have hitems : d.code = chargeItems b.count ++ (code ++ wayItems b D) := by
    rw [hd, Draft.code_push, hcode, List.append_assoc]
  obtain ⟨q, hcharge, hbase, hguest⟩ := exec_chargeItems base small
  have hbudget : p.guest.hart.budget = p.guest.hart.budget - BitVec.ofNat 64 b.count +
      BitVec.ofNat 64 b.count := (BitVec.sub_add_cancel _ _).symm
  split
  case isTrue hlt =>
    rw [if_pos hlt] at hcharge
    have hjump : exec env d.code p = .ok (.jump .budget q) := by
      rw [hitems, exec_append, hcharge]
    have hsplit : d.code = (chargeItems b.count ++ code) ++ budgetItems b ++
        (numbered faultItems D.faults.reverse 0 ++ numbered stubItems D.exits.reverse 0) := by
      rw [hitems, wayItems]
      simp
    obtain ⟨q', hwalks, hrax, hq'⟩ :=
      (isWayOut_refund env .budget small b.pc .budget).walks hsplit hjump hbase
    refine ⟨q', hwalks, hrax, ?_⟩
    rw [hq', hguest]
    exact Guest.before_withBudget hbudget b.pc
  case isFalse hge =>
    rw [if_neg hge] at hcharge
    have hrep : Represents env (Draft.push {} (chargeItems b.count)).assignment q q.guest :=
      .empty hbase _
    have hcovered : q.guest.hart.budget.toInt + b.insns.length < 2 ^ 63 := by
      have hlt := p.guest.hart.budget.toInt_lt
      have hcount : (b.count : Int) = b.insns.length := rfl
      rw [hguest]
      change (p.guest.hart.budget - BitVec.ofNat 64 b.count).toInt + _ < _
      rw [BitVec.toInt_sub, toInt_ofNat_small small, Int.bmod_eq_of_le (by omega) (by omega)]
      omega
    have hyields := (hcompletes.ends small q q.guest distinct hrep hcovered).yields b
    have hbefore : q.guest.before b.insns.length b.pc = p.guest.goto b.pc := by
      rw [hguest]
      exact Guest.before_withBudget hbudget b.pc
    rw [hbefore] at hyields
    have htargets : d.targets = D.targets := by rw [hd]; rfl
    rw [htargets, hitems]
    exact hyields.imp fun r h => h.append hcharge

end CrossHart.Host
