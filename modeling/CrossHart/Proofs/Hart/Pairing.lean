import CrossHart.Proofs.Hart.Faults

/-!
# Pairs of reserving loads and conditional stores

Of all instructions only two kinds touch the reservation: a load-reserved that completes makes it,
and a store-conditional whose address is aligned takes it away, however it ends.  So over a whole
run, a store-conditional finds its address reserved exactly if the last of these was a load-reserved
of the same address.
-/

namespace CrossHart

open CrossHart.Action Isa

/-! ### The reservation -/

namespace Action

variable {σ ε α : Type} {K : σ → σ → Prop}

theorem Keeps.pure (refl : ∀ s, K s s) (x : α) :
  Keeps K (Pure.pure x : Action σ ε α)
  := by
  intro s r t h
  cases h
  exact refl s

theorem Keeps.throw (refl : ∀ s, K s s) (e : ε) :
  Keeps K (throw e : Action σ ε α)
  := by
  intro s r t h
  cases h
  exact refl s

theorem Keeps.change {f : σ → Except Crash σ} (h : ∀ s t, f s = .ok t → K s t) :
  Keeps K (Action.change f : Action σ ε Unit)
  := by
  intro s r t ht
  rw [Action.change, on_of] at ht
  cases hf : f s with
  | ok t' =>
    rw [hf] at ht
    cases ht
    exact h s t hf
  | error c =>
    rw [hf] at ht
    cases ht

end Action

namespace Guest

/-- The guest without a reservation. -/
def unreserved (g : Guest) : Guest :=
  ⟨{ g.hart with reservation := noReservation }, g.memory⟩

/-- The reservation is as before. -/
def SameReservation (g g' : Guest) : Prop :=
  g'.hart.reservation = g.hart.reservation

theorem SameReservation.refl (g : Guest) :
  SameReservation g g
  := rfl

theorem SameReservation.trans (g g' g'' : Guest) (h : SameReservation g g')
    (h' : SameReservation g' g'') :
  SameReservation g g''
  := Eq.trans h' h

variable {ε α : Type}

theorem reserved_reg (i : Nat) :
  Keeps SameReservation (reg i : Action Guest ε Word)
  := Keeps.look SameReservation.refl _

theorem reserved_setReg (i : Nat) (v : Word) :
  Keeps SameReservation (setReg i v : Action Guest ε Unit)
  := by
  apply Keeps.change
  rintro ⟨hart, memory⟩ g' hg'
  dsimp only at hg'
  cases hset : hart.regs.set i v with
  | ok regs =>
    rw [hset] at hg'
    cases hg'
    rfl
  | error c =>
    rw [hset] at hg'
    cases hg'

theorem reserved_setPc (pc : Word) :
  Keeps SameReservation (setPc pc : Action Guest ε Unit)
  := by
  apply Keeps.change
  rintro ⟨hart, memory⟩ g' hg'
  cases hg'
  rfl

theorem reserved_onMemory (raise : Memory.Fault → ε) (a : Action Memory Memory.Fault α) :
  Keeps SameReservation (onMemory raise a)
  := by
  rintro ⟨hart, memory⟩ r g' hg'
  rw [onMemory, on_of] at hg'
  dsimp only at hg'
  split at hg'
  case h_1 => cases hg'
  case h_2 =>
    cases hg'
    rfl
  case h_3 =>
    cases hg'
    rfl

/-- An action on memory that did not throw. -/
theorem of_onMemory {raise : Memory.Fault → ε} {a : Action Memory Memory.Fault α} {g g' : Guest}
    {x : α} (h : (onMemory raise a).on g = .ok (.ok x, g')) :
  ∃ m, a.on g.memory = .ok (.ok x, m) ∧ g' = ⟨g.hart, m⟩
  := by
  obtain ⟨hart, memory⟩ := g
  rw [onMemory, on_of] at h
  dsimp only at h
  split at h
  case h_1 => cases h
  case h_2 v memory' ha =>
    cases h
    exact ⟨memory', ha, rfl⟩
  case h_3 => cases h

theorem on_reg_of_le (g : Guest) {i : Nat} (le : 32 ≤ i) :
  (reg i : Action Guest ε Word).on g = .error .outOfBounds
  := by
  have hget : g.hart.regs.get i = .error .outOfBounds := by
    rw [Registers.get, if_neg (by omega), dif_neg (Nat.not_lt_of_le le)]
  rw [reg, Action.look, on_of, hget]
  rfl

/-- A register that was read. -/
theorem value_of_reg {g g' : Guest} {i : Nat} {r : Except ε Word} (h : (reg i).on g = .ok (r, g')) :
  r = .ok (g.value i) ∧ g' = g
  := by
  by_cases hi : i < 32
  · rw [on_reg g hi] at h
    cases h
    exact ⟨rfl, rfl⟩
  · rw [on_reg_of_le g (Nat.le_of_not_lt hi)] at h
    cases h

/-- A register that was written. -/
theorem put_of_setReg {g g' : Guest} {i : Nat} {v : Word} {r : Except ε Unit}
    (h : (setReg i v).on g = .ok (r, g')) :
  r = .ok () ∧ g' = g.put i v
  := by
  by_cases hi : i < 32
  · rw [on_setReg g hi] at h
    cases h
    exact ⟨rfl, rfl⟩
  · have hset : g.hart.regs.set i v = .error .outOfBounds := by
      rw [Registers.set, if_neg (by omega), dif_neg hi]
    rw [setReg, Action.change, on_of] at h
    simp only [hset] at h
    cases h

end Guest

namespace Hart

open Guest

/-- The instructions on the reservation. -/
def isPaired : Instr → Bool
  | .amo .lr .. => true
  | .amo .sc .. => true
  | _ => false

theorem reserved_goto (pc : Word) :
  Keeps SameReservation (goto pc)
  := (reserved_setPc pc).bind SameReservation.trans fun _ => .pure SameReservation.refl _

theorem reserved_readModifyWrite (op : AmoOp) (width : Width) (rd rs2 : Nat) (addr : Word) :
  Keeps SameReservation (readModifyWrite op width rd rs2 addr)
  := by
  unfold readModifyWrite
  refine Keeps.bind SameReservation.trans (Keeps.discard (reserved_onMemory _ _)) fun _ => ?_
  refine (reserved_onMemory _ _).bind SameReservation.trans fun raw => ?_
  refine (reserved_reg rs2).bind SameReservation.trans fun src => ?_
  exact (reserved_onMemory _ _).bind SameReservation.trans fun _ => reserved_setReg rd _

theorem reserved_atomic {op : AmoOp} (lr : op ≠ .lr) (sc : op ≠ .sc) (width : Width)
    (rd rs1 rs2 : Nat) :
  Keeps SameReservation (atomic op width rd rs1 rs2)
  := by
  have trans := SameReservation.trans
  refine (reserved_reg rs1).bind trans fun addr => ?_
  dsimp only
  split
  on_goal 1 => refine (Keeps.throw SameReservation.refl _).bind trans fun _ => ?_
  -- Past the check of the address, both ways go on with the access.
  all_goals
    split
    · exact absurd rfl lr
    · exact absurd rfl sc
    · exact reserved_readModifyWrite op width rd rs2 addr

/-- Other instructions keep the reservation. -/
theorem reserved_step {d : Located} (other : isPaired d.instr = false) :
  Keeps SameReservation (step d)
  := by
  have trans := SameReservation.trans
  have hset (rd : Nat) (v pc : Word) :
      Keeps SameReservation (do setReg rd v; goto pc : Effect StepExit) :=
    (reserved_setReg rd v).bind trans fun _ => reserved_goto pc
  unfold step
  cases hinstr : d.instr <;> rw [hinstr] at other <;> dsimp only
  case lui => exact hset _ _ _
  case auipc => exact hset _ _ _
  case jal => exact hset _ _ _
  case jalr rd rs1 imm => exact (reserved_reg rs1).bind trans fun base => hset _ _ _
  case branch op rs1 rs2 imm =>
    refine (reserved_reg rs1).bind trans fun a => ?_
    exact (reserved_reg rs2).bind trans fun b => reserved_goto _
  case load op rd rs1 imm =>
    refine (reserved_reg rs1).bind trans fun base => ?_
    exact (reserved_onMemory _ _).bind trans fun raw => hset _ _ _
  case store op rs1 rs2 imm =>
    refine (reserved_reg rs1).bind trans fun base => ?_
    refine (reserved_reg rs2).bind trans fun v => ?_
    exact (reserved_onMemory _ _).bind trans fun _ => reserved_goto _
  case opImm op rd rs1 imm => exact (reserved_reg rs1).bind trans fun a => hset _ _ _
  case opImm32 op rd rs1 imm => exact (reserved_reg rs1).bind trans fun a => hset _ _ _
  case op op rd rs1 rs2 =>
    exact (reserved_reg rs1).bind trans fun a => (reserved_reg rs2).bind trans fun b => hset _ _ _
  case op32 op rd rs1 rs2 =>
    exact (reserved_reg rs1).bind trans fun a => (reserved_reg rs2).bind trans fun b => hset _ _ _
  case amo op width rd rs1 rs2 aq rl =>
    refine (reserved_atomic ?_ ?_ width rd rs1 rs2).bind trans fun _ => reserved_goto _
    · rintro rfl
      cases other
    · rintro rfl
      cases other
  case fence => exact reserved_goto _
  case fenceI => exact (reserved_setPc d.next).bind trans fun _ => .pure SameReservation.refl _
  case ecall => exact .pure SameReservation.refl _
  case csr op rd rs1 csr =>
    have hcsr : Keeps SameReservation (accessCsr d.raw op rd rs1 csr) := by
      unfold accessCsr
      split
      · exact Keeps.bind trans (Keeps.look SameReservation.refl _) fun n => reserved_setReg rd n
      · exact .throw SameReservation.refl _
    exact hcsr.bind trans fun _ => reserved_goto _
  all_goals exact .throw SameReservation.refl _

/-! ### Single events -/

/-- An instruction that was executed, the guest before it and how it ended. -/
structure Event where
  located : Located
  before : Guest
  result : Except Exception StepExit

/-- A load-reserved of an address that completed. -/
def Event.Reserves (e : Event) (addr : Word) : Prop :=
  ∃ width rd rs1 rs2 aq rl x, e.located.instr = .amo .lr width rd rs1 rs2 aq rl ∧
    e.before.value rs1 = addr ∧ e.result = .ok x

/-- A store-conditional with an aligned address, however it ended. -/
def Event.Attempts (e : Event) : Prop :=
  ∃ width rd rs1 rs2 aq rl, e.located.instr = .amo .sc width rd rs1 rs2 aq rl ∧
    (e.before.value rs1).toNat % width.size = 0

variable {d : Located} {g g' : Guest} {r : Except Exception StepExit} {op : AmoOp} {width : Width}
  {rd rs1 rs2 : Nat} {aq rl : Bool}

theorem lt_of_atomic {x : Except Exception Unit}
    (h : (atomic op width rd rs1 rs2).on g = .ok (x, g')) :
  rs1 < 32
  := by
  by_contra hi
  rw [atomic, on_bind, on_reg_of_le g (Nat.le_of_not_lt hi)] at h
  cases h

theorem on_atomic_lr (g : Guest) (lt : rs1 < 32) :
  (atomic .lr width rd rs1 rs2).on g =
    if (g.value rs1).toNat % width.size ≠ 0 then .ok (.error ⟨.loadMisaligned, g.value rs1⟩, g)
    else (loadReserved width rd (g.value rs1)).on g
  := by
  rw [atomic, on_bind, on_reg g lt]
  dsimp only
  split <;> rfl

theorem on_atomic_sc (g : Guest) (lt : rs1 < 32) :
  (atomic .sc width rd rs1 rs2).on g =
    if (g.value rs1).toNat % width.size ≠ 0 then .ok (.error ⟨.storeMisaligned, g.value rs1⟩, g)
    else (storeConditional width rd rs2 (g.value rs1)).on g
  := by
  rw [atomic, on_bind, on_reg g lt]
  dsimp only
  split <;> rfl

/-- An atomic operation ends as its access does, and then goes on to the next instruction. -/
theorem step_atomic (instr : d.instr = .amo op width rd rs1 rs2 aq rl)
    (h : (step d).on g = .ok (r, g')) :
  (∃ g₁, (atomic op width rd rs1 rs2).on g = .ok (.ok (), g₁) ∧ r = .ok .continue ∧
    g' = g₁.goto d.next) ∨
  ∃ e, (atomic op width rd rs1 rs2).on g = .ok (.error e, g') ∧ r = .error e
  := by
  unfold step at h
  rw [instr] at h
  cases r with
  | ok x =>
    obtain ⟨u, g₁, hatomic, hgoto⟩ := on_bind_eq_ok.mp h
    cases hgoto
    exact .inl ⟨g₁, hatomic, rfl, rfl⟩
  | error e =>
    obtain herror | ⟨u, g₁, -, hgoto⟩ := on_bind_eq_error.mp h
    · exact .inr ⟨e, herror, rfl⟩
    · cases hgoto

theorem on_storeConditional (g : Guest) (addr : Word) :
  (storeConditional width rd rs2 addr).on g =
    if g.hart.reservation = addr then
      (do
        let v ← reg rs2
        store addr width.size v
        setReg rd 0 : Effect Unit).on g.unreserved
    else (setReg rd 1 : Effect Unit).on g.unreserved
  := by
  have hrest : (storeConditional width rd rs2 addr).on g =
      (if g.hart.reservation = addr then do
        let v ← reg rs2
        store addr width.size v
        setReg rd 0
      else setReg rd 1 : Effect Unit).on g.unreserved := rfl
  rw [hrest]
  split <;> rfl

/-- A load-reserved that completes reserves its address, which is aligned. -/
theorem reservation_of_reserves {addr : Word} (h : (step d).on g = .ok (r, g'))
    (reserves : Event.Reserves ⟨d, g, r⟩ addr) :
  g'.hart.reservation = addr ∧ addr.toNat % 4 = 0
  := by
  obtain ⟨width, rd, rs1, rs2, aq, rl, x, instr, rfl, rfl⟩ := reserves
  obtain ⟨g₁, hatomic, -, rfl⟩ | ⟨e, -, hresult⟩ := step_atomic instr h
  · rw [on_atomic_lr g (lt_of_atomic hatomic)] at hatomic
    split at hatomic
    case isTrue => cases hatomic
    case isFalse haligned =>
      obtain ⟨v, g₂, -, hrest⟩ := on_bind_eq_ok.mp hatomic
      obtain ⟨u, g₃, hreserve, hset⟩ := on_bind_eq_ok.mp hrest
      cases hreserve
      obtain ⟨-, rfl⟩ := put_of_setReg hset
      refine ⟨rfl, ?_⟩
      change (g.value rs1).toNat % 4 = 0
      cases width <;> simp only [Width.size] at haligned <;> omega
  · cases hresult

/-- A store-conditional with an aligned address leaves no reservation. -/
theorem reservation_of_attempts (h : (step d).on g = .ok (r, g'))
    (attempts : Event.Attempts ⟨d, g, r⟩) :
  g'.hart.reservation = noReservation
  := by
  obtain ⟨width, rd, rs1, rs2, aq, rl, instr, aligned⟩ := attempts
  have hlost {x : Except Exception Unit} {g₁ : Guest}
      (hatomic : (atomic .sc width rd rs1 rs2).on g = .ok (x, g₁)) :
      g₁.hart.reservation = noReservation := by
    rw [on_atomic_sc g (lt_of_atomic hatomic), if_neg (by simpa using aligned),
      on_storeConditional] at hatomic
    have trans := SameReservation.trans
    split at hatomic
    case isTrue =>
      refine Keeps.bind trans (reserved_reg rs2) (fun v => ?_) _ _ _ hatomic
      exact (reserved_onMemory _ _).bind trans fun _ => reserved_setReg rd 0
    case isFalse => exact reserved_setReg rd 1 _ _ _ hatomic
  obtain ⟨g₁, hatomic, -, rfl⟩ | ⟨e, hatomic, -⟩ := step_atomic instr h
  · change g₁.hart.reservation = noReservation
    exact hlost hatomic
  · exact hlost hatomic

/-- All other instructions keep the reservation, and so do those of the two kinds that end early. -/
theorem reservation_of_neither (h : (step d).on g = .ok (r, g'))
    (attempts : ¬ Event.Attempts ⟨d, g, r⟩) (reserves : ∀ addr, ¬ Event.Reserves ⟨d, g, r⟩ addr) :
  g'.hart.reservation = g.hart.reservation
  := by
  cases hpaired : isPaired d.instr with
  | false => exact reserved_step hpaired _ _ _ h
  | true =>
    unfold isPaired at hpaired
    split at hpaired
    case h_1 width rd rs1 rs2 aq rl instr =>
      obtain ⟨g₁, hatomic, hresult, -⟩ | ⟨e, hatomic, -⟩ := step_atomic instr h
      · exact absurd ⟨width, rd, rs1, rs2, aq, rl, _, instr, rfl, hresult⟩ (reserves _)
      · rw [on_atomic_lr g (lt_of_atomic hatomic)] at hatomic
        split at hatomic
        case isTrue =>
          cases hatomic
          rfl
        case isFalse =>
          exact congrArg Hart.reservation (reverts_loadReserved width rd _ g e g' hatomic).1
    case h_2 width rd rs1 rs2 aq rl instr =>
      have hmisaligned : (g.value rs1).toNat % width.size ≠ 0 := fun aligned =>
        attempts ⟨width, rd, rs1, rs2, aq, rl, instr, aligned⟩
      obtain ⟨g₁, hatomic, -⟩ | ⟨e, hatomic, -⟩ := step_atomic instr h
      · rw [on_atomic_sc g (lt_of_atomic hatomic), if_pos hmisaligned] at hatomic
        cases hatomic
      · rw [on_atomic_sc g (lt_of_atomic hatomic), if_pos hmisaligned] at hatomic
        cases hatomic
        rfl
    case h_3 => cases hpaired

/-! ### Whole runs -/

/-- Instructions were executed one after the other.  The last one is first in the list. -/
inductive Executed (start : Guest) : List Event → Guest → Prop
  | nil : Executed start [] start
  | cons {es : List Event} {g g' : Guest} {d : Located} {r : Except Exception StepExit}
      (executed : Executed start es g) (next : (step d).on g = .ok (r, g')) :
      Executed start (⟨d, g, r⟩ :: es) g'

/-- Of the load-reserved that completed and the store-conditionals with aligned addresses, the last
was a load-reserved of the given address. -/
def Paired (es : List Event) (addr : Word) : Prop :=
  ∃ later e earlier, es = later ++ e :: earlier ∧ e.Reserves addr ∧
    ∀ e' ∈ later, ¬ e'.Attempts ∧ ∀ addr', ¬ e'.Reserves addr'

theorem paired_cons {e : Event} {es : List Event} {addr : Word} :
  Paired (e :: es) addr ↔
    e.Reserves addr ∨ (¬ e.Attempts ∧ ∀ addr', ¬ e.Reserves addr') ∧ Paired es addr
  := by
  constructor
  · rintro ⟨later, e', earlier, hsplit, hreserves, hlater⟩
    cases later with
    | nil =>
      cases hsplit
      exact .inl hreserves
    | cons e'' later =>
      obtain ⟨rfl, rfl⟩ := List.cons.inj hsplit
      refine .inr ⟨hlater e List.mem_cons_self, later, e', earlier, rfl, hreserves, ?_⟩
      intro e'' he''
      exact hlater e'' (List.mem_cons_of_mem e he'')
  · rintro (hreserves | ⟨hneither, later, e', earlier, rfl, hreserves, hlater⟩)
    · exact ⟨[], e, es, rfl, hreserves, fun e' he' => absurd he' List.not_mem_nil⟩
    · refine ⟨e :: later, e', earlier, rfl, hreserves, fun e'' he'' => ?_⟩
      obtain rfl | he'' := List.mem_cons.mp he''
      · exact hneither
      · exact hlater e'' he''

theorem Event.Reserves.not_attempts {e : Event} {addr : Word} (h : e.Reserves addr) :
  ¬ e.Attempts
  := by
  rintro ⟨width', rd', rs1', rs2', aq', rl', hsc, -⟩
  obtain ⟨width, rd, rs1, rs2, aq, rl, x, hlr, -⟩ := h
  cases hlr.symm.trans hsc

theorem ne_noReservation {addr : Word} (aligned : addr.toNat % 4 = 0) :
  addr ≠ noReservation
  := by
  rintro rfl
  exact absurd aligned (by decide)

/-- After a run from a guest without a reservation, an aligned address is reserved if and only if
the last of the pair was a load-reserved of it. -/
theorem reservation_iff_paired {start g : Guest} {es : List Event}
    (free : start.hart.reservation = noReservation) (executed : Executed start es g) {addr : Word}
    (aligned : addr.toNat % 4 = 0) :
  g.hart.reservation = addr ↔ Paired es addr
  := by
  have hne := ne_noReservation aligned
  induction executed with
  | nil =>
    rw [free]
    constructor
    · exact fun h => absurd h.symm hne
    · rintro ⟨later, e, earlier, hsplit, -⟩
      simp at hsplit
  | @cons es g g' d r _ next ih =>
    rw [paired_cons]
    by_cases hattempts : Event.Attempts ⟨d, g, r⟩
    case pos =>
      rw [reservation_of_attempts next hattempts]
      constructor
      · exact fun h => absurd h.symm hne
      · rintro (hreserves | ⟨⟨hnot, -⟩, -⟩)
        · exact absurd hattempts hreserves.not_attempts
        · exact absurd hattempts hnot
    case neg =>
      by_cases hreserves : ∃ addr', Event.Reserves ⟨d, g, r⟩ addr'
      case pos =>
        obtain ⟨addr', hreserves⟩ := hreserves
        obtain ⟨hreservation, -⟩ := reservation_of_reserves next hreserves
        rw [hreservation]
        constructor
        · rintro rfl
          exact .inl hreserves
        · rintro (hreserves' | ⟨⟨-, hnot⟩, -⟩)
          · rw [← hreservation]
            exact (reservation_of_reserves next hreserves').1
          · exact absurd hreserves (hnot addr')
      case neg =>
        have hnot := not_exists.mp hreserves
        rw [reservation_of_neither next hattempts hnot]
        apply ih.trans
        constructor
        · exact fun h => .inr ⟨⟨hattempts, hnot⟩, h⟩
        · rintro (hreserves' | ⟨-, h⟩)
          · exact absurd hreserves' (hnot addr)
          · exact h

/-! ### Conditional stores -/

/-- A store-conditional that stored its value, byte for byte in sound memory, and says so. -/
def Stores (g : Guest) (d : Located) (width : Width) (rd rs2 : Nat) (addr : Word)
    (r : Except Exception StepExit) (g' : Guest) : Prop :=
  r = .ok .continue ∧ ∃ m,
    (Memory.store addr width.size (g.value rs2)).on g.memory = .ok (.ok (), m) ∧
    (g.memory.Sound → g.memory.space.Rewritten m.space addr (g.value rs2) 0 width.size) ∧
    g' = (Guest.put ⟨g.unreserved.hart, m⟩ rd 0).goto d.next

/-- A store-conditional whose access faults: nothing was written, and no register. -/
def Faults (g : Guest) (r : Except Exception StepExit) (g' : Guest) : Prop :=
  ∃ e, r = .error e ∧ e.cause = .storeAccessFault ∧ Unwritten g.unreserved g'

/-- A store-conditional that stored nothing and says so. -/
def Declines (g : Guest) (d : Located) (rd : Nat) (r : Except Exception StepExit) (g' : Guest) :
    Prop :=
  r = .ok .continue ∧ g' = (g.unreserved.put rd 1).goto d.next

theorem conditional_of_reserved (instr : d.instr = .amo .sc width rd rs1 rs2 aq rl)
    (aligned : (g.value rs1).toNat % width.size = 0) (reserved : g.hart.reservation = g.value rs1)
    (h : (step d).on g = .ok (r, g')) :
  Stores g d width rd rs2 (g.value rs1) r g' ∨ Faults g r g'
  := by
  obtain ⟨g₁, hatomic, rfl, rfl⟩ | ⟨e, hatomic, rfl⟩ := step_atomic instr h
  · rw [on_atomic_sc g (lt_of_atomic hatomic), if_neg (by simpa using aligned),
      on_storeConditional, if_pos reserved] at hatomic
    obtain ⟨v, g₂, hreg, hrest⟩ := on_bind_eq_ok.mp hatomic
    obtain ⟨u, g₃, hstore, hset⟩ := on_bind_eq_ok.mp hrest
    obtain ⟨hv, rfl⟩ := value_of_reg hreg
    cases hv
    obtain ⟨-, rfl⟩ := put_of_setReg hset
    obtain ⟨m, hm, rfl⟩ := of_onMemory hstore
    exact .inl ⟨rfl, m, hm, fun sound => sound.store_rewritten (size_le_width width) hm, rfl⟩
  · rw [on_atomic_sc g (lt_of_atomic hatomic), if_neg (by simpa using aligned)] at hatomic
    obtain ⟨-, hcause, hunwritten⟩ := storeConditional_error hatomic
    exact .inr ⟨e, rfl, hcause, hunwritten⟩

theorem conditional_of_unreserved (instr : d.instr = .amo .sc width rd rs1 rs2 aq rl)
    (aligned : (g.value rs1).toNat % width.size = 0) (unreserved : g.hart.reservation ≠ g.value rs1)
    (h : (step d).on g = .ok (r, g')) :
  Declines g d rd r g'
  := by
  obtain ⟨g₁, hatomic, rfl, rfl⟩ | ⟨e, hatomic, rfl⟩ := step_atomic instr h
  all_goals
    rw [on_atomic_sc g (lt_of_atomic hatomic), if_neg (by simpa using aligned),
      on_storeConditional, if_neg unreserved] at hatomic
    obtain ⟨hresult, rfl⟩ := put_of_setReg hatomic
  · exact ⟨rfl, rfl⟩
  · cases hresult

/-- Instructions keep memory sound. -/
theorem Executed.sound {start g : Guest} {es : List Event} (executed : Executed start es g)
    (sound : start.memory.Sound) (proper : ∀ e ∈ es, e.located.instr.IsProper) :
  g.memory.Sound
  := by
  induction executed with
  | nil => exact sound
  | cons _ next ih =>
    have hsound := ih fun e he => proper e (List.mem_cons_of_mem _ he)
    have hstays := stays_step_of Memory.isRoutine_staysSound (proper _ List.mem_cons_self)
    exact ((hstays _ (proceeds_self hsound.stays)).post_of_eq next).memory.2

/-- After any run from a guest without a reservation, a store-conditional with an aligned address
stores its value or faults if the last load-reserved that completed or store-conditional with an
aligned address was a load-reserved of the same address.  Otherwise it stores nothing.  The address
is never the one that stands for no reservation. -/
theorem conditional_stores_pair_with_loads {start g : Guest} {es : List Event}
    (free : start.hart.reservation = noReservation) (executed : Executed start es g) {d : Located}
    {width : Width} {rd rs1 rs2 : Nat} {aq rl : Bool}
    (instr : d.instr = .amo .sc width rd rs1 rs2 aq rl)
    (aligned : (g.value rs1).toNat % width.size = 0) :
  g.value rs1 ≠ noReservation ∧
  (∀ r g', (step d).on g = .ok (r, g') →
    (Paired es (g.value rs1) → Stores g d width rd rs2 (g.value rs1) r g' ∨ Faults g r g') ∧
    (¬ Paired es (g.value rs1) → Declines g d rd r g')) ∧
  (start.memory.Sound → (∀ e ∈ es, e.located.instr.IsProper) →
    g.memory.Sound ∧ (d.instr.IsProper → ∃ r g', (step d).on g = .ok (r, g')))
  := by
  have hfour : (g.value rs1).toNat % 4 = 0 := by
    cases width <;> simp only [Width.size] at aligned <;> omega
  have hpaired := reservation_iff_paired free executed hfour
  refine ⟨ne_noReservation hfour, fun r g' h => ⟨fun paired => ?_, fun unpaired => ?_⟩,
    fun sound proper => ?_⟩
  · exact conditional_of_reserved instr aligned (hpaired.mpr paired) h
  · exact conditional_of_unreserved instr aligned (fun reserved => unpaired (hpaired.mp reserved)) h
  · have hsound := executed.sound sound proper
    refine ⟨hsound, fun hproper => ?_⟩
    have hstays := stays_step_of Memory.isRoutine_staysSound hproper
    obtain ⟨⟨r, g'⟩, h, -⟩ := (hstays g (proceeds_self hsound.stays)).exists_ok trivial
    exact ⟨r, g', h⟩

/-- A guest that may write all of its memory, with an address in it in `x1`. -/
def writable : Guest where
  hart := readOnly.hart
  memory := ⟨{}, readOnly.memory.space, .ofFun fun _ => true⟩

/-- A store-conditional without a load before it stores nothing.  After a load-reserved and an addition
in place, another one stores its value. -/
theorem conditional_stores_pair_with_loads_of_four :
  ∃ g₁ g₂ g₃ g₄,
    Executed writable [⟨adding, g₂, .ok .continue⟩, ⟨reserving, g₁, .ok .continue⟩,
      ⟨conditional, writable, .ok .continue⟩] g₃ ∧
    Declines writable conditional 3 (.ok .continue) g₁ ∧
    Paired [⟨adding, g₂, .ok .continue⟩, ⟨reserving, g₁, .ok .continue⟩,
      ⟨conditional, writable, .ok .continue⟩] (g₃.value 1) ∧
    (step conditional).on g₃ = .ok (.ok .continue, g₄) ∧
    Stores g₃ conditional .word 3 2 (g₃.value 1) (.ok .continue) g₄
  := by
  have hsteps : (((step conditional).on writable).toOption.bind fun r₁ =>
      ((step reserving).on r₁.2).toOption.bind fun r₂ =>
      ((step adding).on r₂.2).toOption.bind fun r₃ =>
      ((step conditional).on r₃.2).toOption.map fun r₄ =>
        ([r₁.1, r₂.1, r₃.1, r₄.1], r₁.2.value 1, r₃.2.value 1)) =
      some (List.replicate 4 (.ok .continue), 0x100, 0x100) := by decide +kernel
  obtain ⟨⟨r₁, g₁⟩, hg₁, hsteps⟩ := Option.bind_eq_some_iff.mp hsteps
  obtain ⟨⟨r₂, g₂⟩, hg₂, hsteps⟩ := Option.bind_eq_some_iff.mp hsteps
  obtain ⟨⟨r₃, g₃⟩, hg₃, hsteps⟩ := Option.bind_eq_some_iff.mp hsteps
  obtain ⟨⟨r₄, g₄⟩, hg₄, hsteps⟩ := Except.exists_of_toOption hsteps
  obtain ⟨⟨rfl, rfl, rfl, rfl⟩, hvalue₁, hvalue₃⟩ : (r₁ = .ok .continue ∧ r₂ = .ok .continue ∧
      r₃ = .ok .continue ∧ r₄ = .ok .continue) ∧ g₁.value 1 = 0x100 ∧ g₃.value 1 = 0x100 := by
    simpa using hsteps
  replace hg₁ := Except.eq_ok_of_toOption hg₁
  have hnothing : Executed writable [] writable := .nil
  have hexecuted := ((hnothing.cons hg₁).cons (Except.eq_ok_of_toOption hg₂)).cons
    (Except.eq_ok_of_toOption hg₃)
  have hinstr : conditional.instr = .amo .sc .word 3 1 2 false false := rfl
  -- Nothing was executed before the first one, so it is without a load.
  obtain ⟨-, hfirst, -⟩ := conditional_stores_pair_with_loads rfl hnothing hinstr (by decide)
  have hunpaired : ¬Paired [] (writable.value 1) := by
    rintro ⟨later, e, earlier, hsplit, -⟩
    simp at hsplit
  have hpaired : Paired [⟨adding, g₂, .ok .continue⟩, ⟨reserving, g₁, .ok .continue⟩,
      ⟨conditional, writable, .ok .continue⟩] (g₃.value 1) := by
    refine paired_cons.mpr (.inr ⟨⟨?_, ?_⟩, paired_cons.mpr (.inl
      ⟨.word, 2, 1, 0, false, false, .continue, rfl, hvalue₁.trans hvalue₃.symm, rfl⟩)⟩)
    · rintro ⟨_, _, _, _, _, _, hsc, -⟩
      cases hsc
    · rintro _ ⟨_, _, _, _, _, _, _, hlr, -⟩
      cases hlr
  have haligned : (g₃.value 1).toNat % Width.word.size = 0 := by
    rw [hvalue₃]
    rfl
  obtain ⟨-, hlast, -⟩ := conditional_stores_pair_with_loads rfl hexecuted hinstr haligned
  refine ⟨g₁, g₂, g₃, g₄, hexecuted, (hfirst _ g₁ hg₁).2 hunpaired, hpaired, hg₄, ?_⟩
  obtain hstores | ⟨e, herror, -⟩ := (hlast _ g₄ hg₄).1 hpaired
  · exact hstores
  · cases herror

end Hart

end CrossHart
