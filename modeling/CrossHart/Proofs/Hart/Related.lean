import CrossHart.Proofs.Hart.Registers
import CrossHart.Proofs.Outcome

/-!
# Actions on related states

An action respects a relation between states if from related states it gives the same result and
related states, or crashes in the same way.  What an instruction does apart from the program
counter respects every relation between harts that agree on registers, reservation and the count of
instructions, together with any relation between memories that loads and stores respect.
-/

namespace CrossHart

namespace Action

variable {σ ε α β : Type} {R : σ → σ → Prop}

theorem on_map (f : α → β) (a : Action σ ε α) (s : σ) :
  (f <$> a).on s =
    match a.on s with
    | .ok (.ok x, t) => .ok (.ok (f x), t)
    | .ok (.error e, t) => .ok (.error e, t)
    | .error crash => .error crash
  := by
  rw [map_eq_pure_bind, on_bind]
  rfl

/-- The same result with related states, or the same crash. -/
inductive Matches (R : σ → σ → Prop) :
    Except Crash (Except ε α × σ) → Except Crash (Except ε α × σ) → Prop
  | ok (x : Except ε α) {s t : σ} (h : R s t) : Matches R (.ok (x, s)) (.ok (x, t))
  | crash (c : Crash) : Matches R (.error c) (.error c)

theorem Matches.elim {x y : Except Crash (Except ε α × σ)} (h : Matches R x y) :
  (∃ c, x = .error c ∧ y = .error c) ∨ ∃ r s t, x = .ok (r, s) ∧ y = .ok (r, t) ∧ R s t
  := by
  cases h with
  | crash c => exact .inl ⟨c, rfl, rfl⟩
  | ok r h => exact .inr ⟨r, _, _, rfl, rfl, h⟩

/-- From related states an action gives the same result and related states. -/
def Respects (R : σ → σ → Prop) (a : Action σ ε α) : Prop :=
  ∀ s t, R s t → Matches R (a.on s) (a.on t)

namespace Respects

theorem pure (x : α) :
  Respects R (Pure.pure x : Action σ ε α)
  := fun _ _ h => .ok (.ok x) h

theorem throw (e : ε) :
  Respects R (throw e : Action σ ε α)
  := fun _ _ h => .ok (.error e) h

theorem lift (x : Except Crash α) :
  Respects R (Action.lift x : Action σ ε α)
  := by
  intro s t h
  cases x with
  | ok x => exact .ok (.ok x) h
  | error c => exact .crash c

theorem bind {a : Action σ ε α} {f : α → Action σ ε β} (h : Respects R a)
    (hf : ∀ x, Respects R (f x)) :
  Respects R (a >>= f)
  := by
  intro s t hst
  rw [on_bind, on_bind]
  obtain ⟨c, hs, ht⟩ | ⟨r, s', t', hs, ht, hst'⟩ := (h s t hst).elim
  · rw [hs, ht]
    exact .crash c
  · rw [hs, ht]
    cases r with
    | ok x => exact hf x _ _ hst'
    | error e => exact .ok (.error e) hst'

theorem map (f : α → β) {a : Action σ ε α} (h : Respects R a) :
  Respects R (f <$> a)
  := by
  rw [map_eq_pure_bind]
  exact h.bind fun x => pure (f x)

theorem discard {a : Action σ ε α} (h : Respects R a) :
  Respects R (Functor.discard a)
  := by
  rw [Functor.discard, map_const]
  exact h.map _

theorem look {f : σ → Except Crash α} (h : ∀ s t, R s t → f s = f t) :
  Respects R (Action.look f : Action σ ε α)
  := by
  intro s t hst
  rw [Action.look, on_of, on_of, h s t hst]
  cases f t with
  | ok x => exact .ok (.ok x) hst
  | error c => exact .crash c

theorem change {f : σ → Except Crash σ}
    (h : ∀ s t, R s t → (∃ c, f s = .error c ∧ f t = .error c) ∨
      ∃ s' t', f s = .ok s' ∧ f t = .ok t' ∧ R s' t') :
  Respects R (Action.change f : Action σ ε Unit)
  := by
  intro s t hst
  rw [Action.change, on_of, on_of]
  obtain ⟨c, hs, ht⟩ | ⟨s', t', hs, ht, hst'⟩ := h s t hst
  · rw [hs, ht]
    exact .crash c
  · rw [hs, ht]
    exact .ok (.ok ()) hst'

end Respects

end Action

open CrossHart.Action

/-- Guests with related harts and related memories. -/
def Guest.Rel (H : Hart → Hart → Prop) (M : Memory → Memory → Prop) (g g' : Guest) : Prop :=
  H g.hart g'.hart ∧ M g.memory g'.memory

/-- Loads, stores and the checks of atomics respect a relation between memories. -/
structure Memory.IsCongruence (M : Memory → Memory → Prop) : Prop where
  locate : ∀ addr access, Respects M (Memory.locate addr access)
  load : ∀ addr size, Respects M (Memory.load addr size)
  store : ∀ addr size v, Respects M (Memory.store addr size v)

theorem Memory.isCongruence_eq :
  Memory.IsCongruence Eq
  := by
  have h {α : Type} (a : Action Memory Memory.Fault α) : Respects Eq a := by
    rintro m _ rfl
    cases a.on m with
    | ok r => exact .ok r.1 rfl
    | error c => exact .crash c
  exact ⟨fun _ _ => h _, fun _ _ => h _, fun _ _ _ => h _⟩

/-- The hart with all integer registers replaced. -/
def Hart.withFile (h : Hart) (x : Vector Word 32) : Hart :=
  { h with regs := { h.regs with x } }

/-- Related harts agree on what instructions read, apart from the count of instructions, and stay
related by what they write. -/
structure Hart.IsPartialCongruence (H : Hart → Hart → Prop) : Prop where
  file : ∀ h k, H h k → h.regs.x = k.regs.x
  withFile : ∀ h k x, H h k → H (h.withFile x) (k.withFile x)
  reservation : ∀ h k, H h k → h.reservation = k.reservation
  reserve : ∀ h k addr, H h k → H { h with reservation := addr } { k with reservation := addr }

/-- Related harts agree on what instructions read, and stay related by what they write. -/
structure Hart.IsCongruence (H : Hart → Hart → Prop) : Prop extends Hart.IsPartialCongruence H where
  instret : ∀ h k, H h k → h.instret = k.instret

namespace Guest

variable {ε : Type} {H : Hart → Hart → Prop} {M : Memory → Memory → Prop}

/-- An action on memory respects what it respects on memories, whatever the harts. -/
theorem respects_onMemory {α : Type} {raise : Memory.Fault → ε}
    {a : Action Memory Memory.Fault α} (h : Respects M a) :
  Respects (Rel H M) (onMemory raise a)
  := by
  rintro ⟨hart, memory⟩ ⟨hart', memory'⟩ ⟨hhart, hmemory⟩
  rw [onMemory, on_of, on_of]
  obtain ⟨c, hs, ht⟩ | ⟨r, s', t', hs, ht, hmem⟩ := (h memory memory' hmemory).elim
  · dsimp only
    rw [hs, ht]
    exact .crash c
  · dsimp only
    rw [hs, ht]
    cases r with
    | ok x => exact .ok (.ok x) ⟨hhart, hmem⟩
    | error e => exact .ok (.error (raise e)) ⟨hhart, hmem⟩

variable (hc : Hart.IsPartialCongruence H)

include hc

theorem respects_reg (i : Nat) :
  Respects (Rel H M) (reg i : Action Guest ε Word)
  := by
  apply Respects.look
  intro g g' h
  rw [Registers.get, Registers.get, hc.file _ _ h.1]

theorem respects_setReg (i : Nat) (v : Word) :
  Respects (Rel H M) (setReg i v : Action Guest ε Unit)
  := by
  apply Respects.change
  rintro ⟨h, m⟩ ⟨h', m'⟩ ⟨hhart, hmemory⟩
  dsimp only
  rw [Registers.set, Registers.set]
  split
  · exact .inr ⟨_, _, rfl, rfl, hhart, hmemory⟩
  split
  · refine .inr ⟨_, _, rfl, rfl, ?_, hmemory⟩
    have hset := hc.withFile h h' (h.regs.x.set i v) hhart
    have hfile : h'.regs.x.set i v = h.regs.x.set i v := by rw [hc.file h h' hhart]
    rw [Hart.withFile, Hart.withFile, ← hfile] at hset
    rw [← hfile]
    exact hset
  · exact .inl ⟨_, rfl, rfl⟩

theorem respects_reservation :
  Respects (Rel H M) (reservation : Action Guest ε Word)
  := by
  apply Respects.look
  intro g g' h
  rw [hc.reservation _ _ h.1]

theorem respects_reserve (addr : Word) :
  Respects (Rel H M) (reserve addr : Action Guest ε Unit)
  := by
  apply Respects.change
  rintro g g' h
  exact .inr ⟨_, _, rfl, rfl, hc.reserve _ _ addr h.1, h.2⟩

omit hc in
theorem respects_instret (count : ∀ h k, H h k → h.instret = k.instret) :
  Respects (Rel H M) (instret : Action Guest ε Word)
  := by
  apply Respects.look
  intro g g' h
  rw [count _ _ h.1]

end Guest

/-- Whether an instruction reads a counter. -/
def Isa.Instr.readsCounter : Isa.Instr → Bool
  | .csr access _ rs1 number => Hart.isCounter number && !Hart.writesCsr access rs1
  | _ => false

namespace Hart

open Isa

/-! ### Instructions without the program counter -/

/-- What an instruction that does not end a block does before it goes on to the next one. -/
def effect (d : Located) : Effect Unit :=
  match d.instr with
  | .lui rd imm => Guest.setReg rd imm
  | .auipc rd imm => Guest.setReg rd (d.pc + imm)
  | .load op rd rs1 imm => do
    let base ← Guest.reg rs1
    let raw ← load (base + imm) op.size
    Guest.setReg rd (op.extend raw)
  | .store op rs1 rs2 imm => do
    let base ← Guest.reg rs1
    let v ← Guest.reg rs2
    store (base + imm) op.size v
  | .opImm op rd rs1 imm => do
    let a ← Guest.reg rs1
    Guest.setReg rd (op.eval a imm)
  | .opImm32 op rd rs1 imm => do
    let a ← Guest.reg rs1
    Guest.setReg rd (op.eval32 a imm)
  | .op op rd rs1 rs2 => do
    let a ← Guest.reg rs1
    let b ← Guest.reg rs2
    Guest.setReg rd (op.eval a b)
  | .op32 op rd rs1 rs2 => do
    let a ← Guest.reg rs1
    let b ← Guest.reg rs2
    Guest.setReg rd (op.eval32 a b)
  | .amo op width rd rs1 rs2 _ _ => atomic op width rd rs1 rs2
  | .csr op rd rs1 csr => accessCsr d.raw op rd rs1 csr
  | .fpLoad .. | .fpStore .. | .fpFma .. | .fpOp .. => throw (.illegal d.raw)
  | _ => pure ()

theorem step_eq_effect {d : Located} (h : d.instr.endsBlock = false) :
  step d = effect d >>= fun _ => goto d.next
  := by
  obtain ⟨pc, raw, i, width⟩ := d
  unfold step effect
  cases i with
  | jal | jalr | branch | ecall | ebreak | fenceI => cases h
  | fence | fpLoad | fpStore | fpFma | fpOp => rfl
  | _ => simp only [bind_assoc]

section

variable {H : Hart → Hart → Prop} {M : Memory → Memory → Prop} (hc : Hart.IsPartialCongruence H)
  (hm : Memory.IsCongruence M)

include hm

theorem respects_load (addr : Word) (size : Nat) :
  Respects (Guest.Rel H M) (load addr size)
  := Guest.respects_onMemory (hm.load addr size)

theorem respects_store (addr : Word) (size : Nat) (v : Word) :
  Respects (Guest.Rel H M) (store addr size v)
  := Guest.respects_onMemory (hm.store addr size v)

include hc

theorem respects_loadReserved (width : Width) (rd : Nat) (addr : Word) :
  Respects (Guest.Rel H M) (loadReserved width rd addr)
  := by
  apply (respects_load hm addr width.size).bind
  intro v
  exact (Guest.respects_reserve hc addr).bind fun _ => Guest.respects_setReg hc rd _

theorem respects_storeConditional (width : Width) (rd rs2 : Nat) (addr : Word) :
  Respects (Guest.Rel H M) (storeConditional width rd rs2 addr)
  := by
  apply (Guest.respects_reservation hc).bind
  intro reserved
  apply (Guest.respects_reserve hc noReservation).bind
  intro _
  split
  · apply (Guest.respects_reg hc rs2).bind
    intro v
    exact (respects_store hm addr width.size v).bind fun _ => Guest.respects_setReg hc rd 0
  · exact Guest.respects_setReg hc rd 1

theorem respects_readModifyWrite (op : AmoOp) (width : Width) (rd rs2 : Nat) (addr : Word) :
  Respects (Guest.Rel H M) (readModifyWrite op width rd rs2 addr)
  := by
  unfold readModifyWrite
  apply Respects.bind (Respects.discard (Guest.respects_onMemory (hm.locate addr .write)))
  intro _
  apply (Guest.respects_onMemory (hm.load addr width.size)).bind
  intro raw
  apply (Guest.respects_reg hc rs2).bind
  intro src
  apply (Guest.respects_onMemory (hm.store addr width.size _)).bind
  intro _
  exact Guest.respects_setReg hc rd _

theorem respects_atomic (op : AmoOp) (width : Width) (rd rs1 rs2 : Nat) :
  Respects (Guest.Rel H M) (atomic op width rd rs1 rs2)
  := by
  apply (Guest.respects_reg hc rs1).bind
  intro addr
  dsimp only
  split
  on_goal 1 => refine (Respects.throw _).bind fun _ => ?_
  all_goals
    split
    · exact respects_loadReserved hc hm width rd addr
    · exact respects_storeConditional hc hm width rd rs2 addr
    · exact respects_readModifyWrite hc hm op width rd rs2 addr

/-- What an instruction does before it goes on to the next one respects related guests, if their
counts agree where it reads one. -/
theorem respects_effect_of (d : Located)
    (count : d.instr.readsCounter = true → ∀ h k, H h k → h.instret = k.instret) :
  Respects (Guest.Rel H M) (effect d)
  := by
  unfold effect
  cases hinstr : d.instr with
  | lui rd imm => exact Guest.respects_setReg hc rd _
  | auipc rd imm => exact Guest.respects_setReg hc rd _
  | load op rd rs1 imm =>
    apply (Guest.respects_reg hc rs1).bind
    intro base
    exact (respects_load hm _ op.size).bind fun raw => Guest.respects_setReg hc rd _
  | store op rs1 rs2 imm =>
    apply (Guest.respects_reg hc rs1).bind
    intro base
    exact (Guest.respects_reg hc rs2).bind fun v => respects_store hm _ op.size v
  | opImm op rd rs1 imm =>
    exact (Guest.respects_reg hc rs1).bind fun a => Guest.respects_setReg hc rd _
  | opImm32 op rd rs1 imm =>
    exact (Guest.respects_reg hc rs1).bind fun a => Guest.respects_setReg hc rd _
  | op op rd rs1 rs2 =>
    apply (Guest.respects_reg hc rs1).bind
    intro a
    exact (Guest.respects_reg hc rs2).bind fun b => Guest.respects_setReg hc rd _
  | op32 op rd rs1 rs2 =>
    apply (Guest.respects_reg hc rs1).bind
    intro a
    exact (Guest.respects_reg hc rs2).bind fun b => Guest.respects_setReg hc rd _
  | amo op width rd rs1 rs2 aq rl => exact respects_atomic hc hm op width rd rs1 rs2
  | csr op rd rs1 csr =>
    dsimp only
    unfold accessCsr
    split
    case isTrue hreads =>
      rw [hinstr] at count
      exact (Guest.respects_instret (count hreads)).bind fun n => Guest.respects_setReg hc rd n
    case isFalse => exact Respects.throw _
  | fpLoad | fpStore | fpFma | fpOp => exact Respects.throw _
  | _ => exact Respects.pure ()

end

theorem respects_effect {H : Hart → Hart → Prop} {M : Memory → Memory → Prop}
    (hc : Hart.IsCongruence H) (hm : Memory.IsCongruence M) (d : Located) :
  Respects (Guest.Rel H M) (effect d)
  := respects_effect_of hc.toIsPartialCongruence hm d fun _ => hc.instret

end Hart

end CrossHart
