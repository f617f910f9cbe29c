import CrossHart.Hart.Service
import CrossHart.Proofs.Hart.Related

/-!
# Instructions charged in advance

Compiled code charges the budget for all instructions of a block at once and does not keep the
program counter.  The guest that single steps would see at an instruction is the one `before` it:
what was charged for the instructions still to come is given back, and the program counter points
at the instruction.
-/

namespace CrossHart

open CrossHart.Action Isa

namespace Guest

/-- The guest as single steps see it at `pc`, with `n` instructions to come that were charged. -/
def before (g : Guest) (n : Nat) (pc : Word) : Guest :=
  (g.withBudget (g.hart.budget + BitVec.ofNat 64 n)).goto pc

/-- The guest after one more instruction was charged. -/
def charged (g : Guest) : Guest :=
  g.withBudget (g.hart.budget - 1)

@[simp]
theorem value_before (g : Guest) (n : Nat) (pc : Word) (i : Nat) :
  (g.before n pc).value i = g.value i
  := rfl

theorem put_before (g : Guest) (n : Nat) (pc : Word) (i : Nat) (v : Word) :
  (g.before n pc).put i v = (g.put i v).before n pc
  := by
  simp only [put, before, goto, withBudget, Registers.put]
  split <;> rfl

@[simp]
theorem goto_before (g : Guest) (n : Nat) (pc pc' : Word) :
  (g.before n pc).goto pc' = g.before n pc'
  := rfl

@[simp]
theorem budget_put (g : Guest) (i : Nat) (v : Word) :
  (g.put i v).hart.budget = g.hart.budget
  := rfl

/-- A guest whose budget was put back to what it is with instructions charged. -/
theorem before_withBudget {g : Guest} {b : Word} {n : Nat}
    (h : g.hart.budget = b + BitVec.ofNat 64 n) (pc : Word) :
  (g.withBudget b).before n pc = g.goto pc
  := by
  simp only [before, withBudget, goto, ← h]

theorem before_zero (g : Guest) (pc : Word) :
  g.before 0 pc = g.goto pc
  := by
  simp [before, withBudget, goto]

/-- An instruction that was to come is charged when it is done. -/
theorem charged_before (g : Guest) (n : Nat) (pc : Word) :
  (g.before (n + 1) pc).charged = g.before n pc
  := by
  have h : g.hart.budget + BitVec.ofNat 64 (n + 1) - 1 = g.hart.budget + BitVec.ofNat 64 n := by
    rw [BitVec.ofNat_add, ← BitVec.add_assoc]
    exact BitVec.add_sub_cancel _ _
  simp only [charged, before, goto, withBudget, h]

/-! ### Actions on memory -/

variable {ε α β : Type}

/-- An action that does not look at the hart and does not change it. -/
def IsMemoryAction (a : Action Guest ε α) : Prop :=
  ∃ f : Memory → Except Crash (Except ε α × Memory),
    ∀ g, a.on g = (f g.memory).map fun r => (r.1, { g with memory := r.2 })

theorem isMemoryAction_onMemory (raise : Memory.Fault → ε) (a : Action Memory Memory.Fault α) :
  IsMemoryAction (onMemory raise a)
  := by
  refine ⟨fun m => (a.on m).map fun r => (r.1.mapError raise, r.2), fun g => ?_⟩
  obtain ⟨hart, memory⟩ := g
  rw [onMemory, on_of]
  dsimp only
  cases a.on memory with
  | error c => rfl
  | ok r =>
    obtain ⟨x, m⟩ := r
    cases x <;> rfl

theorem IsMemoryAction.bind_pure {a : Action Guest ε α} (h : IsMemoryAction a) (f : α → β) :
  IsMemoryAction (a >>= fun x => pure (f x))
  := by
  obtain ⟨k, hk⟩ := h
  refine ⟨fun m => (k m).map fun r => (r.1.map f, r.2), fun g => ?_⟩
  rw [on_bind, hk]
  dsimp only
  cases k g.memory with
  | error c => rfl
  | ok r =>
    obtain ⟨x, m⟩ := r
    cases x <;> rfl

/-- An action on memory does the same before an instruction, and keeps registers and budget. -/
theorem IsMemoryAction.on_before {a : Action Guest ε α} (h : IsMemoryAction a) (g : Guest) (n : Nat)
    (pc : Word) :
  (∃ c, a.on g = .error c ∧ a.on (g.before n pc) = .error c) ∨
    ∃ r g', a.on g = .ok (r, g') ∧ a.on (g.before n pc) = .ok (r, g'.before n pc) ∧
      g'.hart = g.hart
  := by
  obtain ⟨f, hf⟩ := h
  rw [hf, hf]
  have hmemory : (g.before n pc).memory = g.memory := rfl
  rw [hmemory]
  cases f g.memory with
  | error c => exact .inl ⟨c, rfl, rfl⟩
  | ok r => exact .inr ⟨r.1, _, rfl, rfl, rfl⟩

end Guest

namespace Hart

/-! ### Effects at another address -/

/-- The relation between a hart with a known budget and the same hart at another address. -/
def Elsewhere (budget pc : Word) (h k : Hart) : Prop :=
  h.budget = budget ∧ k = { h with regs := { h.regs with pc } }

theorem isCongruence_elsewhere (budget pc : Word) :
  Hart.IsCongruence (Elsewhere budget pc)
  := by
  refine ⟨⟨?_, ?_, ?_, ?_⟩, ?_⟩
  · rintro h _ ⟨-, rfl⟩
    rfl
  · rintro h _ x ⟨hb, rfl⟩
    exact ⟨hb, rfl⟩
  · rintro h _ ⟨-, rfl⟩
    rfl
  · rintro h _ addr ⟨hb, rfl⟩
    exact ⟨hb, rfl⟩
  · rintro h _ ⟨-, rfl⟩
    rfl

/-- An instruction that does not end a block does the same wherever the program counter points; it
keeps the budget, and the program counter if it raises an exception. -/
theorem on_step_goto {d : Located} (h : d.instr.endsBlock = false) (g : Guest) (pc : Word) :
  (∃ c, (step d).on g = .error c ∧ (step d).on (g.goto pc) = .error c) ∨
  (∃ g' : Guest, (step d).on g = .ok (.ok .continue, g'.goto d.next) ∧
    (step d).on (g.goto pc) = .ok (.ok .continue, g'.goto d.next) ∧
    g'.hart.budget = g.hart.budget) ∨
  ∃ e, ∃ g' : Guest, (step d).on g = .ok (.error e, g') ∧ (step d).on (g.goto pc) = .ok (.error e, g'.goto pc) ∧
    g'.hart.budget = g.hart.budget
  := by
  have hrel : Guest.Rel (Elsewhere g.hart.budget pc) Eq g (g.goto pc) := ⟨⟨rfl, rfl⟩, rfl⟩
  have heffect := respects_effect (isCongruence_elsewhere g.hart.budget pc) Memory.isCongruence_eq d
    g (g.goto pc) hrel
  have hgoto {s t : Guest} (h : Guest.Rel (Elsewhere g.hart.budget pc) Eq s t) : t = s.goto pc := by
    obtain ⟨⟨-, hhart⟩, hmemory⟩ := h
    obtain ⟨hart, memory⟩ := t
    dsimp only at hhart hmemory
    rw [hhart, ← hmemory]
    rfl
  rw [step_eq_effect h, on_bind, on_bind]
  obtain ⟨c, hs, ht⟩ | ⟨r, s, t, hs, ht, hst⟩ := heffect.elim
  · rw [hs, ht]
    exact .inl ⟨c, rfl, rfl⟩
  · rw [hs, ht, hgoto hst]
    cases r with
    | ok x => exact .inr (.inl ⟨s, rfl, rfl, hst.1.1⟩)
    | error e => exact .inr (.inr ⟨e, s, rfl, rfl, hst.1.1⟩)

end Hart

/-! ### Exceptions -/

namespace Action

variable {σ ε α β : Type} {E : ε → Prop}

/-- An action throws only what satisfies a predicate. -/
def Throws (E : ε → Prop) (a : Action σ ε α) : Prop :=
  ∀ s e t, a.on s = .ok (.error e, t) → E e

namespace Throws

theorem pure (x : α) :
  Throws E (Pure.pure x : Action σ ε α)
  := fun _ _ _ h => (nomatch h)

theorem throw {e : ε} (h : E e) :
  Throws E (throw e : Action σ ε α)
  := by
  intro s e' t ht
  cases ht
  exact h

theorem look (f : σ → Except Crash α) :
  Throws E (Action.look f : Action σ ε α)
  := by
  intro s e t h
  rw [Action.look, on_of] at h
  cases hf : f s with
  | ok x =>
    rw [hf] at h
    cases h
  | error c =>
    rw [hf] at h
    cases h

theorem change (f : σ → Except Crash σ) :
  Throws E (Action.change f : Action σ ε Unit)
  := by
  intro s e t h
  rw [Action.change, on_of] at h
  cases hf : f s with
  | ok x =>
    rw [hf] at h
    cases h
  | error c =>
    rw [hf] at h
    cases h

theorem bind {a : Action σ ε α} {f : α → Action σ ε β} (h : Throws E a)
    (hf : ∀ x, Throws E (f x)) :
  Throws E (a >>= f)
  := by
  intro s e t ht
  rw [on_bind] at ht
  split at ht
  case h_1 x s' hs => exact hf x s' e t ht
  case h_2 e' s' hs =>
    cases ht
    exact h s e t hs
  case h_3 => cases ht

theorem map {a : Action σ ε α} (f : α → β) (h : Throws E a) :
  Throws E (f <$> a)
  := by
  rw [map_eq_pure_bind]
  exact h.bind fun x => pure (f x)

theorem discard {a : Action σ ε α} (h : Throws E a) :
  Throws E (Functor.discard a)
  := by
  rw [Functor.discard, map_const]
  exact h.map _

theorem onMemory {raise : Memory.Fault → ε} {a : Action Memory Memory.Fault α}
    (h : ∀ f, E (raise f)) :
  Throws E (Guest.onMemory raise a)
  := by
  rintro ⟨hart, memory⟩ e t ht
  rw [Guest.onMemory, on_of] at ht
  dsimp only at ht
  split at ht
  · cases ht
  · cases ht
  · cases ht
    exact h _

end Throws

end Action

namespace Hart

/-- Exceptions other than breakpoints. -/
def IsFault (e : Exception) : Prop :=
  e.cause ≠ .breakpoint

theorem isFault_ofFault (f : Memory.Fault) :
  IsFault (.ofFault f)
  := by
  obtain ⟨addr, access⟩ := f
  cases access <;> simp [IsFault, Exception.ofFault, Cause.ofAccess]

theorem throws_load (addr : Word) (size : Nat) :
  Throws IsFault (load addr size)
  := Throws.onMemory isFault_ofFault

theorem throws_store (addr : Word) (size : Nat) (v : Word) :
  Throws IsFault (store addr size v)
  := Throws.onMemory isFault_ofFault

theorem throws_reg (i : Nat) :
  Throws IsFault (Guest.reg i)
  := Throws.look _

theorem throws_setReg (i : Nat) (v : Word) :
  Throws IsFault (Guest.setReg i v)
  := Throws.change _

theorem throws_reserve (addr : Word) :
  Throws IsFault (Guest.reserve addr)
  := Throws.change _

theorem throws_loadReserved (width : Width) (rd : Nat) (addr : Word) :
  Throws IsFault (loadReserved width rd addr)
  := by
  apply (throws_load addr width.size).bind
  intro v
  exact (throws_reserve addr).bind fun _ => throws_setReg rd _

theorem throws_storeConditional (width : Width) (rd rs2 : Nat) (addr : Word) :
  Throws IsFault (storeConditional width rd rs2 addr)
  := by
  have hreservation : Throws IsFault Guest.reservation := Throws.look _
  apply hreservation.bind
  intro reserved
  apply (throws_reserve noReservation).bind
  intro _
  split
  · apply (throws_reg rs2).bind
    intro v
    exact (throws_store addr width.size v).bind fun _ => throws_setReg rd 0
  · exact throws_setReg rd 1

theorem throws_readModifyWrite (op : AmoOp) (width : Width) (rd rs2 : Nat) (addr : Word) :
  Throws IsFault (readModifyWrite op width rd rs2 addr)
  := by
  have hmem {α : Type} (a : Action Memory Memory.Fault α) :
      Throws IsFault (Guest.onMemory (fun _ => ⟨.storeAccessFault, addr⟩) a) :=
    Throws.onMemory fun _ => by simp [IsFault]
  unfold readModifyWrite
  apply (Throws.discard (hmem _)).bind
  intro _
  apply (hmem (Memory.load addr width.size)).bind
  intro raw
  apply (throws_reg rs2).bind
  intro src
  exact (hmem _).bind fun _ => throws_setReg rd _

theorem throws_atomic (op : AmoOp) (width : Width) (rd rs1 rs2 : Nat) :
  Throws IsFault (atomic op width rd rs1 rs2)
  := by
  have haligned (addr : Word) :
      IsFault ⟨if op = .lr then .loadMisaligned else .storeMisaligned, addr⟩ := by
    dsimp only [IsFault]
    split <;> simp
  apply (throws_reg rs1).bind
  intro addr
  dsimp only
  split
  on_goal 1 => refine (Throws.throw (haligned addr)).bind fun _ => ?_
  all_goals
    split
    · exact throws_loadReserved width rd addr
    · exact throws_storeConditional width rd rs2 addr
    · exact throws_readModifyWrite op width rd rs2 addr

/-- An instruction that does not end a block raises no breakpoint. -/
theorem throws_effect (d : Located) :
  Throws IsFault (effect d)
  := by
  have hill (raw : BitVec 32) : IsFault (.illegal raw) := by
    simp [IsFault, Exception.illegal]
  unfold effect
  cases d.instr with
  | lui rd imm => exact throws_setReg rd _
  | auipc rd imm => exact throws_setReg rd _
  | load op rd rs1 imm =>
    apply (throws_reg rs1).bind
    intro base
    exact (throws_load _ op.size).bind fun _ => throws_setReg rd _
  | store op rs1 rs2 imm =>
    apply (throws_reg rs1).bind
    intro base
    exact (throws_reg rs2).bind fun v => throws_store _ op.size v
  | opImm op rd rs1 imm => exact (throws_reg rs1).bind fun _ => throws_setReg rd _
  | opImm32 op rd rs1 imm => exact (throws_reg rs1).bind fun _ => throws_setReg rd _
  | op op rd rs1 rs2 =>
    apply (throws_reg rs1).bind
    intro a
    exact (throws_reg rs2).bind fun _ => throws_setReg rd _
  | op32 op rd rs1 rs2 =>
    apply (throws_reg rs1).bind
    intro a
    exact (throws_reg rs2).bind fun _ => throws_setReg rd _
  | amo op width rd rs1 rs2 aq rl => exact throws_atomic op width rd rs1 rs2
  | csr op rd rs1 csr =>
    dsimp only
    unfold accessCsr
    split
    · have hinstret : Throws IsFault Guest.instret := Throws.look _
      exact hinstret.bind fun n => throws_setReg rd n
    · exact Throws.throw (hill _)
  | fpLoad | fpStore | fpFma | fpOp => exact Throws.throw (hill _)
  | _ => exact Throws.pure ()

/-- An instruction that does not end a block goes on to the next one. -/
theorem eq_continue_of_step {d : Located} (ends : d.instr.endsBlock = false) {g s : Guest}
    {x : StepExit} (h : (step d).on g = .ok (.ok x, s)) :
  x = .continue
  := by
  rw [step_eq_effect ends] at h
  obtain ⟨_, t, -, h⟩ := on_bind_eq_ok.mp h
  rw [on_goto] at h
  cases h
  rfl

theorem isFault_of_step {d : Located} (ends : d.instr.endsBlock = false) {g s : Guest}
    {e : Exception} (h : (step d).on g = .ok (.error e, s)) :
  IsFault e
  := by
  have hgoto : Throws IsFault (goto d.next) := by
    intro t e u h
    rw [on_goto] at h
    cases h
  rw [step_eq_effect ends] at h
  exact (throws_effect d).bind (fun _ => hgoto) g e s h

/-! ### Single steps one after the other -/

/-- Carrying out instructions one after the other, up to the first that raises an exception or
gives up control.  Each instruction that is carried out is charged, and so is a breakpoint. -/
def steps : List Located → Guest → Except Crash (Except Exception StepExit × Guest)
  | [], g => .ok (.ok .continue, g)
  | d :: rest, g =>
    match (step d).on g with
    | .error crash => .error crash
    | .ok (.ok .continue, g) => steps rest g.charged
    | .ok (.ok exit, g) => .ok (.ok exit, g.charged)
    | .ok (.error e, g) => .ok (.error e, if e.cause = .breakpoint then g.charged else g)

end Hart

end CrossHart
