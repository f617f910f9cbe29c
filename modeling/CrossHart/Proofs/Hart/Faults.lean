import CrossHart.Proofs.Hart.Steps
import CrossHart.Proofs.Memory.Atomicity

/-!
# What an exception leaves behind

An instruction that raises an exception has changed no register and no byte.  It looks first, then
makes the one access that can fault, and changes registers after it.  A store-conditional alone gives up
its reservation before its access.
-/

namespace CrossHart

open CrossHart.Action Isa

/-! ### Actions that change nothing before they throw -/

namespace Action

variable {σ ε α β : Type} {K : σ → σ → Prop}

/-- An action leads to related states, whether it throws or not. -/
def Keeps (K : σ → σ → Prop) (a : Action σ ε α) : Prop :=
  ∀ s r t, a.on s = .ok (r, t) → K s t

/-- An action leads to related states when it throws. -/
def Reverts (K : σ → σ → Prop) (a : Action σ ε α) : Prop :=
  ∀ s e t, a.on s = .ok (.error e, t) → K s t

theorem Keeps.bind (trans : ∀ s t u, K s t → K t u → K s u) {a : Action σ ε α}
    {f : α → Action σ ε β} (h : Keeps K a) (hf : ∀ x, Keeps K (f x)) :
  Keeps K (a >>= f)
  := by
  intro s r u hu
  cases r with
  | ok y =>
    obtain ⟨x, t, ht, hu⟩ := on_bind_eq_ok.mp hu
    exact trans s t u (h s _ t ht) (hf x t _ u hu)
  | error e =>
    obtain hu | ⟨x, t, ht, hu⟩ := on_bind_eq_error.mp hu
    · exact h s _ u hu
    · exact trans s t u (h s _ t ht) (hf x t _ u hu)

theorem Keeps.look (refl : ∀ s, K s s) (f : σ → Except Crash α) :
  Keeps K (Action.look f : Action σ ε α)
  := by
  intro s r t h
  rw [Action.look, on_of] at h
  cases hf : f s with
  | ok x =>
    rw [hf] at h
    cases h
    exact refl s
  | error c =>
    rw [hf] at h
    cases h

theorem Keeps.discard {a : Action σ ε α} (h : Keeps K a) :
  Keeps K (Functor.discard a)
  := by
  intro s r t ht
  cases r with
  | ok u =>
    obtain ⟨x, hx⟩ := Memory.on_discard_eq_ok.mp ht
    exact h s _ t hx
  | error e => exact h s _ t (Memory.on_discard_eq_error.mp ht)

namespace Reverts

theorem throw (refl : ∀ s, K s s) (e : ε) :
  Reverts K (throw e : Action σ ε α)
  := by
  intro s e' t h
  cases h
  exact refl s

/-- Before an action that throws, another one may look. -/
theorem after (trans : ∀ s t u, K s t → K t u → K s u) {a : Action σ ε α} {f : α → Action σ ε β}
    (h : Keeps K a) (hf : ∀ x, Reverts K (f x)) :
  Reverts K (a >>= f)
  := by
  intro s e u hu
  obtain hu | ⟨x, t, ht, hu⟩ := on_bind_eq_error.mp hu
  · exact h s _ u hu
  · exact trans s t u (h s _ t ht) (hf x t e u hu)

/-- After an action that did not throw, others may do what they like if they do not throw. -/
theorem before {a : Action σ ε α} {f : α → Action σ ε β} (h : Reverts K a)
    (hf : ∀ x, Throws (fun _ => False) (f x)) :
  Reverts K (a >>= f)
  := by
  intro s e u hu
  obtain hu | ⟨x, t, -, hu⟩ := on_bind_eq_error.mp hu
  · exact h s e u hu
  · exact (hf x t e u hu).elim

end Reverts

theorem Keeps.reverts {a : Action σ ε α} (h : Keeps K a) :
  Reverts K a
  := fun s _ t => h s _ t

theorem Throws.onMemory_of {F : Memory.Fault → Prop} {E : ε → Prop} {raise : Memory.Fault → ε}
    {a : Action Memory Memory.Fault α} (h : Throws F a) (hraise : ∀ f, F f → E (raise f)) :
  Throws E (Guest.onMemory raise a)
  := by
  rintro ⟨hart, memory⟩ e g' hg'
  rw [Guest.onMemory, on_of] at hg'
  dsimp only at hg'
  split at hg'
  case h_1 => cases hg'
  case h_2 => cases hg'
  case h_3 f memory' ha =>
    cases hg'
    exact hraise f (h _ _ _ ha)

theorem Throws.reverts {a : Action σ ε α} (h : Throws (fun _ => False) a) :
  Reverts K a
  := fun s e t ht => (h s e t ht).elim

end Action

/-! ### Memory -/

namespace Memory

/-- Neither RAM nor a device was written. -/
structure Unwritten (m m' : Memory) : Prop where
  ram : m'.space.ram = m.space.ram
  devices : m'.space.regions.map (·.device.history.written) =
    m.space.regions.map (·.device.history.written)

theorem Unwritten.refl (m : Memory) :
  Unwritten m m
  := ⟨rfl, rfl⟩

theorem Unwritten.trans (m m' m'' : Memory) (h : Unwritten m m') (h' : Unwritten m' m'') :
  Unwritten m m''
  := ⟨h'.ram.trans h.ram, h'.devices.trans h.devices⟩

theorem Unwritten.of_space {m m' : Memory} (h : m'.space = m.space) :
  Unwritten m m'
  := by
  constructor <;> rw [h]

theorem keeps_locate (addr : Word) (access : Access) :
  Keeps Unwritten (locate addr access)
  := fun m _ _ h => .of_space ((m.locate_translates addr access).post_of_eq h).1

/-- A device notes that it was read. -/
theorem keeps_readAt (b : Backing) (size : Nat) :
  Keeps Unwritten (readAt b size)
  := by
  rintro ⟨t, s, p⟩ r m' h
  rw [readAt, on_of] at h
  dsimp only at h
  cases hread : s.read b size with
  | error c =>
    rw [hread] at h
    cases h
  | ok result =>
    obtain ⟨value, s'⟩ := result
    rw [hread] at h
    cases h
    cases b with
    | ram position =>
      unfold Space.read at hread
      dsimp only at hread
      split at hread
      · cases hread
        exact .refl _
      · cases hread
    | device i offset =>
      unfold Space.read at hread
      dsimp only at hread
      split at hread
      · cases hread
      case h_2 region hregion =>
        cases hread
        obtain ⟨hi, rfl⟩ := List.getElem?_eq_some_iff.mp hregion
        have hlength : i < (s.regions.map (·.device.history.written)).length := by
          rwa [List.length_map]
        have hsame := List.set_getElem_self hlength
        rw [List.getElem_map] at hsame
        refine ⟨rfl, ?_⟩
        dsimp only
        rw [List.map_set]
        exact hsame

theorem keeps_read (addr : Word) (size : Nat) (access : Access) :
  Keeps Unwritten (read addr size access)
  := by
  have hbyte (addr : Word) (size : Nat) :
      Keeps Unwritten (locate addr access >>= fun b => readAt b size) :=
    (keeps_locate addr access).bind Unwritten.trans fun b => keeps_readAt b size
  have hbytes (n i : Nat) (value : Word) : Keeps Unwritten (readEach addr access n i value) := by
    induction n generalizing i value with
    | zero =>
      intro m r m' h
      cases h
      exact .refl m
    | succ n ih =>
      rw [readEach, ← bind_assoc]
      refine (hbyte _ 1).bind Unwritten.trans fun byte => ?_
      refine Keeps.bind Unwritten.trans ?_ fun shift => ih _ _
      intro m r m' h
      cases hshift : byteShift i with
      | ok shift =>
        rw [hshift] at h
        cases h
        exact .refl m
      | error c =>
        rw [hshift] at h
        cases h
  unfold read
  split
  · exact hbytes _ _ _
  · exact hbyte addr size

theorem reverts_store (addr : Word) {size : Nat} (small : size ≤ 8) (value : Word) :
  Reverts Unwritten (store addr size value)
  := fun _ _ _ h => .of_space (space_of_store_error small h)

theorem Lookaside.Translates.eq_fault {t t' : Lookaside} {s : Space} {p p' : Policy} {addr : Word}
    {access : Access} {f : Fault} (h : Translates t s p addr access (.error f) t' p') :
  f = ⟨addr, access⟩
  := by
  cases h <;> rfl

theorem throws_locate (addr : Word) (access : Access) :
  Throws (fun f => f.access = access) (locate addr access)
  := by
  intro m f m' h
  rw [((m.locate_translates addr access).post_of_eq h).2.eq_fault]

/-- The fault of a store is one of writing. -/
theorem throws_store (addr : Word) (size : Nat) (value : Word) :
  Throws (fun f => f.access = .write) (store addr size value)
  := by
  have hlocate (addr : Word) := throws_locate addr .write
  have hwrite (b : Backing) (size : Nat) (value : Word) :
      Throws (fun f => f.access = .write) (writeAt b size value) := by
    intro m f m' h
    cases ((m.writeAt_done b size value).post_of_eq h).1
  have hbytes (n i : Nat) : Throws (fun f => f.access = .write) (writeEach addr value n i) := by
    induction n generalizing i with
    | zero => exact .pure _
    | succ n ih =>
      refine (hlocate _).bind fun b => Throws.bind ?_ fun shift => (hwrite b 1 _).bind fun _ => ih _
      intro m f m' h
      cases hshift : byteShift i <;> rw [hshift] at h <;> cases h
  unfold store
  split
  · exact (hlocate addr).discard.bind fun _ => (hlocate _).discard.bind fun _ => hbytes _ _
  · exact (hlocate addr).bind fun b => hwrite b size value

end Memory

/-! ### Instructions -/

namespace Guest

/-- The hart is the same, and nothing was written. -/
def Unwritten (g g' : Guest) : Prop :=
  g'.hart = g.hart ∧ g.memory.Unwritten g'.memory

theorem Unwritten.refl (g : Guest) :
  Unwritten g g
  := ⟨rfl, .refl _⟩

theorem Unwritten.trans (g g' g'' : Guest) (h : Unwritten g g') (h' : Unwritten g' g'') :
  Unwritten g g''
  := ⟨h'.1.trans h.1, h.2.trans _ _ _ h'.2⟩

variable {ε α : Type} {raise : Memory.Fault → ε} {a : Action Memory Memory.Fault α}

theorem keeps_onMemory (h : Keeps Memory.Unwritten a) :
  Keeps Unwritten (onMemory raise a)
  := by
  rintro ⟨hart, memory⟩ r g' hg'
  rw [onMemory, on_of] at hg'
  dsimp only at hg'
  split at hg'
  case h_1 => cases hg'
  case h_2 v memory' ha =>
    cases hg'
    exact ⟨rfl, h _ _ _ ha⟩
  case h_3 f memory' ha =>
    cases hg'
    exact ⟨rfl, h _ _ _ ha⟩

theorem reverts_onMemory (h : Reverts Memory.Unwritten a) :
  Reverts Unwritten (onMemory raise a)
  := by
  rintro ⟨hart, memory⟩ e g' hg'
  rw [onMemory, on_of] at hg'
  dsimp only at hg'
  split at hg'
  case h_1 => cases hg'
  case h_2 => cases hg'
  case h_3 f memory' ha =>
    cases hg'
    exact ⟨rfl, h _ _ _ ha⟩

theorem keeps_reg (i : Nat) :
  Keeps Unwritten (reg i : Action Guest ε Word)
  := Keeps.look Unwritten.refl _

theorem silent_setReg (i : Nat) (v : Word) :
  Throws (fun _ => False) (setReg i v : Action Guest ε Unit)
  := Throws.change _

end Guest

namespace Hart

open Guest

theorem keeps_load (addr : Word) (size : Nat) :
  Keeps Unwritten (load addr size)
  := keeps_onMemory (Memory.keeps_read addr size .read)

theorem reverts_store (addr : Word) {size : Nat} (small : size ≤ 8) (v : Word) :
  Reverts Unwritten (store addr size v)
  := reverts_onMemory (Memory.reverts_store addr small v)

theorem reverts_loadReserved (width : Width) (rd : Nat) (addr : Word) :
  Reverts Unwritten (loadReserved width rd addr)
  := by
  apply (keeps_load addr width.size).reverts.before
  intro v
  exact (Throws.change _).bind fun _ => silent_setReg rd _

theorem reverts_readModifyWrite (op : AmoOp) (width : Width) (rd rs2 : Nat) (addr : Word) :
  Reverts Unwritten (readModifyWrite op width rd rs2 addr)
  := by
  unfold readModifyWrite
  refine Reverts.after Unwritten.trans ?_ fun _ => ?_
  · exact Keeps.discard (keeps_onMemory (Memory.keeps_locate addr .write))
  refine Reverts.after Unwritten.trans ?_ fun raw => ?_
  · exact keeps_onMemory (Memory.keeps_read addr width.size .read)
  refine Reverts.after Unwritten.trans (keeps_reg rs2) fun src => ?_
  refine Reverts.before ?_ fun _ => silent_setReg rd _
  exact reverts_onMemory (Memory.reverts_store addr (size_le_width width) _)

/-- A store-conditional that faults held a reservation and has given it up. -/
theorem storeConditional_error {width : Width} {rd rs2 : Nat} {addr : Word} {g g' : Guest}
    {e : Exception} (h : (storeConditional width rd rs2 addr).on g = .ok (.error e, g')) :
  g.hart.reservation = addr ∧ e.cause = .storeAccessFault ∧
    Unwritten ⟨{ g.hart with reservation := noReservation }, g.memory⟩ g'
  := by
  have hstore (v : Word) : Throws (fun e => e.cause = .storeAccessFault) (store addr width.size v) := by
    unfold store
    refine Throws.onMemory_of (Memory.throws_store addr width.size v) fun f hf => ?_
    change Cause.ofAccess f.access = _
    rw [hf]
    rfl
  obtain h | ⟨reserved, g₁, hg₁, h⟩ := on_bind_eq_error.mp h
  · cases h
  cases hg₁
  obtain h | ⟨_, g₂, hg₂, h⟩ := on_bind_eq_error.mp h
  · cases h
  cases hg₂
  split at h
  case isFalse => exact (silent_setReg rd 1 _ e g' h).elim
  case isTrue hreserved =>
    obtain h | ⟨v, g₃, hg₃, h⟩ := on_bind_eq_error.mp h
    · exact (Throws.look (E := fun _ => False) _ _ e g' h).elim
    obtain h | ⟨_, g₄, -, h⟩ := on_bind_eq_error.mp h
    · refine ⟨hreserved, hstore v _ e g' h, ?_⟩
      have hreg := keeps_reg rs2 _ _ _ hg₃
      exact hreg.trans _ _ _ (reverts_store addr (size_le_width width) v _ e g' h)
    · exact (silent_setReg rd 0 _ e g' h).elim

/-- Whether an instruction is a store-conditional. -/
def isStoreConditional : Instr → Bool
  | .amo .sc .. => true
  | _ => false

/-- The hart after an exception: a store-conditional whose access faults has given up its reservation,
and all other harts are as before. -/
def afterFault (h : Hart) (i : Instr) (e : Exception) : Hart :=
  if isStoreConditional i = true ∧ e.cause = .storeAccessFault then { h with reservation := noReservation }
  else h

theorem afterFault_of_not {h : Hart} {i : Instr} {e : Exception}
    (not : ¬(isStoreConditional i = true ∧ e.cause = .storeAccessFault)) :
  h.afterFault i e = h
  := if_neg not

/-- What an exception leaves behind: the hart as it is after one, and all bytes.  A reservation that is
given up was one of an aligned address. -/
structure Faulted (i : Instr) (e : Exception) (g g' : Guest) : Prop where
  hart : g'.hart = g.hart.afterFault i e
  memory : g.memory.Unwritten g'.memory
  held : isStoreConditional i = true → e.cause = .storeAccessFault → g.hart.reservation.toNat % 4 = 0

theorem Faulted.of_unwritten {i : Instr} {e : Exception} {g g' : Guest} (h : Unwritten g g')
    (not : ¬(isStoreConditional i = true ∧ e.cause = .storeAccessFault)) :
  Faulted i e g g'
  := ⟨by rw [h.1, afterFault_of_not not], h.2, fun hi he => absurd ⟨hi, he⟩ not⟩

theorem atomic_error {op : AmoOp} {width : Width} {rd rs1 rs2 : Nat} (aq rl : Bool) {g g' : Guest}
    {e : Exception} (h : (atomic op width rd rs1 rs2).on g = .ok (.error e, g')) :
  Faulted (.amo op width rd rs1 rs2 aq rl) e g g'
  := by
  obtain h | ⟨addr, g₁, hreg, h⟩ := on_bind_eq_error.mp h
  · exact (Throws.look (E := fun _ => False) _ _ e g' h).elim
  obtain rfl : g = g₁ := Keeps.look (K := Eq) (fun _ => rfl) _ _ _ _ hreg
  dsimp only at h
  split at h
  case isTrue =>
    -- A misaligned address is noticed before anything else.
    obtain h | ⟨_, g₁, hthrow, -⟩ := on_bind_eq_error.mp h
    · cases h
      refine .of_unwritten (.refl _) ?_
      rintro ⟨-, hcause⟩
      dsimp only at hcause
      split at hcause <;> cases hcause
    · cases hthrow
  case isFalse haligned =>
    cases op with
    | lr => exact .of_unwritten (reverts_loadReserved width rd addr g e g' h) (by simp [isStoreConditional])
    | sc =>
      obtain ⟨hreserved, hcause, hhart, hmemory⟩ := storeConditional_error h
      refine ⟨?_, hmemory, fun _ _ => ?_⟩
      · rw [hhart, afterFault, if_pos ⟨rfl, hcause⟩]
      · rw [hreserved]
        cases width <;> simp only [Width.size] at haligned <;> omega
    | _ =>
      exact .of_unwritten (reverts_readModifyWrite _ width rd rs2 addr g e g' h)
        (by simp [isStoreConditional])

/-- What an instruction does before it goes on to the next one. -/
theorem effect_error {d : Located} {g g' : Guest} {e : Exception}
    (h : (effect d).on g = .ok (.error e, g')) :
  Faulted d.instr e g g'
  := by
  have hunwritten (reverts : Reverts Unwritten (effect d))
      (other : isStoreConditional d.instr = false) : Faulted d.instr e g g' := by
    refine .of_unwritten (reverts g e g' h) ?_
    rw [other]
    exact fun hsc => Bool.false_ne_true hsc.1
  unfold effect at hunwritten h
  cases hinstr : d.instr <;> rw [hinstr] at hunwritten h
  case amo => exact atomic_error _ _ h
  case load op rd rs1 imm =>
    refine hunwritten (Reverts.after Unwritten.trans (keeps_reg rs1) fun base => ?_) rfl
    exact (keeps_load _ op.size).reverts.before fun raw => silent_setReg rd _
  case store op rs1 rs2 imm =>
    refine hunwritten (Reverts.after Unwritten.trans (keeps_reg rs1) fun base => ?_) rfl
    refine Reverts.after Unwritten.trans (keeps_reg rs2) fun v => ?_
    exact reverts_store _ (size_le_storeOp op) v
  case csr op rd rs1 csr =>
    refine hunwritten ?_ rfl
    dsimp only
    unfold accessCsr
    split
    · exact ((Throws.look _).bind fun n => silent_setReg rd n).reverts
    · exact .throw Unwritten.refl _
  case lui => exact hunwritten (silent_setReg _ _).reverts rfl
  case auipc => exact hunwritten (silent_setReg _ _).reverts rfl
  case opImm => exact hunwritten ((Throws.look _).bind fun _ => silent_setReg _ _).reverts rfl
  case opImm32 => exact hunwritten ((Throws.look _).bind fun _ => silent_setReg _ _).reverts rfl
  case op =>
    exact hunwritten
      ((Throws.look _).bind fun _ => (Throws.look _).bind fun _ => silent_setReg _ _).reverts rfl
  case op32 =>
    exact hunwritten
      ((Throws.look _).bind fun _ => (Throws.look _).bind fun _ => silent_setReg _ _).reverts rfl
  case fpLoad => exact hunwritten (.throw Unwritten.refl _) rfl
  case fpStore => exact hunwritten (.throw Unwritten.refl _) rfl
  case fpFma => exact hunwritten (.throw Unwritten.refl _) rfl
  case fpOp => exact hunwritten (.throw Unwritten.refl _) rfl
  all_goals exact hunwritten (Throws.pure _).reverts rfl

theorem step_error {d : Located} {g g' : Guest} {e : Exception}
    (h : (step d).on g = .ok (.error e, g')) :
  Faulted d.instr e g g'
  := by
  cases hends : d.instr.endsBlock with
  | true =>
    obtain ⟨rfl, rfl⟩ := eq_of_step_error hends h
    refine .of_unwritten (.refl _) ?_
    rintro ⟨-, hcause⟩
    cases hcause
  | false =>
    rw [step_eq_effect hends] at h
    obtain h | ⟨_, g₁, -, h⟩ := on_bind_eq_error.mp h
    · exact effect_error h
    · exact (throws_goto _ _ _ _ h).elim

/-- An instruction that raises an exception leaves all registers, the program counter and all bytes as
they were, and changes the reservation exactly if it is a store-conditional whose access faults: that
one has lost a reservation. -/
theorem exception_leaves_state {d : Located} {g g' : Guest} {e : Exception}
    (h : (step d).on g = .ok (.error e, g')) :
  g'.hart.regs = g.hart.regs ∧ g'.memory.space.ram = g.memory.space.ram ∧
  g.memory.Unwritten g'.memory ∧ g'.hart = g.hart.afterFault d.instr e ∧
  (g'.hart.reservation ≠ g.hart.reservation ↔
    isStoreConditional d.instr = true ∧ e.cause = .storeAccessFault)
  := by
  obtain ⟨hhart, hmemory, hheld⟩ := step_error h
  by_cases hsc : isStoreConditional d.instr = true ∧ e.cause = .storeAccessFault
  · have hafter := hhart
    rw [afterFault, if_pos hsc] at hafter
    refine ⟨by rw [hafter], hmemory.ram, hmemory, hhart, fun _ => hsc, fun _ => ?_⟩
    rw [hafter]
    intro (hnone : noReservation = g.hart.reservation)
    have haligned := hheld hsc.1 hsc.2
    rw [← hnone] at haligned
    exact absurd haligned (by decide)
  · have hafter := hhart
    rw [afterFault, if_neg hsc] at hafter
    refine ⟨by rw [hafter], hmemory.ram, hmemory, hhart, fun hne => ?_, fun h => absurd h hsc⟩
    rw [hafter] at hne
    exact absurd rfl hne

/-- A guest with a page that it may not write, and an address in it in `x1`. -/
def readOnly : Guest where
  hart := { regs := ⟨(Vector.replicate 32 0).set 1 0x100 (Nat.succ_lt_succ (Nat.zero_lt_succ _)), 0⟩ }
  memory := ⟨{}, ⟨Bytes.zeros 0x1000, 0, []⟩, .ofFun fun q => q.access ≠ .write⟩

/-- The instruction `lr.w x2, (x1)`. -/
def reserving : Located :=
  ⟨0, 0x1000a12f, .amo .lr .word 2 1 0 false false, 4⟩

/-- The instruction `sc.w x3, x2, (x1)`. -/
def conditional : Located :=
  ⟨4, 0x1820a1af, .amo .sc .word 3 1 2 false false, 4⟩

/-- The instruction `amoadd.w x3, x2, (x1)`. -/
def adding : Located :=
  ⟨4, 0x0020a1af, .amo .add .word 3 1 2 false false, 4⟩

/-- An addition in place that is not allowed leaves the reservation of the load before it. -/
theorem exception_leaves_state_of_sum :
  adding.IsDecoded ∧ ∃ g g', (step reserving).on readOnly = .ok (.ok .continue, g) ∧
    (step adding).on g = .ok (.error ⟨.storeAccessFault, 0x100⟩, g') ∧
    g'.hart = g.hart ∧ g'.memory.space.ram = g.memory.space.ram
  := by
  have hreserve : ((step reserving).on readOnly).toOption.map (·.1) = some (.ok .continue) := by
    decide +kernel
  have hadd : ((step reserving >>= fun _ => step adding).on readOnly).toOption.map (·.1) =
      some (.error ⟨.storeAccessFault, 0x100⟩) := by decide +kernel
  obtain ⟨⟨r, g⟩, hg, rfl⟩ := Except.exists_of_toOption hreserve
  obtain ⟨⟨r, g'⟩, hg', rfl⟩ := Except.exists_of_toOption hadd
  rw [on_bind, hg] at hg'
  obtain ⟨-, hram, -, hhart, -⟩ := exception_leaves_state hg'
  exact ⟨rfl, g, g', hg, hg', hhart, hram⟩

/-- A store-conditional that is not allowed loses the reservation of the load before it. -/
theorem conditional_loses_reservation :
  conditional.IsDecoded ∧ ∃ g g', (step reserving).on readOnly = .ok (.ok .continue, g) ∧
    (step conditional).on g = .ok (.error ⟨.storeAccessFault, 0x100⟩, g') ∧
    g.hart.reservation = 0x100 ∧ g'.hart.reservation = noReservation
  := by
  have hreserve : ((step reserving).on readOnly).toOption.map
      (fun r => (r.1, r.2.hart.reservation)) = some (.ok .continue, 0x100) := by decide +kernel
  have hstore : ((step reserving >>= fun _ => step conditional).on readOnly).toOption.map
      (fun r => (r.1, r.2.hart.reservation)) =
        some (.error ⟨.storeAccessFault, 0x100⟩, noReservation) := by decide +kernel
  obtain ⟨⟨r, g⟩, hg, hheld⟩ := Except.exists_of_toOption hreserve
  obtain ⟨⟨r', g'⟩, hg', hlost⟩ := Except.exists_of_toOption hstore
  obtain ⟨rfl, hheld⟩ := Prod.mk.inj hheld
  obtain ⟨rfl, hlost⟩ := Prod.mk.inj hlost
  rw [on_bind, hg] at hg'
  exact ⟨rfl, g, g', hg, hg', hheld, hlost⟩

end Hart

end CrossHart
