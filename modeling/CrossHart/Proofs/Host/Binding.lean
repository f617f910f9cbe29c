import CrossHart.Proofs.Host.Sessions

/-!
# Binding guest registers

A guest register can be bound to the host register of a slot after its new value was put there.  By
then the slot's previous contents are gone.  They are still in the register file, unless they were
newer: then the new value is written to the register file in their place.
-/

namespace CrossHart.Host

theorem Runs.unique {env : Environment} {code : List Instr} {p q q' : Processor}
    (h : Runs env code p q) (h' : Runs env code p q') :
  q = q'
  := by
  cases h.symm.trans h'
  rfl

namespace Assignment

variable {a : Assignment} {env : Environment} {p : Processor} {g : Guest} {s t : Fin slotCount}

/-! ### Giving up a value -/

theorem spill_of_none (h : a.guestAt s = none) :
  a.spill s = ([], { a with slots := a.slots.set s {} s.isLt })
  := by
  have hguest : a.slots[s].guest = none := h
  simp only [spill, hguest]

theorem spill_of_some {i : Nat} (h : a.guestAt s = some i) (lt : i < 32) :
  a.spill s = (if (a.slots.get s).dirty then [writeBack s i] else [],
    { a with slots := a.slots.set s {} s.isLt, homes := a.homes.set i none lt })
  := by
  have hguest : a.slots[s].guest = some i := h
  simp only [spill, hguest, setHome, dif_pos lt]
  rfl

/-- The assignment without the slot of a guest register, whose value is given up. -/
def forget (a : Assignment) (i : Nat) : Assignment :=
  match a.home? i with
  | some t => (a.spill t).2
  | none => a

theorem Matched.forget (matched : a.Matched) (i : Nat) :
  (a.forget i).Matched
  := by
  unfold Assignment.forget
  split
  case h_1 t _ => exact matched.spill t
  case h_2 => exact matched

theorem guestAt_forget (matched : a.Matched) (i : Nat) (t : Fin slotCount) :
  (a.forget i).guestAt t = if a.guestAt t = some i then none else a.guestAt t
  := by
  unfold forget
  split
  case h_1 s hs =>
    rw [guestAt_spill]
    apply if_congr _ rfl rfl
    rw [← matched.home_iff, hs, Option.some.injEq]
  case h_2 hnone =>
    rw [if_neg]
    rw [← matched.home_iff, hnone]
    exact nofun

theorem dirty_forget (matched : a.Matched) {i : Nat} (ne : a.guestAt t ≠ some i) :
  ((a.forget i).slots.get t).dirty = (a.slots.get t).dirty
  := by
  unfold forget
  split
  case h_1 s hs =>
    rw [dirty_spill, if_neg]
    rintro rfl
    exact ne ((matched.home_iff i s).mp hs)
  case h_2 => rfl

theorem home?_forget (matched : a.Matched) (i : Nat) :
  (a.forget i).home? i = none
  := by
  cases h : (a.forget i).home? i with
  | none => rfl
  | some t =>
    have ht := ((matched.forget i).home_iff i t).mp h
    rw [guestAt_forget matched] at ht
    split at ht
    case isTrue => cases ht
    case isFalse hne => exact absurd ht hne

/-- A guest register whose value is given up has the one in the register file. -/
theorem Represents.forget (h : Represents env a p g) (matched : a.Matched) (i : Fin 32) :
  Represents env (a.forget i) p (g.withFile (g.file.set i (p.guest.file.get i) i.isLt))
  := by
  have hrest (file : Vector Word 32) : p.guest.withFile file = g.withFile file :=
    congrArg (·.withFile file) h.rest
  refine ⟨h.base, hrest _, fun t k ht => ?_, fun k hk => ?_⟩
  · rw [guestAt_forget matched] at ht
    split at ht
    case isTrue => cases ht
    case isFalse hne =>
      rw [h.held t k ht, Guest.file_withFile, Vector.get_set, if_neg]
      rintro rfl
      exact hne ht
  · rw [Guest.file_withFile, Vector.get_set]
    split
    case isTrue hik => rw [hik]
    case isFalse hik =>
      apply h.filed
      intro t ht
      have hne : a.guestAt t ≠ some i.val := by
        rw [ht]
        exact fun heq => hik (Fin.ext (Option.some.inj heq)).symm
      rw [← dirty_forget matched hne]
      apply hk
      rw [guestAt_forget matched, if_neg hne, ht]

/-! ### Overwriting a slot -/

/-- A guest register whose value is in its slot only. -/
def Newer (a : Assignment) (s : Fin slotCount) (i : Nat) : Prop :=
  a.guestAt s = some i ∧ (a.slots.get s).dirty = true

instance (a : Assignment) (s : Fin slotCount) (i : Nat) : Decidable (a.Newer s i) :=
  inferInstanceAs (Decidable (_ ∧ _))

theorem newer_forget (matched : a.Matched) {i j : Nat} (ne : i ≠ j) :
  (a.forget i).Newer s j ↔ a.Newer s j
  := by
  unfold Newer
  rw [guestAt_forget matched]
  split
  case isTrue hi => simp [hi, ne]
  case isFalse hi => rw [dirty_forget matched hi]

theorem Represents.load (h : Represents env a p g) (free : a.guestAt s = none) (v : Word) :
  Represents env a (p.setReg (slotReg s) v) g
  := by
  refine ⟨?_, h.rest, fun t i ht => ?_, h.filed⟩
  · rw [p.reg_setReg_of_ne (slotReg_ne_stateReg s), h.base]
  · rw [p.reg_setReg_of_ne, h.held t i ht]
    intro hr
    rw [← slotReg_injective hr, free] at ht
    cases ht

/-- A slot is emptied after its host register was overwritten.  What was newer is lost. -/
theorem Represents.spill_load (h : Represents env a p g) (matched : a.Matched) (s : Fin slotCount)
    (v : Word) :
  ∃ g' file,
    Runs env (a.spill s).1 (p.setReg (slotReg s) v) ((p.setReg (slotReg s) v).withGuest g') ∧
    Represents env (a.spill s).2 ((p.setReg (slotReg s) v).withGuest g') (g.withFile file) ∧
    ∀ k : Fin 32, file.get k = if a.Newer s k then v else g.file.get k
  := by
  by_cases hnewer : ∃ j : Fin 32, a.Newer s j
  case pos =>
    obtain ⟨j, hguest, hdirty⟩ := hnewer
    have hload : Represents env a (p.setReg (slotReg s) v) (g.put j v) := by
      apply (h.markDirty matched hguest v).congr (guestAt_markDirty a s).symm
      intro t
      rw [dirty_markDirty]
      split
      case isTrue hst => rw [← hst, hdirty]
      case isFalse => rfl
    have hpos : 0 < j.val := Nat.pos_of_ne_zero fun hzero => matched.pos s (by rw [hguest, hzero])
    rw [g.put_eq_withFile hpos j.isLt] at hload
    obtain ⟨g', hrun, hrep⟩ := hload.spill matched s
    refine ⟨g', _, hrun, hrep, fun k => ?_⟩
    rw [Vector.get_set]
    apply if_congr _ rfl rfl
    constructor
    · rintro rfl
      exact ⟨hguest, hdirty⟩
    · rintro ⟨hk, -⟩
      exact Fin.ext (Option.some.inj (hguest.symm.trans hk))
  case neg =>
    have hcode : (a.spill s).1 = [] := by
      cases hs : a.guestAt s with
      | none => rw [spill_of_none hs]
      | some j =>
        rw [spill_of_some hs (matched.lt hs)]
        exact if_neg fun hdirty => hnewer ⟨⟨j, matched.lt hs⟩, hs, hdirty⟩
    obtain ⟨g', hrun, hrep⟩ := h.spill matched s
    rw [hcode] at hrun ⊢
    obtain rfl : p.guest = g' := congrArg Processor.guest (Runs.nil.unique hrun)
    refine ⟨p.guest, g.file, Runs.nil, hrep.load ?_ v, fun k => ?_⟩
    · rw [guestAt_spill, if_pos rfl]
    · rw [if_neg fun hk => hnewer ⟨k, hk⟩]

/-! ### Binding -/

theorem slotOf?_slotReg (s : Fin slotCount) :
  slotOf? (slotReg s) = some s
  := by
  revert s
  decide

/-- A slot that is filled with a new value. -/
theorem markDirty_occupy (b : Assignment) {i : Nat} (lt : i < 32) (s : Fin slotCount) :
  (b.occupy s i).markDirty s = setHome
    { b with
      slots := b.slots.set s { guest := some i, dirty := true, lastUse := b.clock } s.isLt
      pinned := b.pinned.set s true s.isLt } i (some s)
  := by
  simp [occupy, markDirty, setHome, lt, ← Vector.getElem_val]

/-- Binding is giving up the old value, emptying the slot and filling it. -/
theorem setReg_eq (matched : a.Matched) {i : Nat} (pos : 0 < i) (lt : i < 32) (s : Fin slotCount) :
  a.setReg i (slotReg s) = .ok (((a.forget i).spill s).1,
    (((a.forget i).spill s).2.occupy s i).markDirty s)
  := by
  rw [setReg, if_neg (Nat.ne_of_gt pos), slotOf?_slotReg, home_eq a lt, forget,
    markDirty_occupy _ lt]
  cases hhome : a.home? i with
  | none =>
    have hguest : ¬ a.slots[s].guest = some i := fun h => by
      rw [(matched.home_iff i s).mpr h] at hhome
      cases hhome
    simp only [Except.ok_bind, hguest, if_false]
    rfl
  | some old =>
    have hold : a.guestAt old = some i := (matched.home_iff i old).mp hhome
    simp only [Except.ok_bind]
    rw [spill_of_some hold lt]
    by_cases hs : old = s
    · subst hs
      have hold' : a.slots[old].guest = some i := hold
      simp only [if_true, hold']
      rw [spill_of_none (by rw [guestAt_mk_set, if_pos rfl])]
      simp only [setHome, dif_pos lt, Vector.set_set]
      rfl
    · have hne : a.guestAt s ≠ some i := fun h => by
        rw [(matched.home_iff i s).mpr h] at hhome
        exact hs (Option.some.inj hhome).symm
      have hguest : guestAt { a with slots := a.slots.set old {} old.isLt } s = a.guestAt s := by
        rw [guestAt_mk_set, if_neg hs]
      have hguest' : ¬ (a.slots.set old {} old.isLt)[s].guest = some i := by
        rw [← hguest] at hne
        exact hne
      simp only [hs, if_false, hguest']
      cases hj : a.guestAt s with
      | none =>
        rw [spill_of_none (by rw [hguest, hj]),
          spill_of_none (by rw [guestAt_mk_set, if_neg hs, hj])]
        simp only [setHome, dif_pos lt, Vector.set_set]
        rfl
      | some j =>
        have hij : i ≠ j := fun h => hne (by rw [hj, h])
        have hjlt := matched.lt hj
        rw [spill_of_some (by rw [hguest, hj]) hjlt,
          spill_of_some (by rw [guestAt_mk_set, if_neg hs, hj]) hjlt]
        simp only [setHome, dif_pos lt, Vector.set_comm none none hij, Vector.set_set]
        rfl

/-- A guest register is bound to the host register of a slot with its new value.  A register that
was newer in the slot gets the same value, and all others keep theirs. -/
theorem setReg_spec (matched : a.Matched) {i : Fin 32} (pos : 0 < i.val) (s : Fin slotCount) :
  ∃ code b, a.setReg i (slotReg s) = .ok (code, b) ∧ b.Matched ∧ b.Newer s i ∧
    ∀ env p g v, Represents env a p g → ∃ q file, Runs env code (p.setReg (slotReg s) v) q ∧
      Represents env b q (g.withFile file) ∧
      ∀ k : Fin 32, file.get k = if k = i ∨ a.Newer s k then v else g.file.get k
  := by
  have hfree : ((a.forget i).spill s).2.guestAt s = none := by
    rw [guestAt_spill, if_pos rfl]
  have hhome : ((a.forget i).spill s).2.home? i = none := by
    rw [home?_spill (matched.forget i), home?_forget matched]
    split <;> rfl
  have hmatched := (matched.forget i).spill s
  have hoccupy := hmatched.occupy pos i.isLt hfree hhome
  have hguest : (((a.forget i).spill s).2.occupy s i).guestAt s = some i.val := by
    rw [guestAt_occupy, if_pos rfl]
  refine ⟨_, _, setReg_eq matched pos i.isLt s, hoccupy.markDirty (by simp [hguest]), ⟨?_, ?_⟩,
    fun env p g v h => ?_⟩
  · rw [guestAt_markDirty, hguest]
  · rw [dirty_markDirty, if_pos rfl]
  · obtain ⟨g', file, hrun, hrep, hfile⟩ := (h.forget matched i).spill_load (matched.forget i) s v
    have hagain : ((p.setReg (slotReg s) v).withGuest g').setReg (slotReg s) v =
        (p.setReg (slotReg s) v).withGuest g' :=
      congrArg (·.withGuest g') (Processor.setReg_setReg p (slotReg s) v v)
    have hbind := (hrep.occupy i hfree).markDirty hoccupy hguest v
    rw [Processor.setReg_setReg, Guest.put_eq_withFile _ pos i.isLt, hagain] at hbind
    refine ⟨_, file.set i v i.isLt, hrun, hbind, fun k => ?_⟩
    rw [Vector.get_set, hfile k, Guest.file_withFile, Vector.get_set]
    by_cases hik : i = k
    · rw [if_pos hik, if_pos (.inl hik.symm)]
    · rw [if_neg hik, if_neg hik]
      apply if_congr _ rfl rfl
      rw [newer_forget matched fun hval => hik (Fin.ext hval), or_iff_right (Ne.symm hik)]

/-! ### What answers presuppose -/

theorem exists_available_of_allocate {i : Nat} {r : Fin slotCount × List Instr × Assignment}
    (h : a.allocate i = .ok r) :
  ∃ s, a.Available s
  := by
  by_contra! hnone
  have hfree : a.freeSlot? = none := by
    apply List.find?_eq_none.mpr
    intro s _ hs
    exact hnone s (.inl (Option.isNone_iff_eq_none.mp hs))
  have hvictim : a.victim? = none := by
    have hnil : (Host.slots.filter fun s => !a.pinned[s]) = [] := by
      apply List.filter_eq_nil_iff.mpr
      intro s _ hs
      exact hnone s (.inr (by simpa [Vector.getElem_val] using hs))
    rw [victim?, hnil]
    rfl
  simp only [allocate, hfree, hvictim] at h
  cases h

/-- A guest register that can be asked for, and room for it. -/
structure Grants (a : Assignment) (i : Nat) : Prop where
  pos : 0 < i
  lt : i < 32
  room : a.home? i = none → ∃ s, a.Available s

theorem lt_of_home {i : Nat} {r : Option (Fin slotCount)} (h : a.home i = .ok r) :
  i < 32
  := by
  unfold home at h
  split at h
  case isTrue hlt => exact hlt
  case isFalse => cases h

theorem grants_of_home {i : Nat} {slot : Option (Fin slotCount)} (nonzero : i ≠ 0)
    (hhome : a.home i = .ok slot) (allocated : slot = none → ∃ r, a.allocate i = .ok r) :
  a.Grants i
  := by
  have hlt := lt_of_home hhome
  refine ⟨Nat.pos_of_ne_zero nonzero, hlt, fun homeless => ?_⟩
  rw [home_eq a hlt, homeless] at hhome
  obtain ⟨r, hr⟩ := allocated (Except.ok.inj hhome).symm
  exact exists_available_of_allocate hr

theorem grants_of_use {i : Nat} {r : Reg × List Instr × Assignment} (h : a.use i = .ok r) :
  a.Grants i
  := by
  unfold use at h
  split at h
  case isTrue => cases h
  case isFalse hzero =>
    obtain ⟨slot, hhome, h⟩ := Except.bind_eq_ok.mp h
    refine grants_of_home hzero hhome fun hnone => ?_
    rw [hnone] at h
    obtain ⟨x, hallocate, -⟩ := Except.bind_eq_ok.mp h
    exact ⟨x, hallocate⟩

theorem grants_of_define {i : Nat} {r : Reg × List Instr × Assignment} (h : a.define i = .ok r) :
  a.Grants i
  := by
  unfold define at h
  split at h
  case isTrue => cases h
  case isFalse hzero =>
    obtain ⟨slot, hhome, h⟩ := Except.bind_eq_ok.mp h
    refine grants_of_home hzero hhome fun hnone => ?_
    rw [hnone] at h
    obtain ⟨x, hallocate, -⟩ := Except.bind_eq_ok.mp h
    exact ⟨x, hallocate⟩

theorem lt_of_setMemory {i : Nat} {r : List Instr × Assignment} (pos : 0 < i)
    (h : a.setMemory i = .ok r) :
  i < 32
  := by
  rw [setMemory, if_neg (Nat.ne_of_gt pos)] at h
  obtain ⟨slot, hhome, -⟩ := Except.bind_eq_ok.mp h
  exact lt_of_home hhome

theorem clean_of_invalidate {b : Assignment} (h : a.invalidate = .ok b) :
  a.Clean
  := by
  unfold invalidate at h
  split at h
  case isTrue => cases h
  case isFalse hclean =>
    intro s
    apply Bool.eq_false_iff.mpr
    intro hdirty
    exact hclean (Vector.any_iff_exists.mpr ⟨s, s.isLt, hdirty⟩)

theorem slot_of_setReg {i : Nat} {r : Reg} {x : List Instr × Assignment} (pos : 0 < i)
    (h : a.setReg i r = .ok x) :
  i < 32 ∧ ∃ s, r = slotReg s
  := by
  rw [setReg, if_neg (Nat.ne_of_gt pos)] at h
  split at h
  case h_1 => cases h
  case h_2 s hs =>
    obtain ⟨slot, hhome, -⟩ := Except.bind_eq_ok.mp h
    unfold slotOf? at hs
    have hreg : slotReg s = r := by simpa using List.find?_some hs
    exact ⟨lt_of_home hhome, s, hreg.symm⟩

end Assignment

namespace Session

variable {env : Environment} {σ σ' : Session}

/-! ### Sessions with bindings -/

/-- A guest register is bound to a host register, into which its new value was put before. -/
inductive Binds (env : Environment) (σ : Session) (i : Nat) (r : Reg) (v : Word) : Session → Prop
  | intro {code : List Instr} {a : Assignment} {p : Processor}
      (on : σ.assignment.setReg i r = .ok (code, a))
      (runs : Runs env code (σ.processor.setReg r v) p) :
    Binds env σ i r v { σ with assignment := a, processor := p }

/-- Requests and bindings lead to a session.  Nothing is ever bound to register 0. -/
inductive Arises (env : Environment) : Session → Prop
  | start {p : Processor} (base : p.reg stateReg = env.state) : Arises env { processor := p }
  | step {σ σ' : Session} {request : Request} {r : Option Reg} (arises : Arises env σ)
      (step : Step env σ request r σ') : Arises env σ'
  | bind {σ σ' : Session} {i : Nat} {r : Reg} {v : Word} (arises : Arises env σ) (pos : 0 < i)
      (binds : Binds env σ i r v σ') : Arises env σ'

/-- What requests and bindings keep: the processor represents some guest. -/
structure Consistent (env : Environment) (σ : Session) : Prop where
  matched : σ.assignment.Matched
  represents : ∃ g, Assignment.Represents env σ.assignment σ.processor g

theorem Consistent.use (h : Consistent env σ) {i : Nat} {r : Option Reg}
    (step : Step env σ (.use i) r σ') :
  Consistent env σ'
  := by
  obtain ⟨matched, g, represents⟩ := h
  obtain ⟨on, runs⟩ := step
  cases huse : σ.assignment.use i with
  | error crash =>
    rw [Request.on, huse] at on
    cases on
  | ok x =>
    obtain ⟨pos, lt, room⟩ := Assignment.grants_of_use huse
    obtain ⟨s, code, b, huse', gives, hruns⟩ := Assignment.use_gives matched room pos lt
    obtain ⟨q, hrun, hrep, -⟩ := hruns env _ g represents
    rw [Request.on, huse'] at on
    cases on
    obtain rfl := hrun.unique runs
    exact ⟨gives.matched, g, hrep⟩

theorem Consistent.define (h : Consistent env σ) {i : Nat} {v : Word} {r : Option Reg}
    (step : Step env σ (.define i v) r σ') :
  Consistent env σ'
  := by
  obtain ⟨matched, g, represents⟩ := h
  obtain ⟨on, runs⟩ := step
  cases hdefine : σ.assignment.define i with
  | error crash =>
    rw [Request.on, hdefine] at on
    cases on
  | ok x =>
    obtain ⟨pos, lt, room⟩ := Assignment.grants_of_define hdefine
    obtain ⟨s, code, b, hdefine', gives, hruns⟩ := Assignment.define_gives matched room pos lt
    obtain ⟨g', hrun, hrep⟩ := hruns env _ g represents
    rw [Request.on, hdefine'] at on
    cases on
    obtain rfl := hrun.unique runs
    exact ⟨gives.matched, _, hrep v⟩

theorem Consistent.toMemory (h : Consistent env σ) {i : Nat} {r : Option Reg}
    (step : Step env σ (.toMemory i) r σ') :
  Consistent env σ'
  := by
  obtain ⟨matched, g, represents⟩ := h
  obtain ⟨on, runs⟩ := step
  cases hset : σ.assignment.setMemory i with
  | error crash =>
    rw [Request.on, hset] at on
    cases on
  | ok x =>
    obtain rfl | pos := Nat.eq_zero_or_pos i
    · rw [Request.on, hset] at on
      cases hset
      cases on
      obtain rfl := Runs.nil.unique runs
      exact ⟨matched, g, represents⟩
    · have hlt := Assignment.lt_of_setMemory pos hset
      obtain ⟨code, b, hset', hmatched, -, -, hruns⟩ := Assignment.setMemory_spec matched pos hlt
      obtain ⟨g', hrun, hrep⟩ := hruns env _ g represents
      rw [Request.on, hset'] at on
      cases on
      obtain rfl := hrun.unique runs
      exact ⟨hmatched, g, hrep⟩

theorem Consistent.of_empty (base : σ.processor.reg stateReg = env.state) {clock : Nat}
    (assignment : σ.assignment = { clock }) :
  Consistent env σ
  := by
  refine ⟨?_, σ.processor.guest, ?_⟩
  · rw [assignment]
    exact (Assignment.WellFormed.empty clock).toMatched
  · rw [assignment]
    exact .empty base clock

theorem Consistent.flush (h : Consistent env σ) {r : Option Reg} (step : Step env σ .flush r σ') :
  Consistent env σ'
  := by
  obtain ⟨matched, g, represents⟩ := h
  obtain ⟨on, runs⟩ := step
  rw [Request.on, Assignment.flush_eq matched] at on
  cases on
  obtain ⟨hrun, hrep⟩ := represents.sync matched
  obtain rfl := hrun.unique runs
  exact .of_empty hrep.base rfl

theorem Consistent.invalidate (h : Consistent env σ) {r : Option Reg}
    (step : Step env σ .invalidate r σ') :
  Consistent env σ'
  := by
  obtain ⟨matched, g, represents⟩ := h
  obtain ⟨on, runs⟩ := step
  cases hinvalidate : σ.assignment.invalidate with
  | error crash =>
    rw [Request.on, hinvalidate] at on
    cases on
  | ok b =>
    have hclean := Assignment.clean_of_invalidate hinvalidate
    rw [Request.on, Assignment.invalidate_of_clean hclean] at on
    cases on
    obtain rfl := Runs.nil.unique runs
    exact .of_empty represents.base rfl

theorem Consistent.step (h : Consistent env σ) {request : Request} {r : Option Reg}
    (step : Step env σ request r σ') :
  Consistent env σ'
  := by
  cases request with
  | use i => exact h.use step
  | define i v => exact h.define step
  | toMemory i => exact h.toMemory step
  | flush => exact h.flush step
  | invalidate => exact h.invalidate step
  | begin =>
    obtain ⟨matched, g, represents⟩ := h
    obtain ⟨on, runs⟩ := step
    cases on
    obtain rfl := Runs.nil.unique runs
    exact ⟨⟨matched.home_iff, matched.pos, matched.clean⟩, g, represents.beginInstr⟩
  | sync =>
    obtain ⟨matched, g, represents⟩ := h
    obtain ⟨on, runs⟩ := step
    cases on
    obtain ⟨hrun, hrep⟩ := represents.sync matched
    obtain rfl := hrun.unique runs
    exact ⟨matched.sync, g, hrep⟩

theorem Consistent.bind (h : Consistent env σ) {i : Nat} {r : Reg} {v : Word} (pos : 0 < i)
    (binds : Binds env σ i r v σ') :
  Consistent env σ'
  := by
  obtain ⟨matched, g, represents⟩ := h
  obtain ⟨on, runs⟩ := binds
  obtain ⟨lt, s, rfl⟩ := Assignment.slot_of_setReg pos on
  obtain ⟨code, b, hset, hmatched, -, hruns⟩ := Assignment.setReg_spec matched (i := ⟨i, lt⟩) pos s
  obtain ⟨q, file, hrun, hrep, -⟩ := hruns env _ g v represents
  cases hset.symm.trans on
  obtain rfl := hrun.unique runs
  exact ⟨hmatched, _, hrep⟩

theorem Arises.consistent (arises : Arises env σ) :
  Consistent env σ
  := by
  induction arises with
  | start base => exact .of_empty base rfl
  | step _ step ih => exact ih.step step
  | bind _ pos binds ih => exact ih.bind pos binds

/-! ### The values after a binding -/

/-- A guest register whose value is in the host register of a slot only. -/
def Unsaved (σ : Session) (s : Fin slotCount) (i : Fin 32) : Prop :=
  σ.assignment.get i = .ok (.reg (slotReg s)) ∧ σ.assignment.isDirty i = .ok true

theorem unsaved_iff (matched : σ.assignment.Matched) {s : Fin slotCount} {i : Fin 32} :
  σ.Unsaved s i ↔ σ.assignment.Newer s i
  := by
  unfold Unsaved Assignment.Newer Assignment.get Assignment.isDirty
  rw [Assignment.home_eq _ i.isLt, ← matched.home_iff]
  cases σ.assignment.home? i with
  | none => simp [pure, Except.pure]
  | some t =>
    simp only [Except.ok_bind, pure, Except.pure, Except.ok.injEq, Place.reg.injEq,
      Option.some.injEq]
    constructor
    · rintro ⟨hreg, hdirty⟩
      obtain rfl := slotReg_injective hreg
      exact ⟨rfl, hdirty⟩
    · rintro ⟨rfl, hdirty⟩
      exact ⟨rfl, hdirty⟩

/-- What a binding does: the guest register has the new value, in the slot only.  So does one whose
value was in that slot only, and all others are as before, like the rest of the guest. -/
structure Rebinds (σ : Session) (s : Fin slotCount) (i : Fin 32) (v : Word) (σ' : Session) :
    Prop where
  bound : σ'.Unsaved s i
  value : σ'.value i = v
  lost : ∀ j, σ.Unsaved s j → σ'.value j = v
  kept : ∀ j, j ≠ i → ¬ σ.Unsaved s j → σ'.value j = σ.value j
  rest : σ'.processor.guest.withFile σ.processor.guest.file = σ.processor.guest

theorem Consistent.rebinds (h : Consistent env σ) {i : Fin 32} (pos : 0 < i.val) (s : Fin slotCount)
    (v : Word) :
  ∃ σ', Binds env σ i (slotReg s) v σ' ∧ σ.Rebinds s i v σ'
  := by
  obtain ⟨matched, g, represents⟩ := h
  obtain ⟨code, b, hset, hmatched, hnewer, hruns⟩ := Assignment.setReg_spec matched pos s
  obtain ⟨q, file, hrun, hrep, hfile⟩ := hruns env _ g v represents
  refine ⟨_, .intro hset hrun, (unsaved_iff hmatched).mpr hnewer, ?_, fun j hj => ?_,
    fun j hji hj => ?_, ?_⟩
  · rw [value_eq _ hmatched hrep, Guest.file_withFile, hfile, if_pos (.inl rfl)]
  · rw [value_eq _ hmatched hrep, Guest.file_withFile, hfile,
      if_pos (.inr ((unsaved_iff matched).mp hj))]
  · rw [value_eq _ hmatched hrep, value_eq _ matched represents, Guest.file_withFile, hfile, if_neg]
    rintro (heq | hnewer)
    · exact hji heq
    · exact hj ((unsaved_iff matched).mpr hnewer)
  · have hafter := congrArg (·.withFile σ.processor.guest.file) hrep.rest
    have hbefore := congrArg (·.withFile σ.processor.guest.file) represents.rest
    exact hafter.trans hbefore.symm

/-- Whatever requests and bindings were made, a guest register can be bound to a slot's host
register that was given its new value.  This keeps all other guest registers if and only if none of
them has another value in that host register only. -/
theorem binding_keeps_saved_registers (arises : Arises env σ) {i : Fin 32} (pos : 0 < i.val)
    (s : Fin slotCount) (v : Word) :
  ∃ σ', Binds env σ i (slotReg s) v σ' ∧ σ.Rebinds s i v σ' ∧
    ((∀ j, j ≠ i → σ'.value j = σ.value j) ↔ ∀ j, j ≠ i → σ.Unsaved s j → σ.value j = v)
  := by
  obtain ⟨σ', hbinds, hrebinds⟩ := arises.consistent.rebinds pos s v
  refine ⟨σ', hbinds, hrebinds, fun hsame j hji hj => ?_, fun hequal j hji => ?_⟩
  · rw [← hsame j hji]
    exact hrebinds.lost j hj
  · by_cases hj : σ.Unsaved s j
    · rw [hrebinds.lost j hj, hequal j hji hj]
    · exact hrebinds.kept j hji hj

/-- A guest register has a new value in `rbx`, and another is bound to `r12`. -/
theorem binding_keeps_saved_registers_of_other_slot :
  ∃ σ σ', Step .standard { processor := idle } (.define 1 11) (some .rbx) σ ∧
    Arises .standard σ ∧ σ.value 1 = 11 ∧ Binds .standard σ 2 .r12 22 σ' ∧ σ'.value 2 = 22 ∧
    σ'.value 1 = 11
  := by
  have hstep : Step .standard { processor := idle } (.define 1 11) (some .rbx) _ :=
    .intro rfl Runs.nil
  have harises := (Arises.start (by decide)).step hstep
  obtain ⟨σ', hbinds, hrebinds, -⟩ :=
    binding_keeps_saved_registers harises (i := 2) (by decide) 1 22
  refine ⟨_, σ', hstep, harises, by decide, hbinds, hrebinds.value, ?_⟩
  rw [hrebinds.kept 1 (by decide) fun hunsaved => absurd hunsaved.1 (by decide)]
  decide

/-- A guest register has a new value in `rbx`, and loses it to another that is bound to `rbx`. -/
theorem binding_loses_newer_value :
  ∃ σ σ', Step .standard { processor := idle } (.define 1 11) (some .rbx) σ ∧
    Arises .standard σ ∧ σ.value 1 = 11 ∧ Binds .standard σ 2 .rbx 22 σ' ∧ σ'.value 1 = 22
  := by
  have hstep : Step .standard { processor := idle } (.define 1 11) (some .rbx) _ :=
    .intro rfl Runs.nil
  have harises := (Arises.start (by decide)).step hstep
  obtain ⟨σ', hbinds, hrebinds⟩ := harises.consistent.rebinds (i := 2) (by decide) 0 22
  refine ⟨_, σ', hstep, harises, by decide, hbinds, hrebinds.lost 1 ⟨?_, ?_⟩⟩
  · decide
  · decide

end Session

end CrossHart.Host
