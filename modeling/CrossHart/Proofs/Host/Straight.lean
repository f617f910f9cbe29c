import CrossHart.Proofs.Host.Assignment
import CrossHart.Proofs.Host.Draft

/-!
# Straight code

A step of compiling `Computes` something if it adds straight code to any draft with a given
assignment, and this code leads from processors of one kind to processors of another.  The kinds of
processors that matter are those that represent a guest and hold known values in some registers,
written `Holds`.
-/

namespace CrossHart.Host

open Assignment Processor

/-- The registers that compiled code uses for values on the way. -/
def IsScratch (r : Reg) : Prop :=
  r ≠ stateReg ∧ ∀ s, r ≠ slotReg s

instance (r : Reg) : Decidable (IsScratch r) :=
  inferInstanceAs (Decidable (_ ∧ _))

theorem IsScratch.keeps {r : Reg} (h : IsScratch r) (a : Assignment) :
  a.Keeps r
  := fun s hs => False.elim (h.2 s hs)

namespace Assignment

/-- An assignment after at most `n` more slots were taken into use. -/
structure Grown (n : Nat) (a b : Assignment) : Prop where
  wellFormed : b.WellFormed
  pins : b.pins ≤ a.pins + n
  keeps : ∀ r, a.Keeps r → b.Keeps r

variable {a b c : Assignment} {env : Environment} {p : Processor} {g : Guest} {m n : Nat}

theorem Grown.refl (wf : a.WellFormed) :
  Grown 0 a a
  := ⟨wf, Nat.le_refl _, fun _ h => h⟩

theorem Grown.trans (h : Grown m a b) (h' : Grown n b c) :
  Grown (m + n) a c
  := by
  refine ⟨h'.wellFormed, ?_, fun r hr => h'.keeps r (h.keeps r hr)⟩
  have := h.pins
  have := h'.pins
  omega

theorem Grown.mono (h : Grown m a b) (le : m ≤ n) :
  Grown n a b
  := ⟨h.wellFormed, Nat.le_trans h.pins (Nat.add_le_add_left le _), h.keeps⟩

theorem Takes.grown {s : Fin slotCount} {guest : Nat} (h : Takes a s guest b) :
  Grown 1 a b
  := ⟨h.wellFormed, h.pins_le, fun _ => h.keeps_of_keeps⟩

/-- What is represented does not depend on the scratch registers. -/
theorem Represents.setReg (h : Represents env a p g) {r : Reg} (scratch : IsScratch r) (v : Word) :
  Represents env a (p.setReg r v) g
  := by
  refine ⟨?_, h.rest, ?_, h.filed⟩
  · rw [p.reg_setReg_of_ne scratch.1]
    exact h.base
  · intro s i hs
    rw [p.reg_setReg_of_ne (scratch.2 s)]
    exact h.held s i hs

theorem Represents.withFlags (h : Represents env a p g) (f : Option Flags) :
  Represents env a (p.withFlags f) g
  := ⟨h.base, h.rest, h.held, h.filed⟩

end Assignment

/-- No two services have the same address. -/
def Services.Distinct (s : Services) : Prop :=
  [s.load, s.store, s.arith, s.interpret].Nodup

instance (s : Services) : Decidable s.Distinct :=
  inferInstanceAs (Decidable (List.Nodup _))

/-- A processor with distinct services that represents a guest and holds given values in some
registers. -/
structure Holds (env : Environment) (a : Assignment) (g : Guest) (facts : List (Reg × Word))
    (p : Processor) : Prop where
  distinct : env.services.Distinct
  represents : a.Represents env p g
  facts : ∀ f ∈ facts, p.reg f.1 = f.2

/-- Facts about registers that code for a guest register does not touch, with `dst` as scratch. -/
def Framed (a : Assignment) (dst : Reg) (facts : List (Reg × Word)) : Prop :=
  ∀ f ∈ facts, a.Keeps f.1 ∧ f.1 ≠ dst

theorem Framed.nil {a : Assignment} {dst : Reg} :
  Framed a dst []
  := fun _ h => (nomatch h)

theorem Framed.cons {a : Assignment} {dst r : Reg} {v : Word} {facts : List (Reg × Word)}
    (keeps : a.Keeps r) (ne : r ≠ dst) (h : Framed a dst facts) :
  Framed a dst ((r, v) :: facts)
  := by
  intro f hf
  obtain rfl | hf := List.mem_cons.mp hf
  · exact ⟨keeps, ne⟩
  · exact h f hf

/-- Facts stay framed when more slots are taken into use. -/
theorem Framed.grown {n : Nat} {a b : Assignment} {dst : Reg} {facts : List (Reg × Word)}
    (h : Framed a dst facts) (grown : Grown n a b) :
  Framed b dst facts
  := fun f hf => ⟨grown.keeps f.1 (h f hf).1, (h f hf).2⟩

namespace Holds

variable {env : Environment} {a b : Assignment} {g : Guest} {facts : List (Reg × Word)}
  {p q : Processor} {r : Reg} {v : Word}

theorem head (h : Holds env a g ((r, v) :: facts) p) :
  p.reg r = v
  := h.facts (r, v) List.mem_cons_self

theorem tail (h : Holds env a g ((r, v) :: facts) p) :
  Holds env a g facts p
  := ⟨h.distinct, h.represents, fun f hf => h.facts f (List.mem_cons_of_mem _ hf)⟩

theorem nil (h : Holds env a g facts p) :
  Holds env a g [] p
  := ⟨h.distinct, h.represents, fun _ hf => (nomatch hf)⟩

theorem cons (h : Holds env a g facts p) (hr : p.reg r = v) :
  Holds env a g ((r, v) :: facts) p
  := by
  refine ⟨h.distinct, h.represents, fun f hf => ?_⟩
  obtain rfl | hf := List.mem_cons.mp hf
  · exact hr
  · exact h.facts f hf

/-- Facts hold on where the registers that they are about were kept. -/
theorem framed (h : Holds env a g facts p) (rep : b.Represents env q g) {dst : Reg}
    (framed : Framed a dst facts) (kept : ∀ r, a.Keeps r → r ≠ dst → q.reg r = p.reg r) :
  Holds env b g facts q
  := by
  refine ⟨h.distinct, rep, fun f hf => ?_⟩
  rw [kept f.1 (framed f hf).1 (framed f hf).2]
  exact h.facts f hf

/-- Setting a scratch register. -/
theorem setReg (h : Holds env a g facts p) (scratch : IsScratch r) (framed : Framed a r facts)
    (v : Word) (flags : Option Flags) :
  Holds env a g ((r, v) :: facts) ((p.setReg r v).withFlags flags)
  := by
  apply cons
  · apply h.framed ((h.represents.setReg scratch v).withFlags flags) framed
    intro r' _ hne
    exact p.reg_setReg_of_ne hne.symm v
  · exact p.reg_setReg_self r v

theorem withFlags (h : Holds env a g facts p) (flags : Option Flags) :
  Holds env a g facts (p.withFlags flags)
  := ⟨h.distinct, h.represents.withFlags flags, h.facts⟩

end Holds

/-! ### Steps that compute -/

namespace Compile

variable {α β : Type} {env : Environment} {a b : Assignment} {g : Guest}
  {P P' : Processor → Prop} {S S' : α → Assignment → Prop}
  {Q Q' : α → Assignment → Processor → Prop} {facts : List (Reg × Word)}

/-- A step adds straight code to drafts with assignment `a`.  `S` says what is known of its result
and of the assignment afterwards, and the code leads from processors with `P` to those with `Q`. -/
def Computes (env : Environment) (a : Assignment) (P : Processor → Prop) (c : Compile α)
    (S : α → Assignment → Prop) (Q : α → Assignment → Processor → Prop) : Prop :=
  ∃ r b code, (∀ d, d.assignment = a → c.on d = (.ok r, (d.assigned b).push (code.map .instr))) ∧
    S r b ∧ ∀ p, P p → ∃ q, Runs env code p q ∧ Q r b q

namespace Computes

theorem pure (r : α) (h : S r a) (hq : ∀ p, P p → Q r a p) :
  Computes env a P (Pure.pure r) S Q
  := by
  refine ⟨r, a, [], ?_, h, fun p hp => ⟨p, Runs.nil, hq p hp⟩⟩
  rintro d rfl
  rfl

/-- Code followed by other code. -/
theorem bind {c : Compile α} {f : α → Compile β} {T : β → Assignment → Prop}
    {R : β → Assignment → Processor → Prop} (h : Computes env a P c S Q)
    (hf : ∀ r b, S r b → Computes env b (Q r b) (f r) T R) :
  Computes env a P (c >>= f) T R
  := by
  obtain ⟨r, b, code, hon, hs, hrun⟩ := h
  obtain ⟨r', b', code', hon', hs', hrun'⟩ := hf r b hs
  refine ⟨r', b', code ++ code', ?_, hs', ?_⟩
  · intro d hd
    rw [on_bind_ok (hon d hd), hon' ((d.assigned b).push _) rfl, List.map_append,
      ← Draft.push_push]
    rfl
  · intro p hp
    obtain ⟨q, hq, hQ⟩ := hrun p hp
    obtain ⟨q', hq', hR⟩ := hrun' q hQ
    exact ⟨q', hq.append hq', hR⟩

theorem imp {c : Compile α} (h : Computes env a P c S Q) (hp : ∀ p, P' p → P p)
    (hs : ∀ r b, S r b → S' r b) (hq : ∀ r b q, S r b → Q r b q → Q' r b q) :
  Computes env a P' c S' Q'
  := by
  obtain ⟨r, b, code, hon, hS, hrun⟩ := h
  refine ⟨r, b, code, hon, hs r b hS, fun p hP => ?_⟩
  obtain ⟨q, hrun, hQ⟩ := hrun p (hp p hP)
  exact ⟨q, hrun, hq r b q hS hQ⟩

theorem pre {c : Compile α} (h : Computes env a P c S Q) (hp : ∀ p, P' p → P p) :
  Computes env a P' c S Q
  := h.imp hp (fun _ _ h => h) fun _ _ _ _ h => h

/-- What is known of an assignment is known after a step that keeps it. -/
theorem settled {c : Compile α} {S : Assignment → Prop} {Q : α → Assignment → Processor → Prop}
    (h : Computes env a P c (fun _ b => a = b) (fun r _ => Q r a)) (hs : S a) :
  Computes env a P c (fun _ => S) Q
  := by
  apply h.imp (fun _ h => h)
  · rintro _ _ rfl
    exact hs
  · rintro _ _ q rfl hq
    exact hq

/-- A single instruction. -/
theorem instr {i : Instr} {Q : Processor → Prop}
    (h : ∀ p, P p → ∃ q, execute env i.normal p = .ok q ∧ Q q) :
  Computes env a P (instr i) (fun _ b => a = b) (fun _ _ => Q)
  := by
  refine ⟨(), a, [i], ?_, rfl, fun p hp => ?_⟩
  · rintro d rfl
    rfl
  · obtain ⟨q, hexec, hq⟩ := h p hp
    exact ⟨q, Runs.single hexec, hq⟩

/-- An instruction that sets a scratch register. -/
theorem set {i : Instr} {r : Reg} {v : Word} (scratch : IsScratch r) (framed : Framed a r facts)
    (h : ∀ p, P p → Holds env a g facts p ∧
      ∃ f, execute env i.normal p = .ok ((p.setReg r v).withFlags f)) :
  Computes env a P (Compile.instr i) (fun _ b => a = b) (fun _ _ => Holds env a g ((r, v) :: facts))
  := by
  apply instr
  intro p hp
  obtain ⟨hholds, f, hexec⟩ := h p hp
  exact ⟨_, hexec, hholds.setReg scratch framed v f⟩

/-- The code of a step that computes something for every `i` does not depend on `i`. -/
theorem uniform {ι : Type} [Nonempty ι] {c : Compile α} {P : ι → Processor → Prop}
    {Q : ι → α → Assignment → Processor → Prop} (h : ∀ i, Computes env a (P i) c S (Q i)) :
  ∃ r b code, (∀ d, d.assignment = a → c.on d = (.ok r, (d.assigned b).push (code.map .instr))) ∧
    S r b ∧ ∀ i p, P i p → ∃ q, Runs env code p q ∧ Q i r b q
  := by
  obtain ⟨r, b, code, hon, hs, -⟩ := h (Classical.arbitrary ι)
  refine ⟨r, b, code, hon, hs, fun i p hp => ?_⟩
  obtain ⟨r', b', code', hon', -, hrun⟩ := h i
  have heq := (hon { assignment := a } rfl).symm.trans (hon' { assignment := a } rfl)
  simp only [Draft.assigned, Draft.push, List.append_nil, Prod.mk.injEq, Except.ok.injEq,
    Draft.mk.injEq, List.reverse_inj, and_true] at heq
  obtain ⟨rfl, rfl, hcode⟩ := heq
  rw [List.map_inj_right fun _ _ h => Item.instr.inj h] at hcode
  rw [hcode]
  exact hrun p hp

/-! ### Guest registers -/

theorem assign {f : Assignment → Except Crash (Reg × List Instr × Assignment)} {r : Reg}
    {code : List Instr} {b : Assignment} {S : Reg → Assignment → Prop}
    {Q : Reg → Assignment → Processor → Prop} (h : f a = .ok (r, code, b)) (hs : S r b)
    (hq : ∀ p, P p → ∃ q, Runs env code p q ∧ Q r b q) :
  Computes env a P (Compile.assign f) S Q
  := by
  refine ⟨r, b, code, ?_, hs, hq⟩
  rintro d rfl
  rw [on_assign, h]

/-- A constant in a scratch register. -/
theorem movImm {r : Reg} (scratch : IsScratch r) (framed : Framed a r facts) (wide : Bool)
    {v w : Word} (hw : (if wide then v else (v.setWidth 32).setWidth 64) = w) :
  Computes env a (Holds env a g facts) (Compile.instr (.movImm wide r v)) (fun _ b => a = b)
    (fun _ _ => Holds env a g ((r, w) :: facts))
  := by
  apply set scratch framed
  intro p hp
  rw [← hw]
  exact ⟨hp, execute_movImm env p wide r v⟩

variable {i : Nat}

/-- The value of a guest register in the register that is returned, which is a given scratch
register or that of a slot. -/
theorem read (wf : a.WellFormed) (room : a.pins < slotCount) (lt : i < 32) {r : Reg}
    (scratch : IsScratch r) (framed : Framed a r facts) :
  Computes env a (Holds env a g facts) (Compile.read i r)
    (fun r' b => Grown 1 a b ∧ b.Keeps r' ∧ (r' = r ∨ ∃ s, r' = slotReg s))
    (fun r' b => Holds env b g ((r', g.value i) :: facts))
  := by
  unfold Compile.read
  split
  case isTrue hzero =>
    subst hzero
    apply (movImm (w := 0) scratch framed false rfl).bind
    rintro _ _ rfl
    apply pure
    · exact ⟨(Grown.refl wf).mono (Nat.zero_le 1), scratch.keeps _, .inl rfl⟩
    · intro p hp
      exact hp
  case isFalse hpos =>
    obtain ⟨s, code, b, huse, htakes, hrun⟩ :=
      use_spec wf room (Nat.pos_of_ne_zero hpos) lt
    apply assign huse
    · exact ⟨htakes.grown, htakes.keeps, .inr ⟨s, rfl⟩⟩
    · intro p hp
      obtain ⟨q, hq, hrep, hval, hkept⟩ := hrun env p g hp.represents
      exact ⟨q, hq, (hp.framed hrep framed fun r' hr' _ => hkept r' hr').cons hval⟩

/-- The value of a guest register in a scratch register. -/
theorem readInto (wf : a.WellFormed) (room : a.pins < slotCount) (lt : i < 32) {r : Reg}
    (scratch : IsScratch r) (framed : Framed a r facts) :
  Computes env a (Holds env a g facts) (Compile.readInto i r) (fun _ b => Grown 1 a b)
    (fun _ b => Holds env b g ((r, g.value i) :: facts))
  := by
  apply (read wf room lt scratch framed).bind
  rintro r' b ⟨hgrown, -, -⟩
  split
  · refine settled (set scratch (framed.grown hgrown) ?_) hgrown
    intro p hp
    refine ⟨hp.tail, p.flags, ?_⟩
    rw [← hp.head]
    rfl
  case isFalse heq =>
    rw [ne_eq, not_not] at heq
    subst heq
    exact pure () hgrown fun p hp => hp

/-- A register for a new value of a guest register. -/
theorem define (wf : a.WellFormed) (room : a.pins < slotCount) (pos : i ≠ 0) (lt : i < 32) :
  Computes env a (Holds env a g facts) (Compile.assign (·.define i))
    (fun r b => Grown 1 a b ∧ ∃ s, r = slotReg s)
    (fun r b q => (∀ f ∈ facts, q.reg f.1 = f.2) ∧ env.services.Distinct ∧
      ∀ w, b.Represents env (q.setReg r w) (g.put i w))
  := by
  obtain ⟨s, code, b, hdefine, htakes, hrun⟩ := define_spec wf room (Nat.pos_of_ne_zero pos) lt
  apply assign hdefine
  · exact ⟨htakes.grown, s, rfl⟩
  · intro p hp
    obtain ⟨g', hq, hrep⟩ := hrun env p g hp.represents
    exact ⟨p.withGuest g', hq, hp.facts, hp.distinct, hrep⟩

/-- A guest register set from a scratch register. -/
theorem writeFrom (wf : a.WellFormed) (room : a.pins < slotCount) (lt : i < 32) {r : Reg}
    (scratch : IsScratch r) {v : Word} :
  Computes env a (Holds env a g [(r, v)]) (Compile.writeFrom i r) (fun _ b => Grown 1 a b)
    (fun _ b => Holds env b (g.put i v) [])
  := by
  unfold Compile.writeFrom
  split
  case isTrue hzero =>
    subst hzero
    exact pure () ((Grown.refl wf).mono (Nat.zero_le 1)) fun p hp => hp.tail
  case isFalse hpos =>
    apply (define wf room hpos lt).bind
    rintro _ b ⟨hgrown, s, rfl⟩
    rw [if_pos (scratch.2 s).symm]
    refine settled (instr ?_) hgrown
    rintro p ⟨hfacts, hdistinct, hrep⟩
    have hval : p.reg r = v := hfacts (r, v) List.mem_cons_self
    refine ⟨p.setReg (slotReg s) v, ?_, hdistinct, hrep v, fun _ hf => (nomatch hf)⟩
    rw [← hval]
    rfl

/-- A guest register set to a constant. -/
theorem writeImm (wf : a.WellFormed) (room : a.pins < slotCount) (lt : i < 32)
    (scratch : ∀ f ∈ facts, IsScratch f.1) (v : Word) :
  Computes env a (Holds env a g facts) (Compile.writeImm i v) (fun _ b => Grown 1 a b)
    (fun _ b => Holds env b (g.put i v) facts)
  := by
  unfold Compile.writeImm
  split
  case isTrue hzero =>
    subst hzero
    exact pure () ((Grown.refl wf).mono (Nat.zero_le 1)) fun p hp => hp
  case isFalse hpos =>
    apply (define wf room hpos lt).bind
    rintro _ b ⟨hgrown, s, rfl⟩
    refine settled (instr ?_) hgrown
    rintro p ⟨hfacts, hdistinct, hrep⟩
    obtain ⟨flags, hexec⟩ := execute_movImm env p true (slotReg s) v
    refine ⟨_, hexec, hdistinct, (hrep v).withFlags flags, fun f hf => ?_⟩
    rw [reg_withFlags, if_pos rfl, p.reg_setReg_of_ne ((scratch f hf).2 s).symm]
    exact hfacts f hf

/-- The sum of a guest register and a constant of 32 bits. -/
theorem addressIn (wf : a.WellFormed) (room : a.pins < slotCount) (lt : i < 32) {r : Reg}
    (scratch : IsScratch r) (framed : Framed a r facts) {imm : Word}
    (fits : (imm.setWidth 32).signExtend 64 = imm) :
  Computes env a (Holds env a g facts) (Compile.addressIn r i imm) (fun _ b => Grown 1 a b)
    (fun _ b => Holds env b g ((r, g.value i + imm) :: facts))
  := by
  apply (readInto wf room lt scratch framed).bind
  rintro _ b hgrown
  split
  · refine settled (set scratch (framed.grown hgrown) ?_) hgrown
    intro p hp
    refine ⟨hp.tail, some (.ofSum (g.value i) imm), ?_⟩
    rw [Instr.normal, execute, arithReg, hp.head, fits]
    · rfl
    · simp
  case isFalse heq =>
    rw [ne_eq, not_not] at heq
    subst heq
    apply pure () hgrown
    intro p hp
    rwa [show g.value i + 0 = g.value i from BitVec.add_zero _]

/-- Writing back. -/
theorem sync (wf : a.WellFormed) :
  Computes env a (Holds env a g facts) Compile.sync (fun _ b => b = a.sync.2)
    (fun _ b => Holds env b g facts)
  := by
  refine ⟨(), a.sync.2, a.sync.1, ?_, rfl, ?_⟩
  · rintro d rfl
    exact on_sync d
  · intro p hp
    obtain ⟨hrun, hrep⟩ := hp.represents.sync wf.toMatched
    exact ⟨p.withGuest g, hrun, hp.distinct, hrep, hp.facts⟩

end Computes

end Compile

end CrossHart.Host
