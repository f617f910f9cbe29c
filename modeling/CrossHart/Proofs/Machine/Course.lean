import CrossHart.Proofs.Machine.Turns
import CrossHart.Proofs.Memory.Sound

/-!
# The course of a guest

What an engine may do with a guest, told without an engine.  It reads instructions, of which a policy
and devices may take notice.  It carries out instructions that were read, one after the other, each
where the program counter points, and counts them.  The guest ends when it exits, when an instruction
raises an exception, which is not counted unless it is a breakpoint, or when the next instruction
cannot be read.

Single steps through the instructions of compiled blocks are a course, and so is reading a block.
-/

namespace CrossHart

open CrossHart.Action Isa

variable {η : Type} {handler : Handler η}

/-! ### Guests without an account -/

/-- The guest as instructions see it: what was charged to the current run of compiled code is counted,
and there is no budget. -/
def Guest.seen (g : Guest) : Guest :=
  ⟨{ regs := g.hart.regs, retired := g.hart.instret, reservation := g.hart.reservation }, g.memory⟩

/-- The guest with one more instruction counted. -/
def Guest.counted (g : Guest) : Guest :=
  ⟨{ g.hart with retired := g.hart.retired + 1 }, g.memory⟩

/-- The guest after an instruction that ended in some way, counted if it counts. -/
def Guest.tallied (r : Except Exception Hart.StepExit) (g : Guest) : Guest :=
  if Hart.charges r then g.counted else g

/-- The guest after a system call that was answered with a value. -/
def Guest.answered (g : Guest) (v : Word) (memory : Memory) : Guest :=
  ⟨{ g.hart with
    regs := { g.hart.regs.put firstArgument v with pc := g.hart.regs.pc + 4 } }, memory⟩

namespace Guest

theorem seen_charged (g : Guest) :
  g.charged.seen = g.seen.counted
  := by
  have hinstret : g.charged.hart.instret = g.hart.instret + 1 := by
    change g.hart.retired + (g.hart.budgetStart - (g.hart.budget - 1)) =
      g.hart.retired + (g.hart.budgetStart - g.hart.budget) + 1
    bv_omega
  rw [seen, hinstret]
  rfl

theorem seen_settle (r : Except Exception Hart.StepExit) (g : Guest) :
  (Hart.settle r g).seen = g.seen.tallied r
  := by
  unfold Hart.settle tallied
  split
  · exact g.seen_charged
  · rfl

theorem memory_tallied (r : Except Exception Hart.StepExit) (g : Guest) :
  (g.tallied r).memory = g.memory
  := by
  unfold tallied
  split <;> rfl

theorem regs_tallied (r : Except Exception Hart.StepExit) (g : Guest) :
  (g.tallied r).hart.regs = g.hart.regs
  := by
  unfold tallied
  split <;> rfl

end Guest

/-- An instruction does to a guest what it does to the guest as it sees it. -/
theorem Hart.step_seen {d : Located} {g g' : Guest} {r : Except Exception StepExit}
    (h : (step d).on g = .ok (r, g')) :
  (step d).on g.seen = .ok (r, g'.seen)
  := by
  have hcongruence : IsFullCongruence fun h k => k =
      { regs := h.regs, retired := h.instret, reservation := h.reservation } := by
    constructor
    · refine ⟨⟨?_, ?_, ?_, ?_⟩, ?_⟩
      · rintro h _ rfl
        rfl
      · rintro h _ x rfl
        rfl
      · rintro h _ rfl
        rfl
      · rintro h _ addr rfl
        rfl
      · rintro h _ rfl
        simp [Hart.instret]
    · rintro h _ pc rfl
      rfl
  have hmatches := respects_step hcongruence Memory.isCongruence_eq d g g.seen ⟨rfl, rfl⟩
  rw [h] at hmatches
  obtain ⟨c, hc, -⟩ | ⟨r', s, t, hs, ht, hhart, hmemory⟩ := hmatches.elim
  · cases hc
  · cases hs
    rw [ht]
    obtain ⟨hart, memory⟩ := t
    dsimp only at hhart hmemory
    rw [hhart, ← hmemory]
    rfl

/-! ### Courses -/

/-- A guest, the state of the handler, and the instructions that were read so far. -/
structure Scene (η : Type) where
  known : Located → Prop
  guest : Guest
  state : η

/-- The scene after an instruction was read, or could not be read. -/
def Scene.looked (t : Scene η) (r : Except CompileError Located) (memory : Memory) : Scene η :=
  ⟨fun d => t.known d ∨ r = .ok d, ⟨t.guest.hart, memory⟩, t.state⟩

/-- An instruction was read where the program counter points. -/
structure Scene.Next (t : Scene η) (d : Located) : Prop where
  known : t.known d
  at_pc : d.pc = t.guest.hart.regs.pc

/-- From one scene to another, with so many instructions carried out. -/
inductive Course (handler : Handler η) (s : Scene η) : Nat → Scene η → Prop
  | start : Course handler s 0 s
  /-- Reading an instruction, which need not be the next one. -/
  | look {n : Nat} {t : Scene η} {pc : Word} {r : Except CompileError Located} {memory : Memory}
      (before : Course handler s n t)
      (read : (Block.readInstr Memory.fetch pc).on t.guest.memory = .ok (r, memory)) :
    Course handler s n (t.looked r memory)
  /-- An instruction after which the guest goes on. -/
  | retire {n : Nat} {t : Scene η} {d : Located} {exit : Hart.StepExit} {g : Guest}
      (before : Course handler s n t) (next : t.Next d)
      (step : (Hart.step d).on t.guest = .ok (.ok exit, g)) (on : exit ≠ .ecall) :
    Course handler s (n + 1) { t with guest := g.counted }
  /-- A system call after which the guest goes on. -/
  | call {n : Nat} {t : Scene η} {d : Located} {g : Guest} {v : Word} {h : η} {memory : Memory}
      (before : Course handler s n t) (next : t.Next d)
      (step : (Hart.step d).on t.guest = .ok (.ok .ecall, g))
      (answer : handler g.hart.regs.call t.state g.memory = .ok (.ret v, h, memory)) :
    Course handler s (n + 1) ⟨t.known, (g.answered v memory).counted, h⟩

/-- The end of a guest, and how many instructions are counted for it. -/
inductive Ends (handler : Handler η) (t : Scene η) : Nat → RunExit → Scene η → Prop
  /-- A system call to exit. -/
  | exit {d : Located} {g : Guest} {status : BitVec 32} {h : η} {memory : Memory} (next : t.Next d)
      (step : (Hart.step d).on t.guest = .ok (.ok .ecall, g))
      (answer : handler g.hart.regs.call t.state g.memory = .ok (.exit status, h, memory)) :
    Ends handler t 1 (.exit status) ⟨t.known, Guest.counted ⟨g.hart, memory⟩, h⟩
  | breakpoint {d : Located} {g : Guest} {e : Exception} (next : t.Next d)
      (step : (Hart.step d).on t.guest = .ok (.error e, g)) (cause : e.cause = .breakpoint) :
    Ends handler t 1 (.exception e t.guest.hart.regs.pc) { t with guest := g.counted }
  /-- An instruction that raises an exception, which is not counted. -/
  | trap {d : Located} {g : Guest} {e : Exception} (next : t.Next d)
      (step : (Hart.step d).on t.guest = .ok (.error e, g)) (cause : e.cause ≠ .breakpoint) :
    Ends handler t 0 (.exception e t.guest.hart.regs.pc) { t with guest := g }
  /-- The next instruction cannot be read. -/
  | unread {e : CompileError} {raised : Exception} {memory : Memory}
      (read : (Block.readInstr Memory.fetch t.guest.hart.regs.pc).on t.guest.memory =
        .ok (.error e, memory)) (raises : Machine.Raises e raised) :
    Ends handler t 0 (.exception raised t.guest.hart.regs.pc) (t.looked (.error e) memory)

theorem Course.trans {s t u : Scene η} {n k : Nat} (h : Course handler s n t)
    (h' : Course handler t k u) :
  Course handler s (n + k) u
  := by
  induction h' with
  | start => exact h
  | look _ read ih => exact .look ih read
  | retire _ next step on ih => exact .retire ih next step on
  | call _ next step answer ih => exact .call ih next step answer

/-! ### Reading blocks -/

section

variable {K : Located → Prop} {hart : Hart} {memory memory' : Memory} {h : η}

/-- Reading an instruction is a course, after which the instruction is known. -/
theorem exists_course_of_read {pc : Word} {d : Located}
    (on : (Block.readInstr Memory.fetch pc).on memory = .ok (.ok d, memory')) :
  ∃ K', Course handler ⟨K, ⟨hart, memory⟩, h⟩ 0 ⟨K', ⟨hart, memory'⟩, h⟩ ∧ (∀ x, K x → K' x) ∧ K' d
  := ⟨_, .look .start on, fun _ => .inl, .inr rfl⟩

theorem exists_course_of_collect {n : Nat} {pc : Word} {before : List Located}
    {r : Except CompileError (List Located × Block.Ending)} (known : ∀ d ∈ before, K d)
    (on : (Block.collect Memory.fetch n pc before).on memory = .ok (r, memory')) :
  ∃ K', Course handler ⟨K, ⟨hart, memory⟩, h⟩ 0 ⟨K', ⟨hart, memory'⟩, h⟩ ∧ (∀ d, K d → K' d) ∧
    ∀ ds e, r = .ok (ds, e) → ∀ d ∈ ds, K' d
  := by
  induction n using Nat.strongRecOn generalizing pc before memory K with
  | ind n ih =>
    obtain ⟨e, hread, rfl⟩ | ⟨d, memory₁, hread, hrest⟩ := Block.on_collect_cases on
    · exact ⟨_, .look .start hread, fun _ => .inl, nofun⟩
    · obtain ⟨K₁, hlook, hmono₁, hd⟩ := exists_course_of_read hread
      have hknown : ∀ x ∈ d :: before, K₁ x :=
        List.forall_mem_cons.mpr ⟨hd, fun x hx => hmono₁ x (known x hx)⟩
      obtain ⟨rfl, e, rfl⟩ | ⟨k, hk, hrest⟩ := hrest
      · refine ⟨K₁, hlook, hmono₁, ?_⟩
        rintro _ _ ⟨⟩ x hx
        exact hknown x (List.mem_reverse.mp hx)
      · obtain ⟨K', hcourse, hmono, hall⟩ := ih k hk hknown hrest
        exact ⟨K', hlook.trans hcourse, fun x hx => hmono x (hmono₁ x hx), hall⟩

/-- Reading a block is a course, after which the instructions of the block are known. -/
theorem exists_course_of_form {pc : Word} {limit : Nat} {r : Except CompileError Block}
    (on : (Block.form Memory.fetch pc limit).on memory = .ok (r, memory')) :
  ∃ K', Course handler ⟨K, ⟨hart, memory⟩, h⟩ 0 ⟨K', ⟨hart, memory'⟩, h⟩ ∧ (∀ d, K d → K' d) ∧
    ∀ block, r = .ok block → ∀ d ∈ block.insns, K' d
  := by
  unfold Block.form at on
  rw [on_bind] at on
  split at on
  case h_1 insns memory₁ hcollect =>
    cases on
    obtain ⟨K', hcourse, hmono, hall⟩ := exists_course_of_collect (by simp) hcollect
    refine ⟨K', hcourse, hmono, ?_⟩
    rintro _ ⟨⟩
    exact hall _ _ rfl
  case h_2 e memory₁ hcollect =>
    cases on
    obtain ⟨K', hcourse, hmono, -⟩ := exists_course_of_collect (by simp) hcollect
    exact ⟨K', hcourse, hmono, nofun⟩
  case h_3 => cases on

end

/-! ### Single steps -/

/-- Instructions were carried out, and the one after them ended in some way. -/
def Reaches (handler : Handler η) (s : Scene η) (n : Nat) (r : Except Exception Hart.StepExit)
    (t : Scene η) : Prop :=
  ∃ t₀ d g, Course handler s n t₀ ∧ t₀.Next d ∧ (Hart.step d).on t₀.guest = .ok (r, g) ∧
    t = { t₀ with guest := g.tallied r }

theorem Reaches.after {s t u : Scene η} {n k : Nat} {r : Except Exception Hart.StepExit}
    (h : Reaches handler t k r u) (course : Course handler s n t) :
  Reaches handler s (n + k) r u
  := by
  obtain ⟨t₀, d, g, hcourse, hrest⟩ := h
  exact ⟨t₀, d, g, course.trans hcourse, hrest⟩

/-- A guest that paid for some instructions of a run of compiled code. -/
structure Guest.Pays (g g' : Guest) (n : Nat) : Prop where
  budget : n + g'.hart.budget.toNat = g.hart.budget.toNat
  start : g'.hart.budgetStart = g.hart.budgetStart
  retired : g'.hart.retired = g.hart.retired
  sound : g'.memory.Sound

theorem Guest.Pays.of_step {g g' : Guest} (proceeds : g.Proceeds Memory.StaysSound g')
    (left : 0 < g.hart.budget.toNat) (r : Except Exception Hart.StepExit) :
  g.Pays (Hart.settle r g') (Hart.charges r).toNat
  := by
  unfold Hart.settle
  split
  case isTrue hcharges =>
    rw [hcharges]
    refine ⟨?_, proceeds.start, proceeds.retired, proceeds.memory.2⟩
    rw [Bool.toNat_true, Nat.add_comm]
    exact Machine.toNat_budget_charged proceeds.budget left
  case isFalse hcharges =>
    rw [Bool.eq_false_iff.mpr hcharges]
    refine ⟨?_, proceeds.start, proceeds.retired, proceeds.memory.2⟩
    rw [Bool.toNat_false, Nat.zero_add, proceeds.budget]

/-- Single steps through instructions that are known and that the budget covers. -/
theorem exists_reaches_of_steps (handler : Handler η) {K : Located → Prop} {ds : List Located}
    (ne : ds ≠ []) {g g' : Guest} {r : Except Exception Hart.StepExit} (sound : g.memory.Sound)
    (known : ∀ d ∈ ds, K d) (proper : ∀ d ∈ ds, d.instr.IsProper) (track : Hart.OnTrack ds g)
    (covered : ds.length ≤ g.hart.budget.toNat) (steps : Hart.steps ds g = .ok (r, g')) (h : η) :
  ∃ n < ds.length, Reaches handler ⟨K, g.seen, h⟩ n r ⟨K, g'.seen, h⟩ ∧
    g.Pays g' (n + (Hart.charges r).toNat)
  := by
  induction ds generalizing g with
  | nil => exact absurd rfl ne
  | cons d ds ih =>
    obtain ⟨hproper, hpropers⟩ := List.forall_mem_cons.mp proper
    obtain ⟨hknown, hknowns⟩ := List.forall_mem_cons.mp known
    obtain ⟨hpc, hrest⟩ := track
    rw [List.length_cons] at covered ⊢
    obtain ⟨⟨r₁, g₁⟩, hstep, hproceeds⟩ := (Hart.stays_step_of Memory.isRoutine_staysSound hproper g
      (Guest.proceeds_self sound.stays)).exists_ok trivial
    have hpays := Guest.Pays.of_step hproceeds (by omega) r₁
    have hnext : Scene.Next ⟨K, g.seen, h⟩ d := ⟨hknown, hpc⟩
    have hone : Reaches handler ⟨K, g.seen, h⟩ 0 r₁ ⟨K, (Hart.settle r₁ g₁).seen, h⟩ := by
      rw [Guest.seen_settle]
      exact ⟨_, d, g₁.seen, .start, hnext, Hart.step_seen hstep, rfl⟩
    rw [← Nat.zero_add (Hart.charges r₁).toNat] at hpays
    rw [Hart.steps_cons d ds hstep] at steps
    split at steps
    case isTrue hcontinue =>
      subst hcontinue
      -- How the last instruction ended decides if it counts, so it is not part of the course.
      cases ds with
      | nil =>
        cases steps
        exact ⟨0, by omega, hone, hpays⟩
      | cons d' ds =>
        have hcourse : Course handler ⟨K, g.seen, h⟩ 1 ⟨K, g₁.charged.seen, h⟩ := by
          rw [Guest.seen_charged]
          exact .retire .start hnext (Hart.step_seen hstep) nofun
        have hspent : 1 + g₁.charged.hart.budget.toNat = g.hart.budget.toNat := hpays.budget
        have hsound : g₁.charged.memory.Sound := hpays.sound
        rw [Hart.settle_continue] at steps
        obtain ⟨n, hn, hreaches, hbudget, hstart, hretired, hsound'⟩ :=
          ih (List.cons_ne_nil _ _) hsound hknowns hpropers (hrest g₁ hstep) (by omega) steps
        refine ⟨1 + n, by omega, hreaches.after hcourse, ?_, ?_, ?_, hsound'⟩
        · omega
        · exact hstart.trans hpays.start
        · exact hretired.trans hpays.retired
    case isFalse =>
      cases steps
      exact ⟨0, by omega, hone, hpays⟩

end CrossHart
