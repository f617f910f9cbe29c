import CrossHart.Proofs.Machine.Splitting

/-!
# Runs with another count of instructions

Machines with the same registers, the same reservation and the same memory can have counted different
numbers of instructions.  As long as the guest reads no counter they run alike, whatever they have
compiled so far.
-/

namespace CrossHart

open CrossHart.Action Isa Cache Host

variable {allows : Memory.Query → Bool} {η : Type}

namespace Hart

/-- The hart with `w` more instructions counted. -/
def recounted (w : Word) (h : Hart) : Hart :=
  { h with retired := h.retired + w }

/-- An instruction that reads no counter does not see the count. -/
theorem respects_step_recounted (w : Word) {d : Located} (unread : d.instr.readsCounter = false) :
  Respects (Guest.Rel (fun h k => k = h.recounted w) Eq) (step d)
  := by
  refine respects_step_of ⟨?_, ?_, ?_, ?_⟩ ?_ Memory.isCongruence_eq d fun hreads => ?_
  · rintro h _ rfl
    rfl
  · rintro h _ x rfl
    rfl
  · rintro h _ rfl
    rfl
  · rintro h _ addr rfl
    rfl
  · rintro h _ pc rfl
    rfl
  · cases hreads.symm.trans unread

end Hart

namespace Machine

variable {handler : Handler η} {m x x₁ t : Machine} {h h₁ : η} {n : Nat}

/-! ### Interpreted instructions -/

theorem retireOne_recounted {h : Hart} {w : Word} (room : h.retired.toNat + 1 < Word.count)
    (room' : (h.retired + w).toNat + 1 < Word.count) :
  retireOne (h.recounted w) = (retireOne h).map (Hart.recounted w)
  := by
  have hsum : Word.sum h.retired 1 = .ok (h.retired + 1) := if_pos room
  have hsum' : Word.sum (h.recounted w).retired 1 = .ok (h.retired + w + 1) := if_pos room'
  have hbudget : (h.recounted w).budget = h.budget := rfl
  unfold retireOne
  rw [hsum, hsum', hbudget, Except.ok_bind, Except.ok_bind]
  cases Word.signedDiff h.budget 1 with
  | error c => rfl
  | ok budget =>
    rw [Except.ok_bind, Except.ok_bind]
    unfold Hart.recounted
    rw [BitVec.add_assoc, BitVec.add_comm w, ← BitVec.add_assoc]
    rfl

/-- The machine with `w` more instructions counted. -/
def recounted (w : Word) (m : Machine) : Machine :=
  m.mapHart (Hart.recounted w)

/-- No instruction that is interpreted, one after the other, reads a counter. -/
def Uncounted (handler : Handler η) (x : Machine) (h : η) : Prop :=
  ∀ n x₁ h₁, Interprets handler x h n x₁ h₁ → 0 < x₁.guest.hart.budget.toInt → ∀ d memory,
    (Block.readInstr Memory.fetch x₁.guest.hart.regs.pc).on x₁.guest.memory = .ok (.ok d, memory) →
    d.instr.readsCounter = false

theorem Uncounted.next (uncounted : Uncounted handler x h) (left : 0 < x.guest.hart.budget.toInt)
    (on : interpretOne handler x h = .ok (none, x₁, h₁)) :
  Uncounted handler x₁ h₁
  := fun n x₂ h₂ rest => uncounted (n + 1) x₂ h₂ (rest.head left on)

/-- Whether the instruction at the program counter reads a counter. -/
def atCounter (x : Machine) : Bool :=
  match (Block.readInstr Memory.fetch x.guest.hart.regs.pc).on x.guest.memory with
  | .ok (.ok d, _) => d.instr.readsCounter
  | _ => false

/-- Whether a run comes to its end within some instructions, of which none reads a counter. -/
def endsUncounted (handler : Handler η) : Nat → Machine → η → Bool
  | 0, _, _ => false
  | n + 1, x, h =>
    !x.atCounter &&
      match interpretOne handler x h with
      | .ok (none, x, h) => endsUncounted handler n x h
      | _ => true

theorem Interprets.uncons {x₂ : Machine} {h₂ : η} (run : Interprets handler x h (n + 1) x₂ h₂) :
  ∃ x₁ h₁, interpretOne handler x h = .ok (none, x₁, h₁) ∧ Interprets handler x₁ h₁ n x₂ h₂
  := by
  induction n generalizing x₂ h₂ with
  | zero =>
    cases run with
    | succ earlier left on =>
      cases earlier
      exact ⟨_, _, on, .zero⟩
  | succ n ih =>
    cases run with
    | succ earlier left on =>
      obtain ⟨x₁, h₁, hfirst, hrest⟩ := ih earlier
      exact ⟨x₁, h₁, hfirst, hrest.succ left on⟩

theorem uncounted_of_endsUncounted {k : Nat} (check : endsUncounted handler k x h = true) :
  Uncounted handler x h
  := by
  induction k generalizing x h with
  | zero => cases check
  | succ k ih =>
    intro n x₁ h₁ run left d memory hread
    obtain ⟨hcounter, hrest⟩ := Bool.and_eq_true_iff.mp check
    cases n with
    | zero =>
      cases run
      unfold atCounter at hcounter
      rw [hread] at hcounter
      exact (Bool.not_eq_true' _).mp hcounter
    | succ n =>
      obtain ⟨x₂, h₂, hfirst, hlater⟩ := run.uncons
      rw [hfirst] at hrest
      exact ih hrest n x₁ h₁ hlater left d memory hread

/-- Without reading a counter, an interpreted instruction does the same, unless one of the two counts
comes to its end. -/
theorem interpretOne_recounted (handler : Handler η) (w : Word) (plain : m.guest.memory.Plain allows)
    (unread : ∀ d memory, (Block.readInstr Memory.fetch m.guest.hart.regs.pc).on m.guest.memory =
      .ok (.ok d, memory) → d.instr.readsCounter = false) (h : η) :
  interpretOne handler (m.recounted w) h =
      (interpretOne handler m h).map (Turn.mapHart (Hart.recounted w)) ∨
    interpretOne handler m h = .error .overflow ∧
      Word.count ≤ m.guest.hart.retired.toNat + 1 ∨
    interpretOne handler (m.recounted w) h = .error .overflow ∧
      Word.count ≤ (m.recounted w).guest.hart.retired.toNat + 1
  := by
  obtain hsame | ⟨hart, -, hretired, hretire, hfails, hfails'⟩ := interpretOne_mapHart handler
    (f := Hart.recounted w) (fun _ _ => rfl) plain
    (fun d memory hread => Hart.respects_step_recounted w (unread d memory hread)) h
  · exact .inl hsame
  have hretired' : (m.recounted w).guest.hart.retired = hart.retired + w := by
    rw [hretired]
    rfl
  rw [hretired', ← hretired]
  by_cases hroom : hart.retired.toNat + 1 < Word.count
  case neg =>
    have hfull := Nat.not_lt.mp hroom
    exact .inr (.inl ⟨hfails _ (retireOne_of_full hfull), hfull⟩)
  by_cases hroom' : (hart.retired + w).toNat + 1 < Word.count
  case neg =>
    have hfull := Nat.not_lt.mp hroom'
    exact .inr (.inr ⟨hfails' _ (retireOne_of_full hfull), hfull⟩)
  exact absurd (retireOne_recounted hroom hroom') hretire

/-! ### Interpreted runs -/

/-- Results of runs that differ in the count only, unless one of the runs came to the end of its
count. -/
inductive Recounts (w : Word) (horizon horizon' : Nat) :
    Except (Crash × η) (RunExit × Machine × η) → Except (Crash × η) (RunExit × Machine × η) → Prop
  | ok {exit : RunExit} {m : Machine} {h : η} :
    Recounts w horizon horizon' (.ok (exit, m, h)) (.ok (exit, m.recounted w, h))
  | crash {c : Crash} {h : η} : Recounts w horizon horizon' (.error (c, h)) (.error (c, h))
  | full {h : η} {r' : Except (Crash × η) (RunExit × Machine × η)} (full : Word.count ≤ horizon) :
    Recounts w horizon horizon' (.error (.overflow, h)) r'
  | full' {h : η} {r : Except (Crash × η) (RunExit × Machine × η)} (full : Word.count ≤ horizon') :
    Recounts w horizon horizon' r (.error (.overflow, h))

theorem Twins.recounted (twins : Twins allows x x) (w : Word) :
  Twins allows (x.recounted w) (x.recounted w)
  := ⟨⟨.self twins.level twins.signed, twins.alike.2⟩, twins.plain, twins.level⟩

theorem turns_recounted (regular : Handler.IsRegular allows handler) (w : Word)
    (twins : Twins allows x x) (interpreting : x.cache = none) (uncounted : Uncounted handler x h)
    (f : Nat) :
  Recounts w x.guest.hart.horizon (x.recounted w).guest.hart.horizon (turns handler f x h)
    (turns handler f (x.recounted w) h)
  := by
  have hinterpreting : (x.recounted w).cache = none := interpreting
  induction f generalizing x h with
  | zero =>
    by_cases hexhausted : x.guest.hart.budget.toInt ≤ 0
    · rw [turns_exhausted handler 0 h hexhausted,
        turns_exhausted (m := x.recounted w) handler 0 h hexhausted]
      exact .ok
    · unfold turns
      rw [if_neg hexhausted, if_neg (show ¬(x.recounted w).guest.hart.budget.toInt ≤ 0 from hexhausted)]
      exact .crash
  | succ f ih =>
    by_cases hexhausted : x.guest.hart.budget.toInt ≤ 0
    · rw [turns_exhausted handler _ h hexhausted,
        turns_exhausted (m := x.recounted w) handler _ h hexhausted]
      exact .ok
    have hleft := Int.not_le.mp hexhausted
    have hpos := toNat_pos hleft
    have hlevel := congrArg BitVec.toNat twins.level
    have hleft' : 0 < (x.recounted w).guest.hart.budget.toInt := hleft
    have hlevel' : (x.recounted w).guest.hart.budgetStart.toNat = x.guest.hart.budget.toNat := hlevel
    rw [turns, if_neg hexhausted, turns, if_neg (Int.not_le.mpr hleft'),
      turn_of_cache_eq_none interpreting, turn_of_cache_eq_none hinterpreting]
    obtain hsame | ⟨hfails, hfull⟩ | ⟨hfails, hfull⟩ :=
      interpretOne_recounted handler w twins.plain (uncounted 0 x h .zero hleft) h
    · rw [hsame]
      cases hone : interpretOne handler x h with
      | error c => exact .crash
      | ok result =>
        obtain ⟨exit, x₁, h₁⟩ := result
        cases exit with
        | some exit => exact .ok
        | none =>
          -- What is left to count is the same after an instruction, by either count.
          have hpairs := interpretOne_pairs regular twins hpos h
          have hpairs' := interpretOne_pairs regular (twins.recounted w) hpos h
          rw [hsame] at hpairs'
          rw [hone] at hpairs hpairs'
          cases hpairs with
          | ok follows =>
            cases hpairs' with
            | ok follows' =>
              have hinterpreted :=
                (Interprets.zero.succ hleft hone).interpreted regular twins
              have hrest := ih follows.twins (hinterpreted.cache interpreting)
                (uncounted.next hleft hone) (hinterpreted.cache interpreting)
              have hhorizon : x₁.guest.hart.horizon = x.guest.hart.horizon := follows.keeps.horizon
              have hhorizon' : (x₁.recounted w).guest.hart.horizon =
                  (x.recounted w).guest.hart.horizon := follows'.keeps.horizon
              rw [hhorizon, hhorizon'] at hrest
              exact hrest
    · rw [hfails]
      refine .full ?_
      rw [Hart.horizon]
      omega
    · rw [hfails]
      refine .full' ?_
      rw [Hart.horizon]
      omega

end Machine

/-! ### Runs in either mode -/

/-- Guests with the same registers and program counter, the same reservation and the same memory. -/
structure Guest.SameState (g g' : Guest) : Prop where
  regs : g'.hart.regs = g.hart.regs
  reservation : g'.hart.reservation = g.hart.reservation
  space : g'.memory.space = g.memory.space

namespace Machine

variable {handler : Handler η} {m t : Machine}

/-- The machine that interprets a guest. -/
def interpreting (g : Guest) : Machine where
  guest := g
  cache := none
  config := {}

/-- Machines in the same state run alike if the guest reads no counter, whatever they have counted and
compiled before.  They end in the same way, with guests in the same state and the same state of the
handler, unless the handler crashes, or one of the counts comes to its end and that machine
crashes. -/
theorem Ready.run_alike (regular : Handler.IsRegular allows handler) (ready : m.Ready allows)
    (ready' : t.Ready allows) (plain : m.guest.memory.Plain allows)
    (plain' : t.guest.memory.Plain allows) (same : m.guest.SameState t.guest) {h : η}
    {quota : Option Nat} (undisturbed : Undisturbed handler (m.started quota) h)
    (undisturbed' : Undisturbed handler (t.started quota) h)
    (uncounted : Uncounted handler ((interpreting m.guest).started quota) h) :
  (∃ exit m' t' h', run handler m h quota = .ok (exit, m', h') ∧
    run handler t h quota = .ok (exit, t', h') ∧ m'.guest.SameState t'.guest) ∨
  (∃ crash h', run handler m h quota = .error (crash, h') ∧
    run handler t h quota = .error (crash, h') ∧
    ∃ call memory, memory.Plain allows ∧ handler call h' memory = .error crash) ∨
  (∃ h', run handler m h quota = .error (.overflow, h') ∧
    Word.count ≤ m.guest.hart.retired.toNat + budgetOf quota) ∨
  ∃ h', run handler t h quota = .error (.overflow, h') ∧
    Word.count ≤ t.guest.hart.retired.toNat + budgetOf quota
  := by
  let x := interpreting m.guest
  let w := t.guest.hart.retired - m.guest.hart.retired
  have hretired : m.guest.hart.retired + w = t.guest.hart.retired := by
    rw [BitVec.add_comm, BitVec.sub_add_cancel]
  have htwins : Twins allows (x.started quota) (x.started quota) :=
    twins_started (m := x) (x := x) plain plain ⟨rfl, rfl, rfl, rfl, rfl⟩ quota
  -- Both machines run like ones that interpret, and those differ in the count only.
  have hm := ready.run_concur (x := x) regular plain plain ⟨rfl, rfl, rfl, rfl, rfl⟩ rfl h quota
    undisturbed
  have hsame : (t.started quota).guest.Same ((x.started quota).recounted w).guest := by
    refine ⟨same.regs.symm, hretired, ?_, same.reservation.symm, same.space.symm⟩
    change m.guest.hart.retired + w + _ = t.guest.hart.retired + _
    rw [hretired]
    rfl
  have ht := (ready'.started quota).run_concur (x := (x.started quota).recounted w) regular plain' plain
    hsame rfl h quota undisturbed'
  have hx := turns_recounted regular w htwins rfl uncounted (budgetOf quota)
  have hhorizon : (x.started quota).guest.hart.horizon =
      m.guest.hart.retired.toNat + budgetOf quota := by
    rw [← (toNat_budgetOf quota).1]
    rfl
  have hhorizon' : ((x.started quota).recounted w).guest.hart.horizon =
      t.guest.hart.retired.toNat + budgetOf quota := by
    rw [← (toNat_budgetOf quota).1, ← hretired]
    rfl
  rw [hhorizon, hhorizon'] at hx
  change Concur allows handler _ (run handler t h quota)
    (turns handler (budgetOf quota) ((x.started quota).recounted w) h) at ht
  rw [run_eq handler x] at hm
  generalize run handler m h quota = a at hm ⊢
  generalize run handler t h quota = b at ht ⊢
  generalize turns handler (budgetOf quota) (x.started quota) h = y at hm hx
  generalize turns handler (budgetOf quota) ((x.started quota).recounted w) h = z at ht hx
  cases hx with
  | ok =>
    cases hm with
    | ok twins =>
      cases ht with
      | ok twins' =>
        have hsame := twins.same
        have hsame' := twins'.same
        refine .inl ⟨_, _, _, _, rfl, rfl, ?_, ?_, ?_⟩
        · rw [← hsame.regs, ← hsame'.regs]
          rfl
        · rw [← hsame.reservation, ← hsame'.reservation]
          rfl
        · rw [← hsame.space, ← hsame'.space]
          rfl
  | crash =>
    cases hm with
    | crash fails =>
      cases ht with
      | crash fails' =>
        obtain hhandler | ⟨rfl, hfull⟩ := fails
        · exact .inr (.inl ⟨_, _, rfl, rfl, hhandler⟩)
        · exact .inr (.inr (.inl ⟨_, rfl, hfull⟩))
  | full hfull =>
    cases hm with
    | crash fails => exact .inr (.inr (.inl ⟨_, rfl, hfull⟩))
  | full' hfull =>
    cases ht with
    | crash fails => exact .inr (.inr (.inr ⟨_, rfl, hfull⟩))

end Machine

end CrossHart
