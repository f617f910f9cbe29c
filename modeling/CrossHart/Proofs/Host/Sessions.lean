import CrossHart.Proofs.Host.Assignment
import Mathlib.Data.Finset.Card

/-!
# Sessions with an assignment

In a session, requests are made of an assignment one after the other, the code of each is carried
out, and new values are put into the host registers that are handed out for them.  The session keeps
book of the value written last to each guest register, and of the host registers that the current
instruction has.  Whatever the requests are, the assignment finds every guest register with the value
written last to it.
-/

namespace CrossHart.Host

/-- A request of an assignment. -/
inductive Request where
  /-- The next guest instruction. -/
  | begin
  | use (i : Nat)
  /-- A host register for a guest register, into which its new value is put. -/
  | define (i : Nat) (v : Word)
  | toMemory (i : Nat)
  | sync
  | flush
  | invalidate

/-- A session with an assignment. -/
structure Session where
  assignment : Assignment := {}
  processor : Processor
  /-- The values written last. -/
  file : Vector Word 32 := processor.guest.file
  /-- The guest registers that the current instruction asked for. -/
  asked : Finset Nat := ∅
  /-- The host registers that the current instruction has for guest registers. -/
  lent : Nat → Option Reg := fun _ => none

namespace Request

/-- The guest register that a request asks for. -/
def target : Request → Option Nat
  | use i => some i
  | define i _ => some i
  | _ => none

/-- What an assignment does: the host register handed out, the code and the assignment after it. -/
def on (a : Assignment) : Request → Except Crash (Option Reg × List Instr × Assignment)
  | begin => .ok (none, [], a.beginInstr)
  | use i => (a.use i).map fun (r, code, a) => (some r, code, a)
  | define i _ => (a.define i).map fun (r, code, a) => (some r, code, a)
  | toMemory i => (a.setMemory i).map (none, ·)
  | sync => .ok (none, a.sync)
  | flush => a.flush.map (none, ·)
  | invalidate => a.invalidate.map (none, [], ·)

/-- The processor after a new value was put into the host register. -/
def fill (r : Option Reg) (p : Processor) : Request → Processor
  | define _ v => r.elim p (p.setReg · v)
  | _ => p

/-- The values written last. -/
def fileAfter (file : Vector Word 32) : Request → Vector Word 32
  | define i v => if h : i < 32 then file.set i v else file
  | _ => file

/-- The guest registers that the instruction asked for. -/
def askedAfter (asked : Finset Nat) : Request → Finset Nat
  | begin => ∅
  | use i => insert i asked
  | define i _ => insert i asked
  | _ => asked

/-- The host registers that the instruction has.  It loses them when they are moved to the register
file or forgotten. -/
def lentAfter (r : Option Reg) (lent : Nat → Option Reg) : Request → Nat → Option Reg
  | begin => fun _ => none
  | use i => Function.update lent i r
  | define i _ => Function.update lent i r
  | toMemory i => Function.update lent i none
  | sync => lent
  | flush => fun _ => none
  | invalidate => fun _ => none

end Request

namespace Session

variable {env : Environment} {σ σ' : Session} {request : Request} {r : Option Reg}

/-- The session after a request. -/
def after (σ : Session) (request : Request) (r : Option Reg) (a : Assignment) (p : Processor) :
    Session where
  assignment := a
  processor := request.fill r p
  file := request.fileAfter σ.file
  asked := request.askedAfter σ.asked
  lent := request.lentAfter r σ.lent

/-- A request is answered with a host register or without, and leads to another session. -/
inductive Step (env : Environment) (σ : Session) (request : Request) (r : Option Reg) : Session → Prop
  | intro {code : List Instr} {a : Assignment} {p : Processor}
      (on : request.on σ.assignment = .ok (r, code, a)) (runs : Runs env code σ.processor p) :
    Step env σ request r (σ.after request r a p)

/-- The requests that may be made: an instruction asks for five guest registers at most, and slots
are forgotten only if none is newer than the register file. -/
def Admits (σ : Session) : Request → Prop
  | .use i => 0 < i ∧ i < 32 ∧ (insert i σ.asked).card ≤ slotCount
  | .define i _ => 0 < i ∧ i < 32 ∧ (insert i σ.asked).card ≤ slotCount
  | .toMemory i => 0 < i ∧ i < 32
  | .invalidate => σ.assignment.Clean
  | _ => True

/-- Requests lead from the start to a session. -/
inductive Reached (env : Environment) (p : Processor) : Session → Prop
  | start : Reached env p { processor := p }
  | step {σ σ' : Session} {request : Request} {r : Option Reg} (reached : Reached env p σ)
      (admitted : σ.Admits request) (step : Step env σ request r σ') : Reached env p σ'

/-- The value of a guest register: that of its host register, or the one in the register file. -/
def value (σ : Session) (i : Fin 32) : Word :=
  match σ.assignment.home? i with
  | some s => σ.processor.reg (slotReg s)
  | none => σ.processor.guest.file.get i

/-- Slots and guest registers are inverse to each other, without register 0.  Every guest register
has the value written last to it, in the register file too unless its slot is newer, and nothing
else of the guest changes.  The instruction's host registers are those of its guest registers. -/
structure Faithful (p : Processor) (σ : Session) : Prop where
  inverse : ∀ i s, σ.assignment.home? i = some s ↔ σ.assignment.guestAt s = some i
  zero : σ.assignment.home? 0 = none
  value : ∀ i, σ.value i = σ.file.get i
  clean : ∀ (i : Fin 32) s, σ.assignment.home? i = some s → (σ.assignment.slots.get s).dirty = false →
    σ.processor.reg (slotReg s) = σ.processor.guest.file.get i
  rest : σ.processor.guest.withFile p.guest.file = p.guest
  lent : ∀ i r, σ.lent i = some r → σ.assignment.get i = .ok (.reg r)

/-- An answer to a request.  A host register handed out is none of those that the instruction has for
other guest registers, which stay where they are.  After writing back, the register file has the
values written last.  After forgetting, no guest register has a slot. -/
structure Answers (σ : Session) (request : Request) (r : Option Reg) (σ' : Session) : Prop where
  handed : ∀ i, request.target = some i → ∃ r', r = some r' ∧ σ'.assignment.get i = .ok (.reg r')
  spared : ∀ i j r', request.target = some i → j ≠ i → σ.lent j = some r' →
    r ≠ some r' ∧ σ'.assignment.get j = .ok (.reg r') ∧ σ'.processor.reg r' = σ.processor.reg r'
  filed : request = .sync ∨ request = .flush →
    σ'.processor.guest.file = σ'.file ∧ σ'.assignment.Clean
  forgotten : request = .flush ∨ request = .invalidate → ∀ i, σ'.assignment.home? i = none

/-! ### The invariant -/

variable {p : Processor}

/-- What requests keep.  Slots in use that hold something hold what the instruction asked for. -/
structure Sound (env : Environment) (p : Processor) (σ : Session) : Prop where
  matched : σ.assignment.Matched
  represents : Assignment.Represents env σ.assignment σ.processor (p.guest.withFile σ.file)
  lent : ∀ i r, σ.lent i = some r →
    ∃ s, r = slotReg s ∧ σ.assignment.guestAt s = some i ∧ σ.assignment.pinned.get s = true
  asked : ∀ s i, σ.assignment.pinned.get s = true → σ.assignment.guestAt s = some i → i ∈ σ.asked

end Session

namespace Assignment

variable {a b : Assignment} {s t : Fin slotCount} {i j : Nat}

theorem Matched.get_eq (matched : a.Matched) (held : a.guestAt s = some i) :
  a.get i = .ok (.reg (slotReg s))
  := by
  rw [get, home_eq a (matched.lt held), (matched.home_iff i s).mpr held]
  rfl

/-- A slot in use for a guest register is not given to another one. -/
theorem Gives.ne_of_pinned (gives : Gives a s i b) (held : a.guestAt t = some j)
    (used : a.pinned.get t = true) (ne : j ≠ i) :
  s ≠ t
  := by
  rintro rfl
  obtain held' | free | unused := gives.given
  · rw [held, Option.some.injEq] at held'
    exact ne held'
  · cases free.symm.trans held
  · cases unused.symm.trans used

theorem flush_eq (matched : a.Matched) :
  a.flush = .ok (a.sync.1, { clock := a.clock })
  := by
  have hflush : a.flush = a.sync.2.invalidate >>= fun b => pure (a.sync.1, b) := rfl
  rw [hflush, invalidate_sync matched]
  rfl

/-- A guest register is moved to the register file, and the others stay. -/
theorem setMemory_spec (matched : a.Matched) (pos : 0 < i) (lt : i < 32) :
  ∃ code b, a.setMemory i = .ok (code, b) ∧ b.Matched ∧ b.pinned = a.pinned ∧
    (∀ t, b.guestAt t = if a.guestAt t = some i then none else a.guestAt t) ∧
    ∀ env p g, Represents env a p g →
      ∃ g', Runs env code p (p.withGuest g') ∧ Represents env b (p.withGuest g') g
  := by
  rw [setMemory, if_neg (Nat.ne_of_gt pos), home_eq a lt]
  cases hhome : a.home? i with
  | none =>
    refine ⟨[], a, rfl, matched, rfl, fun t => ?_, fun env p g h => ⟨p.guest, Runs.nil, h⟩⟩
    rw [if_neg]
    intro ht
    rw [(matched.home_iff i t).mpr ht] at hhome
    cases hhome
  | some s =>
    have hguest := (matched.home_iff i s).mp hhome
    use (a.spill s).1, (a.spill s).2
    refine ⟨rfl, matched.spill s, pinned_spill a s, fun t => ?_, fun env p g h => ?_⟩
    · rw [guestAt_spill]
      apply if_congr _ rfl rfl
      constructor
      · rintro rfl
        exact hguest
      · intro ht
        rw [(matched.home_iff i t).mpr ht, Option.some.injEq] at hhome
        exact hhome.symm
    · exact h.spill matched s

end Assignment

namespace Session

variable {env : Environment} {σ σ' : Session} {request : Request} {r : Option Reg} {p : Processor}

/-- A session has the values of the guest that is represented. -/
theorem value_eq (σ : Session) (matched : σ.assignment.Matched) {g : Guest}
    (represents : Assignment.Represents env σ.assignment σ.processor g) (i : Fin 32) :
  σ.value i = g.file.get i
  := by
  unfold value
  split
  case h_1 s hs => exact represents.held s i ((matched.home_iff i s).mp hs)
  case h_2 hs =>
    apply represents.filed i
    intro t ht
    rw [(matched.home_iff i t).mpr ht] at hs
    cases hs

theorem Sound.faithful (sound : Sound env p σ) :
  σ.Faithful p
  := by
  obtain ⟨matched, represents, lent, -⟩ := sound
  refine ⟨matched.home_iff, ?_, fun i => ?_, fun i s hs hclean => ?_, ?_, fun i r hr => ?_⟩
  · cases h : σ.assignment.home? 0 with
    | none => rfl
    | some s => exact absurd ((matched.home_iff 0 s).mp h) (matched.pos s)
  · exact σ.value_eq matched represents i
  · have hguest := (matched.home_iff i s).mp hs
    rw [represents.held s i hguest]
    symm
    apply represents.filed i
    intro t ht
    rw [(matched.home_iff i t).mpr ht, Option.some.injEq] at hs
    rw [hs, hclean]
  · exact congrArg (·.withFile p.guest.file) represents.rest
  · obtain ⟨s, rfl, hguest, -⟩ := lent i r hr
    exact matched.get_eq hguest

/-- While an instruction asks for five guest registers at most, there is a slot for each of them. -/
theorem Sound.exists_available (sound : Sound env p σ) {i : Nat}
    (few : (insert i σ.asked).card ≤ slotCount) (homeless : σ.assignment.home? i = none) :
  ∃ s, σ.assignment.Available s
  := by
  by_contra! h
  have hheld (s : Fin slotCount) : ∃ j ∈ σ.asked.erase i, σ.assignment.guestAt s = some j := by
    obtain ⟨hguest, hused⟩ := not_or.mp (h s)
    obtain ⟨j, hj⟩ := Option.ne_none_iff_exists'.mp hguest
    refine ⟨j, Finset.mem_erase.mpr ⟨?_, sound.asked s j (by simpa using hused) hj⟩, hj⟩
    rintro rfl
    rw [(sound.matched.home_iff j s).mpr hj] at homeless
    cases homeless
  choose f hasked hguest using hheld
  -- The slots hold five other guest registers that the instruction asked for.
  have hle : slotCount ≤ (σ.asked.erase i).card := by
    have hinjective : Function.Injective f := by
      intro s t hst
      have hs := (sound.matched.home_iff _ s).mpr (hguest s)
      have ht := (sound.matched.home_iff _ t).mpr (hguest t)
      rw [hst, ht] at hs
      exact (Option.some.inj hs).symm
    calc slotCount = Finset.univ.card := (Finset.card_fin slotCount).symm
      _ ≤ (σ.asked.erase i).card :=
        Finset.card_le_card_of_injOn f (fun s _ => hasked s) hinjective.injOn
  have hlt : (σ.asked.erase i).card < (insert i σ.asked).card := by
    apply Finset.card_lt_card
    apply Finset.ssubset_iff_subset_ne.mpr
    refine ⟨(Finset.erase_subset i _).trans (Finset.subset_insert i _), fun h => ?_⟩
    exact Finset.notMem_erase i σ.asked (h ▸ Finset.mem_insert_self i _)
  omega

/-- A slot was given to a guest register that the instruction asked for. -/
theorem Sound.give (sound : Sound env p σ) {s : Fin slotCount} {i : Nat} {b : Assignment}
    (gives : Assignment.Gives σ.assignment s i b) {q : Processor} {file : Vector Word 32}
    (represents : Assignment.Represents env b q (p.guest.withFile file)) :
  Sound env p ⟨b, q, file, insert i σ.asked, Function.update σ.lent i (some (slotReg s))⟩
  := by
  refine ⟨gives.matched, represents, fun j r hr => ?_, fun t j hused hheld => ?_⟩
  · dsimp only at hr ⊢
    rw [Function.update_apply] at hr
    split at hr
    case isTrue hji =>
      refine ⟨s, (Option.some.inj hr).symm, ?_, ?_⟩
      · rw [hji, gives.guest]
      · rw [gives.pinned, if_pos rfl]
    case isFalse hji =>
      obtain ⟨t, rfl, hheld, hused⟩ := sound.lent j r hr
      have hst := gives.ne_of_pinned hheld hused hji
      refine ⟨t, rfl, ?_, ?_⟩
      · rw [gives.others t hst, hheld]
      · rw [gives.pinned, if_neg hst, hused]
  · dsimp only at hused hheld ⊢
    by_cases hst : s = t
    · rw [← hst, gives.guest, Option.some.injEq] at hheld
      rw [hheld]
      exact Finset.mem_insert_self j _
    · rw [gives.others t hst] at hheld
      rw [gives.pinned, if_neg hst] at hused
      exact Finset.mem_insert_of_mem (sound.asked t j hused hheld)

/-- What is handed out when a slot is given to a guest register. -/
theorem Sound.answers_give (sound : Sound env p σ) {s : Fin slotCount} {i : Nat}
    (target : request.target = some i)
    (gives : Assignment.Gives σ.assignment s i σ'.assignment)
    (kept : ∀ t, s ≠ t → σ'.processor.reg (slotReg t) = σ.processor.reg (slotReg t)) :
  σ.Answers request (some (slotReg s)) σ'
  := by
  refine ⟨fun j hj => ?_, fun j k r' hj hne hlent => ?_, ?_, ?_⟩
  · cases target.symm.trans hj
    exact ⟨_, rfl, gives.matched.get_eq gives.guest⟩
  · cases target.symm.trans hj
    obtain ⟨t, rfl, hheld, hused⟩ := sound.lent k r' hlent
    have hst := gives.ne_of_pinned hheld hused hne
    refine ⟨fun heq => hst (slotReg_injective (Option.some.inj heq)), ?_, kept t hst⟩
    apply gives.matched.get_eq
    rw [gives.others t hst, hheld]
  · rintro (rfl | rfl) <;> cases target
  · rintro (rfl | rfl) <;> cases target

/-! ### Requests one by one -/

theorem Sound.use (sound : Sound env p σ) {i : Nat} (admitted : σ.Admits (.use i)) :
  ∃ r σ', Step env σ (.use i) r σ' ∧ Sound env p σ' ∧ σ.Answers (.use i) r σ'
  := by
  obtain ⟨pos, lt, few⟩ := admitted
  obtain ⟨s, code, b, huse, gives, hruns⟩ :=
    Assignment.use_gives sound.matched (sound.exists_available few) pos lt
  obtain ⟨q, hrun, hrep, -, hkept⟩ := hruns env _ _ sound.represents
  have hon : (Request.use i).on σ.assignment = .ok (some (slotReg s), code, b) := by
    rw [Request.on, huse]
    rfl
  refine ⟨_, _, .intro hon hrun, sound.give gives hrep, sound.answers_give rfl gives fun t hst => ?_⟩
  exact hkept (slotReg t) fun h => absurd (slotReg_injective h).symm hst

theorem Sound.define (sound : Sound env p σ) {i : Nat} {v : Word} (admitted : σ.Admits (.define i v)) :
  ∃ r σ', Step env σ (.define i v) r σ' ∧ Sound env p σ' ∧ σ.Answers (.define i v) r σ'
  := by
  obtain ⟨pos, lt, few⟩ := admitted
  obtain ⟨s, code, b, hdefine, gives, hruns⟩ :=
    Assignment.define_gives sound.matched (sound.exists_available few) pos lt
  obtain ⟨g', hrun, hrep⟩ := hruns env _ _ sound.represents
  have hon : (Request.define i v).on σ.assignment = .ok (some (slotReg s), code, b) := by
    rw [Request.on, hdefine]
    rfl
  have hfile : (Request.define i v).fileAfter σ.file = σ.file.set i v := dif_pos lt
  have hput := hrep v
  rw [Guest.put_eq_withFile _ pos lt, Guest.withFile_withFile, Guest.file_withFile, ← hfile] at hput
  refine ⟨_, _, .intro hon hrun, sound.give gives hput, sound.answers_give rfl gives fun t hst => ?_⟩
  apply Processor.reg_setReg_of_ne
  exact fun h => hst (slotReg_injective h)

theorem Sound.toMemory (sound : Sound env p σ) {i : Nat} (admitted : σ.Admits (.toMemory i)) :
  ∃ r σ', Step env σ (.toMemory i) r σ' ∧ Sound env p σ' ∧ σ.Answers (.toMemory i) r σ'
  := by
  obtain ⟨pos, lt⟩ := admitted
  have hanswers (σ' : Session) : σ.Answers (.toMemory i) none σ' := ⟨nofun, nofun, nofun, nofun⟩
  obtain ⟨code, b, hset, hmatched, hpinned, hguests, hruns⟩ :=
    Assignment.setMemory_spec sound.matched pos lt
  obtain ⟨g', hrun, hrep⟩ := hruns env _ _ sound.represents
  have hon : (Request.toMemory i).on σ.assignment = .ok (none, code, b) := by
    rw [Request.on, hset]
    rfl
  refine ⟨none, _, .intro hon hrun, ⟨hmatched, hrep, fun j r hr => ?_, fun s j hused hheld => ?_⟩,
    hanswers _⟩
  · obtain ⟨hji, hr⟩ : j ≠ i ∧ σ.lent j = some r := by
      simpa [after, Request.lentAfter, Function.update_apply] using hr
    obtain ⟨s, rfl, hheld, hused⟩ := sound.lent j r hr
    refine ⟨s, rfl, ?_, ?_⟩
    · change b.guestAt s = some j
      rw [hguests, hheld, if_neg]
      simpa using hji
    · change b.pinned.get s = true
      rw [hpinned, hused]
  · change b.pinned.get s = true at hused
    change b.guestAt s = some j at hheld
    rw [hpinned] at hused
    rw [hguests] at hheld
    split at hheld
    · cases hheld
    · exact sound.asked s j hused hheld

theorem Sound.sync (sound : Sound env p σ) :
  ∃ r σ', Step env σ .sync r σ' ∧ Sound env p σ' ∧ σ.Answers .sync r σ'
  := by
  obtain ⟨hrun, hrep⟩ := sound.represents.sync sound.matched
  refine ⟨none, _, .intro rfl hrun, ⟨sound.matched.sync, hrep, ?_, ?_⟩, nofun, nofun, fun _ => ?_, ?_⟩
  · change ∀ i r, σ.lent i = some r → ∃ s, r = slotReg s ∧ σ.assignment.sync.2.guestAt s = some i ∧ _
    rw [Assignment.guestAt_sync]
    exact sound.lent
  · change ∀ s i, _ → σ.assignment.sync.2.guestAt s = some i → _
    rw [Assignment.guestAt_sync]
    exact sound.asked
  · exact ⟨rfl, sound.matched.clean_sync⟩
  · rintro (h | h) <;> cases h

/-- Nothing is assigned. -/
theorem Sound.of_empty {clock : Nat} {asked : Finset Nat} {q : Processor}
    (base : q.reg stateReg = env.state) {file : Vector Word 32}
    (same : q.guest = p.guest.withFile file) :
  Sound env p ⟨{ clock }, q, file, asked, fun _ => none⟩
  := by
  refine ⟨(Assignment.WellFormed.empty clock).toMatched, ?_, nofun, fun s i _ hheld => ?_⟩
  · rw [← same]
    exact .empty base clock
  · cases (Assignment.guestAt_empty clock s).symm.trans hheld

theorem home?_empty (clock i : Nat) :
  Assignment.home? { clock } i = none
  := by
  rw [Assignment.home?]
  by_cases h : i < 32 <;> simp [h]

theorem Sound.flush (sound : Sound env p σ) :
  ∃ r σ', Step env σ .flush r σ' ∧ Sound env p σ' ∧ σ.Answers .flush r σ'
  := by
  obtain ⟨hrun, hrep⟩ := sound.represents.sync sound.matched
  have hon : Request.flush.on σ.assignment =
      .ok (none, σ.assignment.sync.1, { clock := σ.assignment.clock }) := by
    rw [Request.on, Assignment.flush_eq sound.matched]
    rfl
  refine ⟨none, _, .intro hon hrun, .of_empty hrep.base rfl, nofun, nofun, fun _ => ⟨rfl, ?_⟩, fun _ => ?_⟩
  · intro s
    simp [after]
  · exact home?_empty _

theorem Sound.invalidate (sound : Sound env p σ) (admitted : σ.Admits .invalidate) :
  ∃ r σ', Step env σ .invalidate r σ' ∧ Sound env p σ' ∧ σ.Answers .invalidate r σ'
  := by
  have hon : Request.invalidate.on σ.assignment = .ok (none, [], { clock := σ.assignment.clock }) := by
    rw [Request.on, Assignment.invalidate_of_clean admitted]
    rfl
  refine ⟨none, _, .intro hon Runs.nil, .of_empty sound.represents.base ?_, nofun, nofun, ?_, fun _ => ?_⟩
  · exact sound.represents.guest_eq admitted
  · rintro (h | h) <;> cases h
  · exact home?_empty _

theorem Sound.begin (sound : Sound env p σ) :
  ∃ r σ', Step env σ .begin r σ' ∧ Sound env p σ' ∧ σ.Answers .begin r σ'
  := by
  have hmatched : σ.assignment.beginInstr.Matched :=
    ⟨sound.matched.home_iff, sound.matched.pos, sound.matched.clean⟩
  refine ⟨none, _, .intro rfl Runs.nil, ⟨hmatched, sound.represents.beginInstr, nofun, fun s i hused => ?_⟩,
    nofun, nofun, ?_, ?_⟩
  · simp [after, Assignment.beginInstr] at hused
  · rintro (h | h) <;> cases h
  · rintro (h | h) <;> cases h

/-- A request that may be made is answered. -/
theorem Sound.exists_step (sound : Sound env p σ) (admitted : σ.Admits request) :
  ∃ r σ', Step env σ request r σ' ∧ Sound env p σ' ∧ σ.Answers request r σ'
  := by
  cases request with
  | begin => exact sound.begin
  | use i => exact sound.use admitted
  | define i v => exact sound.define admitted
  | toMemory i => exact sound.toMemory admitted
  | sync => exact sound.sync
  | flush => exact sound.flush
  | invalidate => exact sound.invalidate admitted

/-- There is one answer to a request. -/
theorem Step.unique {r' : Option Reg} {σ₁ σ₂ : Session} (h : Step env σ request r σ₁)
    (h' : Step env σ request r' σ₂) :
  r = r' ∧ σ₁ = σ₂
  := by
  obtain ⟨on, runs⟩ := h
  obtain ⟨on', runs'⟩ := h'
  cases on.symm.trans on'
  cases runs.symm.trans runs'
  exact ⟨rfl, rfl⟩

theorem Sound.step (sound : Sound env p σ) (admitted : σ.Admits request)
    (step : Step env σ request r σ') :
  Sound env p σ' ∧ σ.Answers request r σ'
  := by
  obtain ⟨r', σ'', step', hsound, hanswers⟩ := sound.exists_step admitted
  obtain ⟨rfl, rfl⟩ := step.unique step'
  exact ⟨hsound, hanswers⟩

theorem Reached.sound (reached : Reached env p σ) (base : p.reg stateReg = env.state) :
  Sound env p σ
  := by
  induction reached with
  | start => exact .of_empty base rfl
  | step _ admitted step ih => exact (ih.step admitted step).1

/-- Whatever requests are made, every guest register has the value written last to it, and every
further request is answered, without touching the host registers that the instruction has. -/
theorem faithful_in_sessions (base : p.reg stateReg = env.state) (reached : Reached env p σ) :
  σ.Faithful p ∧ (∀ request, σ.Admits request → ∃ r σ', Step env σ request r σ') ∧
    ∀ request r σ', σ.Admits request → Step env σ request r σ' →
      σ'.Faithful p ∧ σ.Answers request r σ'
  := by
  have sound := reached.sound base
  refine ⟨sound.faithful, fun request admitted => ?_, fun request r σ' admitted step => ?_⟩
  · obtain ⟨r, σ', step, -⟩ := sound.exists_step admitted
    exact ⟨r, σ', step⟩
  · obtain ⟨hsound, hanswers⟩ := sound.step admitted step
    exact ⟨hsound.faithful, hanswers⟩

/-- A processor with the address of the state of the hart in all registers. -/
def idle : Processor where
  regs := Vector.replicate 16 Environment.standard.state
  position := 0
  guest := { memory := { space := { ram := .empty, base := 0 }, policy := .allowAll } }

/-- A guest register is given a value, moved to the register file and used again, by one
instruction. -/
theorem faithful_in_sessions_of_return :
  ∃ r₁ r₂ r₃ σ₁ σ₂ σ₃, Step .standard { processor := idle } (.define 1 11) r₁ σ₁ ∧
    Step .standard σ₁ (.toMemory 1) r₂ σ₂ ∧ Step .standard σ₂ (.use 1) r₃ σ₃ ∧
    Reached .standard idle σ₃ ∧ σ₃.Faithful idle ∧ σ₃.file[1] = 11 ∧ σ₂.Answers (.use 1) r₃ σ₃
  := by
  have hbase : idle.reg stateReg = Environment.standard.state := by decide
  have hdefine : Admits { processor := idle } (.define 1 11) := ⟨by decide, by decide, by decide⟩
  obtain ⟨r₁, σ₁, hstep₁⟩ := (faithful_in_sessions hbase .start).2.1 _ hdefine
  have hreached₁ : Reached .standard idle σ₁ := .step .start hdefine hstep₁
  have hmove : σ₁.Admits (.toMemory 1) := ⟨by decide, by decide⟩
  obtain ⟨r₂, σ₂, hstep₂⟩ := (faithful_in_sessions hbase hreached₁).2.1 _ hmove
  have hreached₂ : Reached .standard idle σ₂ := .step hreached₁ hmove hstep₂
  have hasked : σ₂.asked = {1} ∧ σ₂.file = idle.guest.file.set 1 11 := by
    cases hstep₁
    cases hstep₂
    exact ⟨rfl, rfl⟩
  have huse : σ₂.Admits (.use 1) := ⟨by decide, by decide, by rw [hasked.1]; decide⟩
  obtain ⟨-, hexists, hanswers⟩ := faithful_in_sessions hbase hreached₂
  obtain ⟨r₃, σ₃, hstep₃⟩ := hexists _ huse
  obtain ⟨hfaithful, hanswer⟩ := hanswers _ r₃ σ₃ huse hstep₃
  have hfile : σ₃.file[1] = 11 := by
    cases hstep₃
    change σ₂.file[1] = 11
    simp [hasked.2]
  exact ⟨r₁, r₂, r₃, σ₁, σ₂, σ₃, hstep₁, hstep₂, hstep₃, .step hreached₂ huse hstep₃, hfaithful, hfile,
    hanswer⟩

end Session

end CrossHart.Host
