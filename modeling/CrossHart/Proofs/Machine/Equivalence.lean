import CrossHart.Proofs.Machine.Turns
import CrossHart.Proofs.Userland.Kernel

/-!
# Compiled and interpreted runs

A machine that compiles and one that interprets every instruction, started from the same guest, run
alike: they end in the same way and leave the same guest and the same state of the handler.  This
rests on nothing being written over instructions that compiled code was made from, which is so by
itself where no page may be both written and executed.
-/

namespace CrossHart

open CrossHart.Action Isa Cache Host

variable {allows : Memory.Query → Bool} {η : Type}

/-- No page may be both written and executed. -/
def Memory.Exclusive (allows : Memory.Query → Bool) : Prop :=
  ∀ page, allows ⟨page, .write⟩ = false ∨ allows ⟨page, .execute⟩ = false

namespace Machine

variable {handler : Handler η} {m m' x x₁ : Machine} {c : CodeCache} {h h' h₁ : η} {n : Nat}

/-! ### Runs that interpret -/

theorem toNat_pos {b : Word} (pos : 0 < b.toInt) :
  0 < b.toNat
  := by
  have hcond := BitVec.toInt_eq_toNat_cond b
  split at hcond <;> omega

/-- The twin of a machine is a twin of its own. -/
theorem Twins.other (twins : Twins allows m x) :
  Twins allows x x
  := .of_alike twins.plain twins.alike twins.alike

/-- What interpreting instructions makes of a machine. -/
structure Interpreted (allows : Memory.Query → Bool) (x : Machine) (n : Nat) (x₁ : Machine) :
    Prop where
  twins : Twins allows x₁ x₁
  memory : x.guest.memory.Evolves allows x₁.guest.memory
  budget : n + x₁.guest.hart.budget.toNat = x.guest.hart.budget.toNat
  cache : x.cache = none → x₁.cache = none

theorem Interprets.interpreted (regular : Handler.IsRegular allows handler)
    (twins : Twins allows x x) (run : Interprets handler x h n x₁ h₁) :
  Interpreted allows x n x₁
  := by
  induction run with
  | zero => exact ⟨twins, twins.plain.evolves, Nat.zero_add _, fun hnone => hnone⟩
  | @succ n m₁ m₂ h₁ h₂ _ left on ih =>
    have hpairs := interpretOne_pairs regular ih.twins (toNat_pos left) h₁
    rw [on] at hpairs
    cases hpairs with
    | ok follows =>
      have hspent := follows.spends rfl
      have hbudget := ih.budget
      refine ⟨follows.twins, ?_, ?_, fun hnone => ?_⟩
      · exact (Memory.isCourse_evolves allows).trans _ _ _ ih.memory follows.keeps.memory
      · dsimp only at hspent
        omega
      · obtain hcache | hcache := follows.cache
        · exact hcache.trans (ih.cache hnone)
        · rw [ih.cache hnone] at hcache
          exact hcache

/-- Without a code cache, a turn is an interpreted instruction. -/
theorem turn_of_cache_eq_none (interpreting : x.cache = none) (handler : Handler η) (h : η) :
  turn handler x h = interpretOne handler x h
  := by
  obtain ⟨guest, cache, config, failures, entries, interpreted⟩ := x
  dsimp only at interpreting
  subst interpreting
  rfl

/-- Turns without a code cache go through interpreted instructions. -/
theorem turns_of_interprets (regular : Handler.IsRegular allows handler) (twins : Twins allows x x)
    (interpreting : x.cache = none) (run : Interprets handler x h n x₁ h₁) (fuel : Nat) :
  turns handler (n + fuel) x h = turns handler fuel x₁ h₁
  := by
  induction run generalizing fuel with
  | zero => rw [Nat.zero_add]
  | @succ n m₁ m₂ h₁ h₂ earlier left on ih =>
    have hcache := (earlier.interpreted regular twins).cache interpreting
    rw [Nat.add_assoc, Nat.add_comm 1, ih (fuel + 1), turns, if_neg (Int.not_le.mpr left),
      turn_of_cache_eq_none hcache, on]

/-! ### Runs side by side -/

/-- Turns of the engine that do not end the run lead to a machine. -/
inductive Comes (handler : Handler η) (m : Machine) (h : η) : Machine → η → Prop
  | refl : Comes handler m h m h
  | turn {m₁ m₂ : Machine} {h₁ h₂ : η} (earlier : Comes handler m h m₁ h₁)
      (left : 0 < m₁.guest.hart.budget.toInt) (on : turn handler m₁ h₁ = .ok (none, m₂, h₂)) :
    Comes handler m h m₂ h₂

theorem Comes.head (left : 0 < m.guest.hart.budget.toInt)
    (on : Machine.turn handler m h = .ok (none, m', h')) (rest : Comes handler m' h' x h₁) :
  Comes handler m h x h₁
  := by
  induction rest with
  | refl => exact .turn .refl left on
  | turn _ left' on' ih => exact .turn ih left' on'

/-- As long as the run goes on, no instruction and no system call changes a byte of a block that is
live in the code cache at that time. -/
def Undisturbed (handler : Handler η) (m : Machine) (h : η) : Prop :=
  ∀ m' h', Comes handler m h m' h' → 0 < m'.guest.hart.budget.toInt → Spared handler m' h'

theorem Undisturbed.next (undisturbed : Undisturbed handler m h)
    (left : 0 < m.guest.hart.budget.toInt) (on : turn handler m h = .ok (none, m', h')) :
  Undisturbed handler m' h'
  := fun m'' h'' rest => undisturbed m'' h'' (rest.head left on)

/-- Runs that end in the same way, with twins. -/
inductive Concur (allows : Memory.Query → Bool) (handler : Handler η) (horizon : Nat) :
    Except (Crash × η) (RunExit × Machine × η) → Except (Crash × η) (RunExit × Machine × η) → Prop
  | ok {exit : RunExit} {m x : Machine} {h : η} (twins : Twins allows m x) :
    Concur allows handler horizon (.ok (exit, m, h)) (.ok (exit, x, h))
  | crash {c : Crash} {h : η} (fails : Fails allows handler h horizon c) :
    Concur allows handler horizon (.error (c, h)) (.error (c, h))

theorem turns_exhausted (handler : Handler η) (fuel : Nat) (h : η)
    (exhausted : m.guest.hart.budget.toInt ≤ 0) :
  turns handler fuel m h = .ok (.quotaExhausted, m, h)
  := by
  unfold turns
  rw [if_pos exhausted]

theorem Concur.of_exhausted (twins : Twins allows m x) (exhausted : m.guest.hart.budget.toInt ≤ 0)
    {horizon f f' : Nat} :
  Concur allows handler horizon (turns handler f m h) (turns handler f' x h)
  := by
  rw [turns_exhausted handler f h exhausted]
  rw [← twins.alike.1.budget] at exhausted
  rw [turns_exhausted handler f' h exhausted]
  exact .ok twins

/-- Turns with compiled code and turns without, as many as the budget asks for. -/
theorem turns_concur (regular : Handler.IsRegular allows handler) {f f' : Nat}
    (twins : Twins allows m x) (stocked : m.Stocked allows c) (interpreting : x.cache = none)
    (undisturbed : Undisturbed handler m h) (enough : m.guest.hart.budget.toNat ≤ f)
    (enough' : m.guest.hart.budget.toNat ≤ f') :
  Concur allows handler m.guest.hart.horizon (turns handler f m h) (turns handler f' x h)
  := by
  induction f generalizing f' m x c h with
  | zero =>
    refine .of_exhausted twins ?_
    have hsigned := twins.signed
    rw [BitVec.toInt_eq_toNat_of_lt (by omega)]
    omega
  | succ f ih =>
    by_cases hleft : 0 < m.guest.hart.budget.toInt
    case neg => exact .of_exhausted twins (Int.not_lt.mp hleft)
    case pos =>
      have hspared := undisturbed m h .refl hleft
      obtain ⟨n, x₁, hrun, hleft', hpairs⟩ :=
        turn_pairs regular twins stocked (toNat_pos hleft) hspared
      have hinterpreted := hrun.interpreted regular twins.other
      have hcount := hinterpreted.budget
      have hpos := toNat_pos hleft'
      rw [twins.alike.1.budget] at hcount
      -- The twin needs a turn for every instruction; the budget covers them all.
      obtain ⟨k, rfl⟩ : ∃ k, f' = n + (k + 1) := ⟨f' - n - 1, by omega⟩
      have hcache := hinterpreted.cache interpreting
      rw [turns_of_interprets regular twins.other interpreting hrun, turns,
        if_neg (Int.not_le.mpr hleft), turns, if_neg (Int.not_le.mpr hleft'),
        turn_of_cache_eq_none hcache]
      generalize hturn : turn handler m h = a at hpairs
      generalize hone : interpretOne handler x₁ h = b at hpairs
      cases hpairs with
      | crash fails => exact .crash fails
      | @ok r r' advances =>
        obtain ⟨exit, m', h'⟩ := r
        obtain ⟨exit', x', h''⟩ := r'
        obtain rfl : exit = exit' := advances.exit
        obtain rfl : h' = h'' := advances.state
        cases exit with
        | some exit => exact .ok advances.twins
        | none =>
          obtain ⟨c', hstocked⟩ := advances.stocked rfl
          have hspends := advances.spends rfl
          have hnone := ((hrun.succ hleft' hone).interpreted regular twins.other).cache interpreting
          have hhorizon : m'.guest.hart.horizon = m.guest.hart.horizon :=
            advances.keeps.horizon
          dsimp only at hspends ⊢
          rw [← hhorizon]
          exact ih advances.twins hstocked hnone (undisturbed.next hleft hturn) (by omega) (by omega)

/-! ### Pages that are not both written and executed -/

/-- The bytes of live blocks are on pages that may be executed. -/
theorem executable_of_spans {m : Memory} (plain : m.Plain allows)
    (intact : c.Intact (Block.IsSource allows m.space)) {id : Nat} {b : Compiled}
    (live : c.block? id = some b) {addr : Word} (spans : b.Spans addr) :
  allows ⟨Memory.pageOf addr, .execute⟩ = true
  := by
  obtain ⟨block, d, source, codes, -⟩ := intact.linked.coded id b.bare (Table.bare_of_block? live)
  obtain ⟨d, hd, k, hk, rfl⟩ :=
    (Compiled.spans_iff source.formed source.small codes.pc codes.endPc addr).mp spans
  exact plain.executable_of_holds (source.held d hd) hk

/-- What may not be written is spared. -/
theorem spared_of_exclusive (exclusive : Memory.Exclusive allows)
    (regular : Handler.IsRegular allows handler) (twins : Twins allows m m)
    (stocked : m.Stocked allows c) :
  Spared handler m h
  := by
  intro id m₁ hcompiled c₁ hcache n _ m₂ h₂ hrun id b hb addr hspans
  obtain ⟨hhart, hlooks, c₂, hstocked, -⟩ :=
    (compiled_offers stocked twins.plain m.guest.hart.regs.pc).post_of_eq hcompiled
  dsimp only at hhart hlooks hstocked
  obtain rfl : c₂ = c₁ := Option.some.inj (hstocked.cache.symm.trans hcache)
  have hexecutable := executable_of_spans hlooks.after hstocked.intact hb hspans
  have htwins : Twins allows m₁ m₁ := by
    have honest := hlooks.after.toHonest
    refine ⟨⟨?_, honest, honest, rfl⟩, hlooks.after, ?_⟩
    · rw [hhart]
      exact twins.alike.1
    · rw [hhart]
      exact twins.level
  refine (hrun.interpreted regular htwins).memory.kept addr ?_
  obtain hwrite | hexecute := exclusive (Memory.pageOf addr)
  · exact hwrite
  · rw [hexecutable] at hexecute
    cases hexecute

/-- Where no page may be both written and executed, nothing is disturbed. -/
theorem undisturbed_of_exclusive (exclusive : Memory.Exclusive allows)
    (regular : Handler.IsRegular allows handler) (twins : Twins allows m m)
    (stocked : m.Stocked allows c) :
  Undisturbed handler m h
  := by
  have hall : ∀ m' h', Comes handler m h m' h' → Twins allows m' m' ∧ ∃ c, m'.Stocked allows c := by
    intro m' h' comes
    induction comes with
    | refl => exact ⟨twins, c, stocked⟩
    | @turn m₁ m₂ h₁ h₂ _ left on ih =>
      obtain ⟨htwins, c₁, hstocked⟩ := ih
      have hspared : Spared handler m₁ h₁ := spared_of_exclusive exclusive regular htwins hstocked
      obtain ⟨n, x₁, -, -, hpairs⟩ := turn_pairs regular htwins hstocked (toNat_pos left) hspared
      rw [on] at hpairs
      generalize interpretOne handler x₁ h₁ = y at hpairs
      cases hpairs with
      | ok advances => exact ⟨advances.twins.self, advances.stocked rfl⟩
  intro m' h' comes _
  obtain ⟨htwins, c', hstocked⟩ := hall m' h' comes
  exact spared_of_exclusive exclusive regular htwins hstocked

/-! ### Runs from the same guest -/

/-- The machine at the start of a run. -/
def started (m : Machine) (quota : Option Nat) : Machine :=
  m.withGuest ⟨{ m.guest.hart with
    budget := BitVec.ofNat 64 (budgetOf quota)
    budgetStart := BitVec.ofNat 64 (budgetOf quota) }, m.guest.memory⟩

theorem run_eq (handler : Handler η) (m : Machine) (h : η) (quota : Option Nat) :
  run handler m h quota = turns handler (budgetOf quota) (m.started quota) h
  := rfl

theorem toNat_budgetOf (quota : Option Nat) :
  (BitVec.ofNat 64 (budgetOf quota)).toNat = budgetOf quota ∧ budgetOf quota < 2 ^ 63
  := by
  have hle : budgetOf quota ≤ maxBudget := Nat.min_le_right _ _
  rw [maxBudget] at hle
  rw [BitVec.toNat_ofNat]
  omega

end Machine

/-- Guests with the same registers and program counter, the same count of instructions, the same
reservation and the same memory. -/
structure Guest.Same (g g' : Guest) : Prop where
  regs : g'.hart.regs = g.hart.regs
  retired : g'.hart.retired = g.hart.retired
  instret : g'.hart.instret = g.hart.instret
  reservation : g'.hart.reservation = g.hart.reservation
  space : g'.memory.space = g.memory.space

namespace Machine

variable {handler : Handler η} {m x : Machine} {c c₀ : CodeCache}

/-- Machines with the same guest are twins at the start of a run. -/
theorem twins_started (plain : m.guest.memory.Plain allows) (plain' : x.guest.memory.Plain allows)
    (same : m.guest.Same x.guest) (quota : Option Nat) :
  Twins allows (m.started quota) (x.started quota)
  := by
  obtain ⟨hbudget, hsigned⟩ := toNat_budgetOf quota
  refine ⟨⟨⟨same.regs, same.reservation, rfl, ?_, rfl, Nat.le_refl _, ?_, ?_⟩, plain.toHonest,
    plain'.toHonest, same.space.symm⟩, plain, rfl⟩
  · have hinstret (m : Machine) : (m.started quota).guest.hart.instret = m.guest.hart.retired := by
      rw [Hart.instret]
      dsimp only [started, withGuest]
      rw [BitVec.sub_self, BitVec.add_zero]
    rw [hinstret, hinstret, same.retired]
  · dsimp only [started, withGuest]
    rw [hbudget]
    exact hsigned
  · rw [Hart.total]
    dsimp only [started, withGuest]
    rw [Nat.sub_self]
    exact m.guest.hart.retired.isLt

/-- Twins have the same guest. -/
theorem Twins.same (twins : Twins allows m x) :
  m.guest.Same x.guest
  := by
  have hcounts := twins.alike.1
  refine ⟨hcounts.regs, ?_, hcounts.instret, hcounts.reservation, twins.alike.2.space.symm⟩
  apply BitVec.eq_of_toNat_eq
  rw [hcounts.toNat_retired, Hart.total, twins.level, Nat.sub_self]
  rfl

/-- A code cache without live blocks was compiled from memory. -/
theorem stocked_of_empty {size : Nat} {eviction : Eviction} {services : Services}
    {platform : Platform} (small : size ≤ 0x80000000) (distinct : services.Distinct)
    (created : CodeCache.create size eviction services platform = .ok (some c₀))
    (runs : CodeCache.Runs CodeCache.Admits c₀ c) (cache : m.cache = some c)
    (empty : ∀ id, c.block? id = none) :
  m.Stocked allows c
  := by
  have hcreated := CodeCache.created_of_create created
  have hintact := CodeCache.runs_intact (hcreated.intact small) runs
  obtain ⟨-, hguards⟩ := CodeCache.runs_arena hcreated.arena runs
  have hservices : c.services = services := hguards.services.trans hcreated.services
  refine ⟨cache, hservices ▸ distinct, ?_⟩
  refine hintact.imp fun id b block live => ?_
  obtain ⟨b', hb', -⟩ := Table.bare_eq_some.mp live
  cases (empty id).symm.trans hb'

/-- A machine with an empty code cache of at most two gigabytes and a machine that interprets run
alike from the same guest, whatever the quota, the greatest length of blocks and what a full cache
does.  They end in the same way, with the same guest and the same state of the handler, unless the
handler crashes or the count of instructions comes to its end; then both crash at that point.

No instruction or system call may write over a block that is live; under a policy that lets no page
be both written and executed, none does. -/
theorem compiled_run_as_interpreted {size : Nat} {eviction : Eviction} {services : Services}
    {platform : Platform} (regular : Handler.IsRegular allows handler)
    (plain : m.guest.memory.Plain allows) (plain' : x.guest.memory.Plain allows)
    (same : m.guest.Same x.guest) (interpreting : x.cache = none) (small : size ≤ 0x80000000)
    (distinct : services.Distinct)
    (created : CodeCache.create size eviction services platform = .ok (some c₀))
    (runs : CodeCache.Runs CodeCache.Admits c₀ c) (cache : m.cache = some c)
    (empty : ∀ id, c.block? id = none) (h : η) (quota : Option Nat) :
  (Memory.Exclusive allows → Undisturbed handler (m.started quota) h) ∧
  (Undisturbed handler (m.started quota) h →
    (∃ exit m' x' h', run handler m h quota = .ok (exit, m', h') ∧
      run handler x h quota = .ok (exit, x', h') ∧ m'.guest.Same x'.guest) ∨
    ∃ crash h', run handler m h quota = .error (crash, h') ∧
      run handler x h quota = .error (crash, h') ∧
      ((∃ call memory, memory.Plain allows ∧ handler call h' memory = .error crash) ∨
        crash = .overflow ∧ Word.count ≤ m.guest.hart.retired.toNat + budgetOf quota))
  := by
  obtain ⟨hbudget, -⟩ := toNat_budgetOf quota
  have htwins := twins_started plain plain' same quota
  have hstocked : (m.started quota).Stocked allows c :=
    stocked_of_empty small distinct created runs cache empty
  refine ⟨fun exclusive => undisturbed_of_exclusive exclusive regular htwins.self hstocked,
    fun undisturbed => ?_⟩
  have henough : (m.started quota).guest.hart.budget.toNat ≤ budgetOf quota := Nat.le_of_eq hbudget
  have hconcur := turns_concur regular htwins hstocked interpreting undisturbed henough henough
  have hhorizon : (m.started quota).guest.hart.horizon =
      m.guest.hart.retired.toNat + budgetOf quota := by
    rw [← hbudget]
    rfl
  rw [← run_eq, ← run_eq, hhorizon] at hconcur
  generalize run handler m h quota = a at hconcur
  generalize run handler x h quota = b at hconcur
  cases hconcur with
  | ok twins => exact .inl ⟨_, _, _, _, rfl, rfl, twins.same⟩
  | crash fails => exact .inr ⟨_, _, rfl, rfl, fails⟩

/-- Page 0 may not be written, and no other page may be executed. -/
def lowCode (q : Memory.Query) : Bool :=
  if q.page = 0 then q.access != .write else q.access != .execute

theorem exclusive_lowCode :
  Memory.Exclusive lowCode
  := by
  intro page
  by_cases hpage : page = 0
  · refine .inl ?_
    rw [lowCode, if_pos hpage]
    rfl
  · refine .inr ?_
    rw [lowCode, if_neg hpage]
    rfl

/-- A guest with a program in page 0 that stores a byte in page 1, branches, and asks to exit. -/
def exitingGuest : Guest where
  hart :=
    { regs := { x := (((Vector.replicate 32 0).set 2 0x1000).set 10 42).set 17 93 } }
  memory :=
    { space :=
        ⟨Bytes.overwrite (Bytes.zeros 0x2000) 0
          [0x23, 0x00, 0xa1, 0x00, 0x63, 0x12, 0x05, 0x00, 0x73, 0x00, 0x00, 0x00], 0, []⟩
      policy := .ofFun lowCode }

/-- The compiled run of a program that stores, branches and exits, without a quota. -/
theorem compiled_run_as_interpreted_to_exit :
  ∃ c m' x' k, CodeCache.create 0x10000 .fifo .standard = .ok (some c) ∧
    run Userland.Kernel.handle { guest := exitingGuest, cache := some c, config := {} }
      ⟨0, 0, 0, .standard⟩ none = .ok (.exit 42, m', k) ∧
    run Userland.Kernel.handle { guest := exitingGuest, cache := none, config := {} }
      ⟨0, 0, 0, .standard⟩ none = .ok (.exit 42, x', k) ∧ m'.guest.Same x'.guest
  := by
  obtain ⟨c, created⟩ :=
    CodeCache.exists_create (by decide : Platform.standard.Affords 0x10000) .fifo .standard
  have hempty (id : Nat) : c.block? id = none := by
    rw [CodeCache.block?, (CodeCache.created_of_create created).table]
    simp [Table.block?]
  have hplain : exitingGuest.memory.Plain lowCode := by
    refine Memory.plain_unused (fun _ _ => rfl) rfl rfl ?_
    rw [Bytes.size_overwrite, Bytes.size_zeros]
    rfl
  have hregular : Handler.IsRegular lowCode Userland.Kernel.handle :=
    Userland.Kernel.isRegular_handle
  have hexit : (run Userland.Kernel.handle { guest := exitingGuest, cache := none, config := {} }
      ⟨0, 0, 0, .standard⟩ none).toOption.map (·.1) = some (.exit 42) := by decide +kernel
  obtain ⟨hundisturbed, hrun⟩ := compiled_run_as_interpreted
    (m := { guest := exitingGuest, cache := some c, config := {} })
    (x := { guest := exitingGuest, cache := none, config := {} }) hregular hplain hplain
    ⟨rfl, rfl, rfl, rfl, rfl⟩ rfl (by decide) (by decide) created .refl rfl hempty
    ⟨0, 0, 0, .standard⟩ none
  obtain ⟨exit, m', x', k, hm', hx', hsame⟩ | ⟨crash, k, -, hx', -⟩ :=
    hrun (hundisturbed exclusive_lowCode)
  · rw [hx'] at hexit
    obtain rfl : exit = .exit 42 := Option.some.inj hexit
    exact ⟨c, m', x', k, created, hm', hx', hsame⟩
  · rw [hx'] at hexit
    cases hexit

end Machine

end CrossHart
