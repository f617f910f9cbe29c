import CrossHart.Proofs.Host.Emission
import CrossHart.Proofs.Host.Jump

/-!
# Reservations

Before the code of a block is written, a number of bytes is reserved that depends on the number of
its instructions only.  The code takes no more than that, and no other byte of the buffer is changed.
An exit is recorded for each address at which the block is known to go on, with its jump and its stub
in the code.  What can fail is a jump to a stub that is two gigabytes away, behind the ways out of very
many service calls, and the number of instructions, which is kept in 32 bits.
-/

namespace CrossHart

open Isa

/-! ### Exits of a block -/

/-- The addresses at which an instruction that ends a block is known to go on. -/
def Isa.Located.directExits (d : Located) : List Word :=
  match d.instr with
  | .jal _ imm => [d.pc + imm]
  | .branch _ _ _ imm => [d.next, d.pc + imm]
  | _ => []

namespace Block

/-- The number of addresses at which a block is known to go on. -/
def Ending.exitCount : Ending → Nat
  | branch => 2
  | jump | limit => 1
  | indirect | trap | fence => 0

/-- The addresses at which instructions with an ending are known to go on: behind them if they stop at
the limit, and otherwise where the last of them leads. -/
def exitsOf (ds : List Located) (e : Ending) (stop : Word) : List Word :=
  if e = .limit then [stop] else ds.getLast?.elim [] Located.directExits

/-- The addresses at which a block is known to go on. -/
def directExits (b : Block) : List Word :=
  exitsOf b.insns b.ending b.endPc

variable {pc stop : Word} {d : Located} {ds : List Located} {e : Ending}

theorem exitsOf_cons (run : IsRun pc ds e stop) (d : Located) :
  exitsOf (d :: ds) e stop = exitsOf ds e stop
  := by
  rw [exitsOf, exitsOf, List.getLast?_cons_of_ne_nil (List.ne_nil_of_length_pos run.length_pos)]

/-- How a block ends tells the number of its exits. -/
theorem IsRun.length_exitsOf (run : IsRun pc ds e stop) :
  (exitsOf ds e stop).length = e.exitCount
  := by
  induction run with
  | @last d decoded ends =>
    rw [exitsOf]
    unfold Located.directExits
    cases hinstr : d.instr <;> simp_all [Instr.endsBlock, Ending.ofInstr, Ending.exitCount]
  | limit => rfl
  | cons decoded ends rest ih => rw [exitsOf_cons rest, ih]

end Block

namespace Host

open Item Compile Block

namespace Compile

variable {α β : Type} {pcs pcs' : List Word}

/-- A step of compiling makes exits to the given addresses. -/
def Exits (pcs : List Word) (c : Compile α) : Prop :=
  ∀ D D' a, c.on D = (.ok a, D') → D'.targets = D.targets ++ pcs

namespace Exits

theorem bind {c : Compile α} {f : α → Compile β} (h : Exits pcs c) (hf : ∀ a, Exits pcs' (f a)) :
  Exits (pcs ++ pcs') (c >>= f)
  := by
  intro D D' b hon
  rw [on_bind] at hon
  split at hon
  case h_1 a D₁ hc => rw [hf a D₁ D' b hon, h D D₁ a hc, List.append_assoc]
  case h_2 => cases hon

/-- A step of compiling in front of which no exits are made. -/
theorem after {c : Compile α} {f : α → Compile β} (h : Exits [] c) (hf : ∀ a, Exits pcs (f a)) :
  Exits pcs (c >>= f)
  := h.bind hf

theorem pure (a : α) :
  Exits [] (pure a : Compile α)
  := by
  intro D D' b hon
  cases hon
  exact (List.append_nil _).symm

theorem item (i : Item) :
  Exits [] (item i)
  := by
  intro D D' b hon
  cases hon
  exact (List.append_nil _).symm

theorem instr (i : Instr) :
  Exits [] (instr i)
  := item (.instr i)

theorem assign (f : Assignment → Except Crash (Reg × List Instr × Assignment)) :
  Exits [] (assign f)
  := by
  intro D D' r hon
  rw [on_assign] at hon
  split at hon
  · cases hon
    exact (List.append_nil _).symm
  · cases hon

theorem sync :
  Exits [] sync
  := by
  intro D D' u hon
  rw [on_sync] at hon
  cases hon
  exact (List.append_nil _).symm

theorem read (guest : Nat) (scratch : Reg) :
  Exits [] (read guest scratch)
  := by
  unfold Compile.read
  split
  · exact (instr _).after fun _ => pure _
  · exact assign _

theorem readInto (guest : Nat) (dst : Reg) :
  Exits [] (readInto guest dst)
  := by
  refine (read guest dst).after fun r => ?_
  split
  · exact instr _
  · exact pure _

theorem writeImm (guest : Nat) (v : Word) :
  Exits [] (writeImm guest v)
  := by
  unfold Compile.writeImm
  split
  · exact pure _
  · exact (assign _).after fun _ => instr _

theorem addressIn (dst : Reg) (guest : Nat) (imm : Word) :
  Exits [] (addressIn dst guest imm)
  := by
  refine (readInto guest dst).after fun _ => ?_
  split
  · exact instr _
  · exact pure _

theorem leave (r : ExitReason) :
  Exits [] (leave r)
  := (instr _).after fun _ => item _

theorem leaveAt (pc : Word) (r : ExitReason) :
  Exits [] (leaveAt pc r)
  := by
  refine sync.after fun _ => Exits.after ?_ fun _ => leave r
  intro D D' u hon
  rw [on_setPc] at hon
  cases hon
  exact (List.append_nil _).symm

theorem exitTo (pc : Word) :
  Exits [pc] (exitTo pc)
  := by
  intro D D' u hon
  cases hon
  exact List.reverse_cons

theorem branchExits (c : Cond) (next taken : Word) :
  Exits [next, taken] (branchExits c next taken)
  := by
  intro D D' u hon
  rw [on_branchExits] at hon
  cases hon
  exact List.reverse_append

/-- An instruction that ends a block makes its exits. -/
theorem located (s : Services) (refund : Except Crash Nat) {d : Located}
    (ends : d.instr.endsBlock = true) :
  Exits d.directExits (located s refund d)
  := by
  unfold Compile.located Located.directExits
  cases hinstr : d.instr with
  | jal rd imm => exact (writeImm _ _).after fun _ => sync.after fun _ => exitTo _
  | jalr rd rs1 imm =>
    exact (addressIn _ _ _).after fun _ => (instr _).after fun _ => (writeImm _ _).after fun _ =>
      sync.after fun _ => (instr _).after fun _ => leave _
  | branch op rs1 rs2 imm =>
    exact (read _ _).after fun _ => (read _ _).after fun _ => sync.after fun _ =>
      (instr _).after fun _ => branchExits _ _ _
  | ecall | ebreak | fenceI => exact leaveAt _ _
  | _ =>
    rw [hinstr] at ends
    cases ends

/-- Behind its instructions, a block makes an exit if it stops at the limit. -/
theorem straight_nil (s : Services) (count : Nat) (e : Block.Ending) (stop : Word) :
  Exits (exitsOf [] e stop) (straight s count [] e stop)
  := by
  unfold Compile.straight exitsOf
  refine (pure ()).after fun _ => ?_
  split
  · exact sync.after fun _ => exitTo stop
  · exact pure ()

end Exits

/-! ### Refunds -/

/-- A step of compiling that is given a refund fails as the refund does, or does not depend on it. -/
def Tolerant (f : Except Crash Nat → Compile α) : Prop :=
  ∀ c n D, ((f (.error c)).on D).1 = .error c ∨ (f (.error c)).on D = (f (.ok n)).on D

namespace Tolerant

theorem const (p : Compile α) :
  Tolerant fun _ => p
  := fun _ _ _ => .inr rfl

theorem after (p : Compile α) {f : α → Except Crash Nat → Compile β} (h : ∀ a, Tolerant (f a)) :
  Tolerant fun r => p >>= fun a => f a r
  := by
  intro c n D
  rw [on_bind, on_bind]
  rcases p.on D with ⟨x | a, D₁⟩
  · exact .inr rfl
  · exact h a c n D₁

theorem bind {f : Except Crash Nat → Compile α} (h : Tolerant f) (k : α → Compile β) :
  Tolerant fun r => f r >>= k
  := by
  intro c n D
  rw [on_bind, on_bind]
  obtain hfails | hsame := h c n D
  · left
    rcases hon : (f (.error c)).on D with ⟨x, D₁⟩
    rw [hon] at hfails
    dsimp only at hfails
    rw [hfails]
  · right
    rw [hsame]

theorem checkFault (pc : Word) :
  Tolerant (checkFault pc)
  := fun _ _ _ => .inl rfl

theorem interpreted (s : Services) (d : Located) :
  Tolerant fun r => interpreted s r d
  := after _ fun _ => after _ fun _ => after _ fun _ => fun _ _ _ => .inl rfl

theorem arith (s : Services) (d : Located) (op : AluOp) (rd rs1 : Nat) (b : Source) (low : Bool) :
  Tolerant fun r => arith s r d op rd rs1 b low
  := by
  unfold Compile.arith
  split
  · exact const _
  · split
    · exact const _
    · exact interpreted s d

theorem located (s : Services) (d : Located) :
  Tolerant fun r => located s r d
  := by
  unfold Compile.located
  cases d.instr with
  | load op rd rs1 imm =>
    exact after _ fun _ => after _ fun _ => after _ fun _ => after _ fun _ => (checkFault _).bind _
  | store op rs1 rs2 imm =>
    exact after _ fun _ => after _ fun _ => after _ fun _ => after _ fun _ => after _ fun _ =>
      checkFault _
  | opImm | opImm32 | op | op32 => exact arith s d _ _ _ _ _
  | amo | csr | fpLoad | fpStore | fpFma | fpOp => exact interpreted s d
  | _ => exact const _

end Tolerant

theorem unretired_cases {count n : Nat} (le : n ≤ count) :
  (∃ m, unretired count (count - n) = .ok m) ∨
    unretired count (count - n) = .error .overflow ∧ 0x100000000 ≤ count
  := by
  by_cases hfits : count < 0x100000000
  · exact .inl ⟨n, unretired_eq le hfits⟩
  · unfold unretired
    dsimp only
    split
    · exact .inl ⟨_, rfl⟩
    · exact .inr ⟨rfl, Nat.le_of_not_lt hfits⟩

/-- An instruction that does not end the block makes no exit, unless the number of instructions in
front of it is too large to be counted. -/
theorem on_located_cases (env : Environment) {count n : Nat} {d : Located} {D : Draft}
    (decoded : d.IsDecoded) (ends : d.instr.endsBlock = false) (le : n ≤ count)
    (wf : D.assignment.WellFormed) (fresh : D.assignment.pins = 0) :
  (∃ D', (located env.services (unretired count (count - n)) d).on D = (.ok (), D') ∧
    D'.assignment.WellFormed ∧ D'.exits = D.exits ∧ D'.exitCount = D.exitCount) ∨
  (∃ D', (located env.services (unretired count (count - n)) d).on D = (.error .overflow, D')) ∧
    0x100000000 ≤ count
  := by
  have hcarries (m : Nat) : ∃ D', (located env.services (.ok m) d).on D = (.ok (), D') ∧
      D'.assignment.WellFormed ∧ D'.exits = D.exits ∧ D'.exitCount = D.exitCount := by
    obtain ⟨D', code, hon, h⟩ : ∃ D' code, (located env.services (.ok m) d).on D = (.ok (), D') ∧
        Carries env m d D D' code := carries_located ends decoded wf fresh
    exact ⟨D', hon, h.wellFormed, h.exits⟩
  obtain ⟨m, hm⟩ | ⟨hm, hlarge⟩ := unretired_cases le
  · rw [hm]
    exact .inl (hcarries m)
  · rw [hm]
    obtain hfails | hsame := Tolerant.located env.services d .overflow 0 D
    · exact .inr ⟨⟨_, Prod.ext hfails rfl⟩, hlarge⟩
    · rw [hsame]
      exact .inl (hcarries 0)

/-- The instructions of a block make the exits of the block, unless there are too many of them to be
counted. -/
theorem straight_cases (env : Environment) {count : Nat} {pc stop : Word} {ds : List Located}
    {e : Ending} (run : IsRun pc ds e stop) (le : ds.length ≤ count) {D : Draft}
    (wf : D.assignment.WellFormed) (counted : D.exits.length = D.exitCount) :
  (∃ D', (straight env.services count ds e stop).on D = (.ok (), D') ∧
    D'.targets = D.targets ++ exitsOf ds e stop) ∨
  (∃ D', (straight env.services count ds e stop).on D = (.error .overflow, D')) ∧
    0x100000000 ≤ count
  := by
  have hfirst {d : Located} {ds : List Located} {e : Ending} {stop : Word} {D : Draft}
      (le : ds.length < count) (decoded : d.IsDecoded) (ends : d.instr.endsBlock = false)
      (wf : D.assignment.WellFormed) (counted : D.exits.length = D.exitCount) :
      (∃ D₁, (straight env.services count (d :: ds) e stop).on D =
          (straight env.services count ds e stop).on D₁ ∧ D₁.assignment.WellFormed ∧
        D₁.targets = D.targets ∧ D₁.exits.length = D₁.exitCount) ∨
      (∃ D', (straight env.services count (d :: ds) e stop).on D = (.error .overflow, D')) ∧
        0x100000000 ≤ count := by
    rw [on_straight_cons _ _ le]
    obtain ⟨D₁, hon, hwf, hexits, hcount⟩ | ⟨⟨D₁, hon⟩, hlarge⟩ := on_located_cases env
      (D := D.assigned D.assignment.beginInstr) decoded ends le wf.beginInstr
        (Assignment.pins_beginInstr _)
    · refine .inl ⟨D₁, on_bind_ok hon _, hwf, congrArg List.reverse hexits, ?_⟩
      rw [hexits, hcount]
      exact counted
    · refine .inr ⟨⟨D₁, ?_⟩, hlarge⟩
      rw [on_bind, hon]
  induction run generalizing D with
  | @last d decoded ends =>
    obtain ⟨D', code, hon, -⟩ := completes_last env le ends decoded wf counted d.next
    refine .inl ⟨D', hon, ?_⟩
    rw [on_straight_cons _ _ le] at hon
    have hexits := ((Exits.located env.services _ ends).bind fun _ =>
      Exits.straight_nil env.services count (.ofInstr d.instr) d.next) _ _ _ hon
    rw [exitsOf, if_neg (ofInstr_ne_limit ends)] at hexits ⊢
    rw [hexits]
    simp [Draft.targets, Draft.assigned]
  | @limit d decoded ends =>
    obtain ⟨D₁, hon, hwf, htargets, hcounted⟩ | hfails := hfirst le decoded ends wf counted
    · obtain ⟨D', code, hnil, -⟩ := completes_nil env count hwf hcounted d.next
      refine .inl ⟨D', hon.trans hnil, ?_⟩
      rw [Exits.straight_nil _ _ _ _ _ _ _ hnil, htargets]
      rfl
    · exact .inr hfails
  | cons decoded ends rest ih =>
    obtain ⟨D₁, hon, hwf, htargets, hcounted⟩ | hfails := hfirst le decoded ends wf counted
    · rw [hon, exitsOf_cons rest, ← htargets]
      exact ih (Nat.le_of_lt le) hwf hcounted
    · exact .inr hfails

end Compile

variable {b : Block} {d : Draft} {s : Services}

/-- There are registers enough for every block, and its exits are made.  Compiling it fails only if its
instructions are too many to be counted. -/
theorem lower_cases (s : Services) (formed : b.IsFormed) :
  (∃ d, lower s b = (.ok (), d) ∧ d.targets = b.directExits) ∨
    (∃ d, lower s b = (.error .overflow, d)) ∧ 0x100000000 ≤ b.count
  := by
  have hblock : lower s b = (main s b >>= fun _ => ways b).on {} := by
    rw [← block_eq]
    rfl
  rw [hblock, on_bind]
  obtain ⟨D, hon, htargets⟩ | ⟨⟨D, hon⟩, hlarge⟩ := straight_cases ⟨0, s, fun _ => 0⟩ formed
    (Nat.le_refl _) (D := Draft.push {} (chargeItems b.count)) (Assignment.WellFormed.empty _) rfl
  · rw [(on_main s b).trans hon]
    exact .inl ⟨_, on_ways b D, htargets⟩
  · rw [(on_main s b).trans hon]
    exact .inr ⟨⟨D, rfl⟩, hlarge⟩

theorem targets_of_lower (formed : b.IsFormed) (h : lower s b = (.ok (), d)) :
  d.targets = b.directExits
  := by
  obtain ⟨d', h', htargets⟩ | ⟨⟨d', h'⟩, -⟩ := lower_cases s formed
  · obtain rfl := (Prod.ext_iff.mp (h.symm.trans h')).2
    exact htargets
  · cases h.symm.trans h'

/-- What is compiled of a block, all of it or not, has room in its reservation. -/
theorem costs_of_lower {r : Except Crash Unit} (h : lower s b = (r, d)) :
  costs d.code ≤ codeBound b
  := by
  cases r with
  | ok u => exact (finished_of_lower h).costs
  | error c =>
    obtain ⟨-, hweight⟩ := grows_main s b {} Draft.tidy_empty
    have hblock : (main s b >>= fun _ => ways b).on {} = (.error c, d) := by
      rw [← block_eq]
      exact h
    have hd : ((main s b).on {}).2 = d := by
      rw [on_bind] at hblock
      split at hblock
      · rw [on_ways] at hblock
        cases hblock
      case h_2 hon =>
        rw [hon]
        exact (Prod.ext_iff.mp hblock).2
    have hcode : costs d.code = costs d.items := costs_reverse _
    rw [hd, Draft.weight] at hweight
    change _ ≤ 0 + _ at hweight
    rw [hcode, codeBound]
    omega

/-! ### Failures -/

/-- A computation does not crash in any other way. -/
def FailsOnly {α : Type} (c : Crash) (x : Except Crash α) : Prop :=
  ∀ c', x = .error c' → c' = c

namespace FailsOnly

variable {α β : Type} {c : Crash}

theorem ok (a : α) :
  FailsOnly c (.ok a)
  := by
  intro c' h
  cases h

theorem error :
  FailsOnly c (.error c : Except Crash α)
  := by
  intro c' h
  cases h
  rfl

theorem bind {x : Except Crash α} {f : α → Except Crash β} (h : FailsOnly c x)
    (hf : ∀ a, x = .ok a → FailsOnly c (f a)) :
  FailsOnly c (x >>= f)
  := by
  cases x with
  | ok a => exact hf a rfl
  | error c' =>
    intro c'' hc''
    cases hc''
    exact h _ rfl

theorem placeOf (ls : Labels) (t : Target) :
  FailsOnly .badArgument (ls.placeOf t)
  := by
  unfold Labels.placeOf
  split
  · exact ok _
  · exact error

theorem labels (offset : Nat) (items : List Item) (ls : Labels) :
  FailsOnly .badArgument (labels offset items ls)
  := by
  induction items generalizing offset ls with
  | nil => exact ok _
  | cons item rest ih =>
    cases item with
    | place t =>
      refine FailsOnly.bind ?_ fun ls _ => ih offset ls
      refine FailsOnly.bind ?_ fun _ _ => ok _
      unfold Label.bind
      split
      · exact error
      · exact ok _
    | _ => exact ih _ ls

theorem encode (ls : Labels) (leave offset : Nat) (item : Item) :
  FailsOnly .badArgument (item.encode ls leave offset)
  := by
  cases item with
  | branch c t => exact (placeOf ls t).bind fun _ _ => ok _
  | exit n =>
    refine (placeOf ls (.stub n)).bind fun target _ => ?_
    dsimp only
    split
    · exact ok _
    · exact error
  | _ => exact ok _

theorem assemble (leave start : Nat) (items : List Item) :
  FailsOnly .badArgument (assemble leave start items)
  := by
  have hencode (ls : Labels) (offset : Nat) (done : List (List UInt8)) :
      FailsOnly .badArgument (encodeAll ls leave offset items done) := by
    induction items generalizing offset done with
    | nil => exact ok _
    | cons item rest ih => exact (encode ls leave offset item).bind fun _ _ => ih _ _
  exact (labels start items []).bind fun ls _ => (hencode ls start []).bind fun _ _ => ok _

theorem sitesOf (ls : Labels) (targets : List Word) (jumps : List Nat) (n : Nat) :
  FailsOnly .badArgument (sitesOf ls targets jumps n)
  := by
  induction targets generalizing jumps n with
  | nil => exact ok _
  | cons target targets ih =>
    cases jumps with
    | nil => exact ok _
    | cons jump jumps => exact (placeOf ls _).bind fun _ _ => (ih jumps (n + 1)).bind fun _ _ => ok _

/-- Writing what was compiled of a block within its reservation does not fail for want of room. -/
theorem emitBlock (f : Frame) {buf : Buffer} (hlower : lower s b = (.ok (), d))
    (room : buf.offset + codeBound b ≤ buf.limit) :
  FailsOnly .badArgument (emitBlock f s b buf)
  := by
  have hcosts := costs_of_lower hlower
  have hstop := stop_le_costs buf.offset d.code
  unfold Host.emitBlock
  rw [hlower]
  refine (assemble f.leave buf.offset d.code).bind fun r hassemble => ?_
  obtain ⟨code, ls⟩ := r
  have hmeets : Meets False (Item.assemble f.leave buf.offset d.code) _ :=
    assemble_meets False.elim False.elim
  obtain ⟨hcode, -⟩ := hmeets.post_of_eq hassemble
  have hlength := add_length_image (layoutAt f.leave buf.offset d.code) buf.offset d.code
  rw [← hcode] at hlength
  refine FailsOnly.bind ?_ fun _ _ => (sitesOf _ _ _ _).bind fun _ _ => ok _
  dsimp only at hlength ⊢
  rw [Buffer.emit, if_pos (by omega)]
  exact ok _

end FailsOnly

/-! ### Code in its reservation -/

/-- What was written for a block into a reservation is in it, and so are its exits. -/
structure Contained (f : Frame) (s : Services) (b : Block) (buf : Buffer) (sites : List Site)
    (buf' : Buffer) : Prop where
  /-- The code of the block starts at the offset of the buffer, and the next offset is behind it. -/
  code : ∃ d, lower s b = (.ok (), d) ∧ buf'.offset = stop buf.offset d.code ∧
    Bytes.Has buf'.bytes buf.offset (image (layoutAt f.leave buf.offset d.code) buf.offset d.code)
  pos : buf.offset < buf'.offset
  bound : buf'.offset ≤ buf.offset + codeBound b
  outside : ∀ i, ¬(buf.offset ≤ i ∧ i < buf'.offset) → Bytes.at0 buf'.bytes i = Bytes.at0 buf.bytes i
  capacity : buf'.capacity = buf.capacity
  mode : buf'.mode = buf.mode
  /-- There is a site for each address at which the block is known to go on. -/
  targets : sites.map (·.target) = b.directExits
  count : sites.length = b.ending.exitCount
  /-- The jump of a site is in the code. -/
  jump : ∀ x ∈ sites, buf.offset ≤ x.jump ∧ x.jump + jumpSize ≤ buf'.offset
  /-- The jump of a site leads to its stub. -/
  leads : ∀ x ∈ sites, Bytes.Has buf'.bytes x.jump
    (Instr.encode (.jmp (displacement (x.jump + jumpSize) x.stub)))
  /-- The stub of a site, to its last instruction, is in the code. -/
  stub : ∀ k x, sites[k]? = some x →
    buf.offset ≤ x.stub ∧ stop x.stub (stubItems x.target k) ≤ buf'.offset

variable {f : Frame} {buf buf' : Buffer} {sites : List Site}

/-- The stub of an exit is in the code of its block. -/
theorem Emits.stop_stub_le (h : Emits f s b buf sites buf' d) {k : Nat} {x : Site}
    (site : sites[k]? = some x) :
  stop x.stub (stubItems x.target k) ≤ stop buf.offset d.code
  := by
  obtain ⟨htarget, -, hstub⟩ := h.sites k x site
  have hdistinct := h.finished.wellPlaced.distinct
  obtain ⟨before, after, hcode⟩ : ∃ before after,
      d.code = before ++ stubItems x.target k ++ after := by
    obtain ⟨D, -, rfl⟩ := on_block_eq_ok h.lower
    obtain ⟨before, after, heq⟩ := numbered_eq stubItems htarget 0
    rw [Nat.zero_add] at heq
    refine ⟨D.code ++ budgetItems b ++ numbered faultItems D.faults.reverse 0 ++ before, after, ?_⟩
    rw [Draft.code_push, wayItems, show D.exits.reverse = (D.push (wayItems b D)).targets from rfl, heq]
    simp
  have hplace : x.stub = stop buf.offset before := by
    rw [hcode, List.append_assoc] at hstub hdistinct
    exact Option.some.inj (hstub.symm.trans (offsetOf?_place buf.offset hdistinct))
  rw [hplace, hcode, stop_append, stop_append]
  exact le_stop _ _

/-- What is written for a formed block is in its reservation. -/
theorem Emits.contained (h : Emits f s b buf sites buf' d) (formed : b.IsFormed) :
  Contained f s b buf sites buf'
  := by
  have hlength := add_length_image (layoutAt f.leave buf.offset d.code) buf.offset d.code
  have hoffset := h.offset_eq
  have hhas := h.has
  have htargets : sites.map (·.target) = b.directExits := by
    rw [← targets_of_lower formed h.lower]
    refine List.ext_getElem (by rw [List.length_map, h.length, Draft.targets, List.length_reverse,
      h.finished.targets]) fun k hk hk' => ?_
    have hsite := (h.sites k _ (List.getElem?_eq_getElem (by simpa using hk))).target
    rw [List.getElem_map]
    exact (List.getElem_eq_iff hk').mpr hsite |>.symm
  have hjump {x : Site} (hx : x ∈ sites) : ∃ k, d.IsSite buf.offset k x := by
    obtain ⟨k, hk⟩ := List.mem_iff_getElem?.mp hx
    exact ⟨k, h.sites k x hk⟩
  refine ⟨⟨d, h.lower, hoffset, hhas⟩, ?_, h.offset_le, ?_, ?_, ?_, htargets, ?_, ?_, ?_, ?_⟩
  · rw [hoffset]
    exact h.lt_stop
  · intro i hi
    rw [h.buffer, Buffer.at0_overwrite, if_neg]
    rw [hlength, ← hoffset]
    exact hi
  · rw [h.buffer, Buffer.capacity_overwrite]
  · rw [h.buffer]
    rfl
  · rw [← List.length_map, htargets]
    exact formed.length_exitsOf
  · intro x hx
    obtain ⟨k, hsite⟩ := hjump hx
    obtain ⟨hlow, hhigh, -⟩ := mem_exitsAt hsite.jump
    rw [hoffset]
    exact ⟨hlow, hhigh⟩
  · intro x hx
    obtain ⟨k, hsite⟩ := hjump hx
    have hstub : (layoutAt f.leave buf.offset d.code).exit k = x.stub := by
      simp only [layoutAt, hsite.stub, Option.getD_some]
    rw [← hstub]
    exact has_exit hhas hsite.jump
  · intro k x hk
    rw [hoffset]
    exact ⟨le_offsetOf? (h.sites k x hk).stub, h.stop_stub_le hk⟩

/-- Writing the code of a block fails if an exit does not reach its stub. -/
theorem emitBlock_eq_error (hlower : lower s b = (.ok (), d)) (far : ¬d.Connects buf.offset)
    (room : buf.offset + codeBound b ≤ buf.limit) :
  emitBlock f s b buf = .error .badArgument
  := by
  cases hemit : emitBlock f s b buf with
  | error c => rw [FailsOnly.emitBlock f hlower room c hemit]
  | ok r =>
    obtain ⟨d', hemits⟩ := Emits.of_emitBlock hemit
    obtain rfl := (Prod.ext_iff.mp (hlower.symm.trans hemits.lower)).2
    exact absurd hemits.reaches far

/-- The ways in which writing the code of a formed block within its reservation can fail: an exit does
not reach its stub, or the instructions are too many to be counted. -/
theorem emitBlock_error_cases (formed : b.IsFormed) (room : buf.offset + codeBound b ≤ buf.limit)
    {c : Crash} (h : emitBlock f s b buf = .error c) :
  (c = .badArgument ∧ ∃ d, lower s b = (.ok (), d) ∧ ¬d.Connects buf.offset) ∨
    (c = .overflow ∧ 0x100000000 ≤ b.count)
  := by
  obtain ⟨d, hlower, -⟩ | ⟨⟨d, hlower⟩, hlarge⟩ := lower_cases s formed
  · refine .inl ⟨FailsOnly.emitBlock f hlower room c h, d, hlower, fun hconnects => ?_⟩
    have hmeets : Meets True (emitBlock f s b buf) _ :=
      emitBlock_meets_of_connects (fun _ => ⟨d, hlower⟩) (fun _ => room) fun _ d' hlower' => by
        obtain rfl := (Prod.ext_iff.mp (hlower.symm.trans hlower')).2
        exact hconnects
    obtain ⟨r, hr, -⟩ := hmeets.exists_ok trivial
    cases h.symm.trans hr
  · have hcosts := costs_of_lower hlower
    have hstop := stop_le_costs buf.offset d.code
    rw [emitBlock, hlower] at h
    dsimp only at h
    rw [if_pos (by omega)] at h
    cases h
    exact .inr ⟨rfl, hlarge⟩

/-! ### Many service calls -/

/-- A floating-point load at an address. -/
def fpLoad (pc : Word) : Located :=
  ⟨pc, 0x2000, .fpLoad .d 8 8 0, 2⟩

/-- Floating-point loads, one after the other. -/
def fpLoads : Nat → Word → List Located
  | 0, _ => []
  | n + 1, pc => fpLoad pc :: fpLoads n (pc + 2)

theorem length_fpLoads (n : Nat) (pc : Word) :
  (fpLoads n pc).length = n
  := by
  induction n generalizing pc with
  | zero => rfl
  | succ n ih => rw [fpLoads, List.length_cons, ih]

/-- A block of one more load than given, which stops at the limit. -/
def fpBlock (n : Nat) (pc : Word) : Block :=
  ⟨pc, fpLoads (n + 1) pc, .limit⟩

theorem count_fpBlock (n : Nat) (pc : Word) :
  (fpBlock n pc).count = n + 1
  := length_fpLoads (n + 1) pc

theorem on_readInstr_fpLoad (pc : Word) :
  (Block.readInstr (fun _ => (pure 0x2000 : Action Unit Memory.Fault Half)) pc).on () =
    .ok (.ok (fpLoad pc), ())
  := rfl

/-- Where every half-word is the same load, a block of loads is formed up to the limit. -/
theorem on_form_fpLoads (n : Nat) (pc : Word) :
  (Block.form (fun _ => (pure 0x2000 : Action Unit Memory.Fault Half)) pc (n + 1)).on () =
    .ok (.ok (fpBlock n pc), ())
  := by
  have hcollect (n : Nat) (pc : Word) (before : List Located) :
      (Block.collect (fun _ => (pure 0x2000 : Action Unit Memory.Fault Half)) n pc before).on () =
        .ok (.ok (before.reverse ++ fpLoads (n + 1) pc, .limit), ()) := by
    induction n generalizing pc before with
    | zero =>
      rw [Block.collect, Action.on_bind, on_readInstr_fpLoad, fpLoads, fpLoads, ← List.reverse_cons]
      rfl
    | succ n ih =>
      rw [fpLoads, List.append_cons, ← List.reverse_cons, ← ih, Block.collect, Action.on_bind,
        on_readInstr_fpLoad]
      rfl
  rw [Block.form, Action.on_bind, Nat.add_sub_cancel, hcollect]
  rfl

/-- The code of each load has a way out. -/
theorem faults_of_fpLoads (env : Environment) {n count : Nat} {pc stop : Word} {D D' : Draft}
    (le : n ≤ count) (fits : count < 0x100000000) (wf : D.assignment.WellFormed)
    (on : (straight env.services count (fpLoads n pc) .limit stop).on D = (.ok (), D')) :
  D'.faults.length = D.faults.length + n
  := by
  induction n generalizing pc D with
  | zero =>
    have hon : (straight env.services count [] .limit stop).on D =
        (sync >>= fun _ => exitTo stop).on D := rfl
    rw [fpLoads, hon, on_bind_ok (on_sync D), on_exitTo] at on
    obtain rfl := (Prod.mk.inj on).2
    rfl
  | succ n ih =>
    obtain ⟨hdecoded, -⟩ := Block.isDecoded_of_readInstr (on_readInstr_fpLoad pc)
    obtain ⟨D₁, code, hon, hfaults, hcarries⟩ := carries_interpreted env (n + 1)
      (D := D.assigned D.assignment.beginInstr) rfl hdecoded wf.beginInstr
    have hlocated : (located env.services (.ok (n + 1)) (fpLoad pc)).on
        (D.assigned D.assignment.beginInstr) = (.ok (), D₁) := hon
    have hlength := length_fpLoads n (pc + 2)
    rw [fpLoads, on_straight_cons _ _ (by omega), hlength, unretired_eq le fits,
      on_bind_ok hlocated] at on
    rw [ih (Nat.le_of_lt le) hcarries.wellFormed on, hfaults, List.length_cons]
    show D.faults.length + 1 + n = _
    omega

/-- The way out after a service call takes 17 bytes. -/
theorem add_le_stop_faultItems (offset : Nat) (x : FaultExit) (n : Nat) :
  offset + 17 ≤ stop offset (faultItems x n)
  := by
  have hpc (offset : Nat) : offset + 7 ≤ stop offset ((pcCode x.pc).map .instr) := by
    unfold pcCode
    split
    · exact Nat.add_le_add_left (show 7 ≤ 11 by decide) offset
    · show offset + 7 ≤ offset + _ + 7
      omega
  have hleave (offset : Nat) : stop offset (leaveItems .exception) = offset + 10 := rfl
  rw [faultItems, stop_append, stop_append, hleave]
  have := hpc (stop offset (.place (.fault n) ::
    if 0 < x.refund then [.instr (budgetInstr .add x.refund)] else []))
  have := le_stop offset (.place (.fault n) ::
    if 0 < x.refund then [.instr (budgetInstr .add x.refund)] else [])
  omega

theorem add_le_stop_numbered (xs : List FaultExit) (offset n : Nat) :
  offset + 17 * xs.length ≤ stop offset (numbered faultItems xs n)
  := by
  induction xs generalizing offset n with
  | nil => exact Nat.le_refl _
  | cons x xs ih =>
    have hfirst := add_le_stop_faultItems offset x n
    have hrest := ih (stop offset (faultItems x n)) (n + 1)
    rw [numbered, stop_append, List.length_cons]
    omega

/-- An exit is in front of the ways out. -/
theorem mem_exitsAt_of_push {D : Draft} (b : Block) {start : Nat} {e : Nat × Nat}
    (h : e ∈ exitsAt start (D.push (wayItems b D)).code) :
  e.2 + jumpSize ≤ stop start D.code
  := by
  have hnone : exitsAt (stop start D.code) (wayItems b D) = [] := by
    apply List.map_eq_nil_iff.mp
    rw [map_fst_exitsAt, exitNumbers_wayItems]
  rw [Draft.code_push, exitsAt_append, hnone, List.append_nil] at h
  exact (mem_exitsAt h).2.1

/-- In front of too many ways out, the exit of a block of loads does not reach its stub. -/
theorem not_connects_of_fpLoads {n : Nat} {pc : Word} (fits : n + 1 < 0x100000000)
    (large : 0x80000000 ≤ 17 * (n + 1))
    (hlower : lower s (fpBlock n pc) = (.ok (), d)) (start : Nat) :
  ¬d.Connects start
  := by
  intro hconnects
  obtain ⟨hformed, -⟩ := Block.isFormed_of_form (on_form_fpLoads n pc)
  have hfinished := finished_of_lower hlower
  have htargets := targets_of_lower hformed hlower
  obtain ⟨D, hmain, rfl⟩ := on_block_eq_ok hlower
  have hfaults : D.faults.reverse.length = n + 1 := by
    rw [on_main, count_fpBlock] at hmain
    rw [List.length_reverse, faults_of_fpLoads ⟨0, s, fun _ => 0⟩ (Nat.le_refl _) fits
      (Assignment.WellFormed.empty _) hmain]
    exact Nat.zero_add _
  -- The one exit of the block.
  obtain ⟨target, hexits⟩ : ∃ target, D.exits.reverse = [target] := ⟨_, htargets⟩
  have hnumber : (exitsAt start (D.push (wayItems (fpBlock n pc) D)).code).map (·.1) = [0] := by
    rw [map_fst_exitsAt, hfinished.numbers, ← hfinished.targets, ← List.length_reverse,
      show (D.push _).exits = D.exits from rfl, hexits]
    rfl
  obtain ⟨e, he, hzero⟩ : ∃ e ∈ exitsAt start (D.push (wayItems (fpBlock n pc) D)).code, e.1 = 0 := by
    rw [← List.mem_map, hnumber]
    exact List.mem_singleton_self 0
  -- Its stub is behind the ways out of all loads.
  have hcode : (D.push (wayItems (fpBlock n pc) D)).code =
      (D.code ++ budgetItems (fpBlock n pc) ++ numbered faultItems D.faults.reverse 0) ++
        .place (.stub 0) :: ((pcCode target).map .instr ++ leaveItems .chain) := by
    rw [Draft.code_push, wayItems, hexits]
    simp [numbered, stubItems]
  have hdistinct := hfinished.wellPlaced.distinct
  rw [hcode] at hdistinct
  have hreach := hconnects e he
  rw [hzero, Draft.stub, hcode, offsetOf?_place start hdistinct, Option.getD_some, stop_append,
    stop_append] at hreach
  have hjump := mem_exitsAt_of_push _ he
  have hbudget := le_stop (stop start D.code) (budgetItems (fpBlock n pc))
  have hfar := add_le_stop_numbered D.faults.reverse
    (stop (stop start D.code) (budgetItems (fpBlock n pc))) 0
  have := (of_decide_eq_true hreach).2
  rw [hfaults] at hfar
  omega

/-! ### Reservations -/

theorem reserve_eq {n : Nat} (addressable : buf.capacity < Word.count)
    (room : buf.offset + n ≤ buf.capacity) :
  buf.reserve n = .ok { buf with limit := buf.offset + n }
  := by
  have hsum : Size.sum buf.offset n = .ok (buf.offset + n) := if_pos (by omega)
  rw [Buffer.reserve, hsum, Except.ok_bind, if_pos room]
  rfl

/-- Compiling a block stays within its reservation.  Whatever the instructions of a block that was
formed, the services and the offset, if the bytes for the block are there, they can be reserved, and
what is written is in them: nothing else changes, and each address at which the block is known to go
on has its site.  Two checks can fail, neither of them for want of registers or of room: a jump does
not reach its stub, or the instructions are too many for 32 bits.  Both pass if at most two gigabytes
are reserved. -/
theorem emitBlock_within_reservation {σ : Type} {fetch : Word → Action σ Memory.Fault Half} {t t' : σ}
    {pc : Word} {limit : Nat} {block : Block}
    (formed : (Block.form fetch pc limit).on t = .ok (.ok block, t'))
    (f : Frame) (s : Services) (buf : Buffer) (addressable : buf.capacity < Word.count)
    (room : buf.offset + codeBound block ≤ buf.capacity) :
  ∃ reserved, buf.reserve (codeBound block) = .ok reserved ∧
    (∀ sites buf', emitBlock f s block reserved = .ok (sites, buf') →
      Contained f s block buf sites buf') ∧
    (∀ c, emitBlock f s block reserved = .error c →
      (c = .badArgument ∧ ∃ d, lower s block = (.ok (), d) ∧ ¬d.Connects buf.offset) ∨
      (c = .overflow ∧ 0x100000000 ≤ block.count)) ∧
    (codeBound block ≤ 0x80000000 →
      ∃ sites buf', emitBlock f s block reserved = .ok (sites, buf'))
  := by
  obtain ⟨hformed, -⟩ := Block.isFormed_of_form formed
  refine ⟨_, reserve_eq addressable room, fun sites buf' hemit => ?_,
    fun c => emitBlock_error_cases hformed (Nat.le_refl _),
    exists_emitBlock hformed (Nat.le_refl _)⟩
  obtain ⟨d, hemits⟩ := Emits.of_emitBlock hemit
  have h := hemits.contained hformed
  exact ⟨h.code, h.pos, h.bound, h.outside, h.capacity, h.mode, h.targets, h.count, h.jump, h.leads,
    h.stub⟩

/-- A load and a branch back to it, in the bytes reserved for two instructions. -/
theorem emitBlock_within_reservation_of_loop :
  ∃ reserved sites buf', Buffer.reserve { capacity := 4096, offset := 64 } 768 = .ok reserved ∧
    emitBlock ⟨0, 36, 64⟩ .standard
      ⟨0, [⟨0, 0x00833283, .load .ld 5 6 8, 4⟩, ⟨4, 0xfe028ee3, .branch .beq 5 0 (-4), 4⟩], .branch⟩
      reserved = .ok (sites, buf') ∧
    buf'.offset ≤ 64 + 768 ∧ sites.map (·.target) = [8, 0]
  := by
  have hformed : (Block.form (fun pc => (pure (if pc = 0 then 0x3283 else if pc = 2 then 0x0083
      else if pc = 4 then 0x8ee3 else 0xfe02) : Action Unit Memory.Fault Half)) 0 8).on () =
      .ok (.ok ⟨0, [⟨0, 0x00833283, .load .ld 5 6 8, 4⟩, ⟨4, 0xfe028ee3, .branch .beq 5 0 (-4), 4⟩],
        .branch⟩, ()) := rfl
  obtain ⟨reserved, hreserve, hcontained, -, hnear⟩ := emitBlock_within_reservation hformed
    ⟨0, 36, 64⟩ .standard { capacity := 4096, offset := 64 } (by decide) (by decide)
  obtain ⟨sites, buf', hemit⟩ := hnear (by decide)
  have h := hcontained sites buf' hemit
  exact ⟨reserved, sites, buf', hreserve, hemit, h.bound, h.targets⟩

/-- A block of 134217728 loads is formed where memory is full of them, but its code cannot be written
anywhere, whatever the room for it: its exit is more than two gigabytes in front of its stub. -/
theorem emitBlock_fails_of_fpBlock :
  (Block.form (fun _ => (pure 0x2000 : Action Unit Memory.Fault Half)) 0 0x8000000).on () =
    .ok (.ok (fpBlock 0x7ffffff 0), ()) ∧
  codeBound (fpBlock 0x7ffffff 0) = 0x800000100 ∧
  ∀ (f : Frame) (s : Services) (buf : Buffer), buf.capacity < Word.count →
    buf.offset + 0x800000100 ≤ buf.capacity →
    ∃ reserved, buf.reserve 0x800000100 = .ok reserved ∧
      emitBlock f s (fpBlock 0x7ffffff 0) reserved = .error .badArgument
  := by
  have hformed := on_form_fpLoads 0x7ffffff 0
  have hbound : codeBound (fpBlock 0x7ffffff 0) = 0x800000100 := by
    rw [codeBound, count_fpBlock]
  refine ⟨hformed, hbound, fun f s buf haddressable hroom => ?_⟩
  refine ⟨_, reserve_eq haddressable hroom, ?_⟩
  obtain ⟨d, hlower, -⟩ | ⟨-, hlarge⟩ := lower_cases s (Block.isFormed_of_form hformed).1
  · apply emitBlock_eq_error hlower (not_connects_of_fpLoads (by decide) (by decide) hlower _)
    rw [hbound]
  · rw [count_fpBlock] at hlarge
    exact absurd hlarge (by decide)

end Host

end CrossHart
