import CrossHart.Proofs.Host.Emission

/-!
# The way back

The last instruction of a block's code is a jump back to the engine.  Its distance is written in 32
bits without a check, so it reaches back exactly if the code ends at most two gigabytes behind the
place where the engine is left.  Code that does keeps the meaning of its block.  Beyond that a jump
leads four gigabytes too far, where there is no code.
-/

namespace CrossHart.Host

open Isa Item Compile Processor

variable {env : Environment} {b : Block} {d : Draft} {f : Frame} {s : Services} {buf buf' : Buffer}
  {sites : List Site}

/-! ### The last jump -/

/-- Items the last of which is the jump back. -/
def EndsBack (items : List Item) : Prop :=
  ∃ init, items = init ++ [.leave]

theorem EndsBack.append {rest : List Item} (h : EndsBack rest) (items : List Item) :
  EndsBack (items ++ rest)
  := by
  obtain ⟨init, rfl⟩ := h
  exact ⟨items ++ init, (List.append_assoc ..).symm⟩

theorem endsBack_leaveItems (r : ExitReason) :
  EndsBack (leaveItems r)
  := ⟨[_], rfl⟩

theorem EndsBack.numbered {γ : Type} {g : γ → Nat → List Item} (hg : ∀ x n, EndsBack (g x n))
    {items : List Item} (h : EndsBack items) (xs : List γ) (n : Nat) :
  EndsBack (items ++ numbered g xs n)
  := by
  induction xs generalizing items n with
  | nil =>
    rw [Compile.numbered, List.append_nil]
    exact h
  | cons x xs ih =>
    rw [Compile.numbered, ← List.append_assoc]
    exact ih ((hg x n).append items) (n + 1)

/-- The code of every block ends with the jump back. -/
theorem endsBack_of_lower (hlower : lower s b = (.ok (), d)) :
  EndsBack d.code
  := by
  obtain ⟨D, -, rfl⟩ := on_block_eq_ok hlower
  rw [Draft.code_push, wayItems, ← List.append_assoc, ← List.append_assoc]
  apply EndsBack.numbered fun _ _ => (endsBack_leaveItems _).append _
  apply EndsBack.numbered fun _ _ => (endsBack_leaveItems _).append _
  exact ((endsBack_leaveItems _).append _).append _

/-- A jump back reaches its target exactly if that is at most two gigabytes in front of its end. -/
theorem jump_displacement_iff {stop place : Nat} (below : place ≤ stop) (p : Processor) :
  (p.at stop).jump (displacement stop place) = p.at place ↔ stop ≤ place + 0x80000000
  := by
  have hbounds : -0x80000000 ≤ (displacement stop place).toInt := BitVec.le_toInt _
  have hint : (displacement stop place).toInt = ((place : Int) - stop).bmod 0x100000000 := by
    rw [displacement, BitVec.toInt_ofInt]
  constructor
  · intro h
    have hposition : ((stop : Int) + (displacement stop place).toInt).toNat = place :=
      congrArg Processor.position h
    -- The displacement differs from the distance by a multiple of four gigabytes.
    have hdvd := Int.dvd_bmod_sub_self (x := (place : Int) - stop) (m := 0x100000000)
    rw [← hint] at hdvd
    omega
  · intro h
    have hexact : (displacement stop place).toInt = place - stop := by
      rw [hint]
      exact Int.bmod_eq_of_le (by omega) (by omega)
    rw [jump, hexact, position_at, show ((stop : Int) + (place - stop)).toNat = place by omega]
    rfl

theorem Emits.step_last_iff (h : Emits f s b buf sites buf' d) (below : f.leave < buf.offset)
    (p : Processor) :
  (p.at (buf'.offset - jumpSize)).step env buf'.bytes = .ok (p.at f.leave) ↔
    buf'.offset ≤ f.leave + 0x80000000
  := by
  obtain ⟨init, hcode⟩ := endsBack_of_lower h.lower
  have hhas := h.has
  have hoffset := h.offset_eq
  have hle := le_stop buf.offset init
  rw [hcode, image_append, Bytes.Has.append_iff, add_length_image] at hhas
  rw [hcode, stop_append] at hoffset
  change buf'.offset = stop buf.offset init + jumpSize at hoffset
  have hjump : Bytes.Has buf'.bytes (stop buf.offset init)
      (Instr.encode (.jmp (displacement (stop buf.offset init + jumpSize) f.leave))) :=
    (Bytes.Has.append_iff.mp hhas.2).1
  have hstep : (p.at (stop buf.offset init)).step env buf'.bytes =
      .ok ((p.at (stop buf.offset init + jumpSize)).jump
        (displacement (stop buf.offset init + jumpSize) f.leave)) := by
    rw [step_encode (i := .jmp _) trivial hjump, Instr.size_jmp]
    rfl
  rw [hoffset, Nat.add_sub_cancel, hstep, ← jump_displacement_iff (p := p) (by omega)]
  exact ⟨Except.ok.inj, congrArg Except.ok⟩

/-! ### Code that is too far away -/

/-- Nothing can be carried out behind the bytes of the code. -/
theorem step_behind {code : ByteArray} {p : Processor} (behind : code.size ≤ p.position) :
  p.step env code = .error .hostFault
  := by
  have hzero (i : Nat) (h : p.position ≤ i) : Bytes.at0 code i = 0 := dif_neg (by omega)
  have hslice (n start : Nat) (h : p.position ≤ start) :
      Bytes.slice0 code start n = List.replicate n 0 := by
    induction n generalizing start with
    | zero => rfl
    | succ n ih => rw [Bytes.slice0, hzero start h, ih (start + 1) (by omega), List.replicate_succ]
  rw [step, hslice _ _ (Nat.le_refl _)]
  rfl

/-- The bytes of a jump back are those of a jump four gigabytes further. -/
theorem image_far (l : Layout) (offset : Nat) (items : List Item) :
  image { l with leave := l.leave + 0x100000000 } offset items = image l offset items
  := by
  have hsame (stop : Nat) : displacement stop (l.leave + 0x100000000) = displacement stop l.leave := by
    apply BitVec.eq_of_toInt_eq
    rw [displacement, displacement, BitVec.toInt_ofInt, BitVec.toInt_ofInt,
      show ((l.leave + 0x100000000 : Nat) : Int) - stop = l.leave - stop + 0x100000000 by omega]
    exact Int.add_bmod_right _ 0x100000000
  induction items generalizing offset with
  | nil => rfl
  | cons item items ih =>
    rw [image, image, ih]
    cases item with
    | leave => rw [Item.bytes, Item.bytes, hsame]
    | _ => rfl

/-- Code from which no jump reaches back crashes, at the latest where it would come back. -/
theorem Emits.crashes_of_far (h : Emits f s b buf sites buf' d) (below : f.leave < buf.offset)
    (ready : AllReady { layoutAt f.leave buf.offset d.code with leave := f.leave + 0x100000000 }
      buf.offset d.code)
    (behind : buf'.bytes.size ≤ f.leave + 0x100000000) {p : Processor} {r : Except Crash Flow}
    (walks : Walks env d.code p r) (ends : (∃ c, r = .error c) ∨ ∃ q, r = .ok (.leave q)) :
  ∃ c, Crashes env buf'.bytes f.leave (p.at buf.offset) c
  := by
  have hhas := h.has
  rw [← image_far] at hhas
  have hfollows : Follows env buf'.bytes _ f.leave buf.offset _ (p.at buf.offset) r :=
    follows_walks walks ready hhas
      (fun _ ht => Draft.StandsAt.target_layout d f.leave buf.offset (d.stub buf.offset) ht)
      h.finished.wellPlaced.distinct below
  obtain ⟨c, rfl⟩ | ⟨q, rfl⟩ := ends
  · obtain ⟨n, -, hfails⟩ := hfollows
    exact ⟨c, n, hfails⟩
  · obtain ⟨n, -, hleads⟩ := hfollows
    have hfails : Fails env buf'.bytes f.leave 1 (q.at (f.leave + 0x100000000)) .hostFault :=
      Fails.single (by rw [position_at]; omega) (step_behind behind)
    exact ⟨.hostFault, n + 1, hleads.fails hfails⟩

theorem Crashes.not_arrives {code : ByteArray} {leave : Nat} {p : Processor} {c : Crash}
    (h : Crashes env code leave p c) (r : ExitReason) (g : Guest) :
  ¬Arrives env code leave p r g
  := by
  obtain ⟨n, hcrash⟩ := h
  rintro ⟨m, q, harrives, -⟩
  have hfuel : n + (m + 1) = m + n + 1 := by omega
  have heq := hcrash (m + 1)
  rw [hfuel, harrives n] at heq
  cases heq

/-! ### Meaning -/

/-- Compiling a block keeps its meaning.  The code of a block that was formed, written within its
reservation, ends there with a jump back, which reaches the engine exactly if the code ends at most two
gigabytes behind the way back.  Such code, of less than 2147483648 instructions, comes back from
wherever it is entered.  If the budget does not cover the block, nothing but the program counter is
set; otherwise the guest is what single steps through the instructions make of it, and the reason tells
how they ended. -/
theorem emitBlock_preserves_meaning {σ : Type} {fetch : Word → Action σ Memory.Fault Half} {t t' : σ}
    {pc : Word} {limit : Nat} {block : Block}
    (formed : (Block.form fetch pc limit).on t = .ok (.ok block, t'))
    (env : Environment) (distinct : env.services.Distinct) (f : Frame) (buf : Buffer)
    (below : f.leave < buf.offset) (room : buf.offset + codeBound block ≤ buf.limit) :
  (codeBound block ≤ 0x80000000 →
    ∃ sites buf', emitBlock f env.services block buf = .ok (sites, buf')) ∧
  ∀ sites buf', emitBlock f env.services block buf = .ok (sites, buf') →
    buf'.offset ≤ buf.offset + codeBound block ∧
    (∀ p : Processor, (p.at (buf'.offset - jumpSize)).step env buf'.bytes = .ok (p.at f.leave) ↔
      buf'.offset ≤ f.leave + 0x80000000) ∧
    (buf'.offset ≤ f.leave + 0x80000000 → block.count < 0x80000000 →
      ∀ p : Processor, p.position = buf.offset → p.reg stateReg = env.state →
        if p.guest.hart.budget.toInt < block.count then
          Arrives env buf'.bytes f.leave p .budget (p.guest.goto block.pc)
        else
          Delivers env buf'.bytes f.leave block.ending p
            (Hart.steps block.insns (p.guest.goto block.pc)))
  := by
  obtain ⟨hformed, -⟩ := Block.isFormed_of_form formed
  refine ⟨exists_emitBlock hformed room, fun sites buf' hemit => ?_⟩
  obtain ⟨d, hemits⟩ := Emits.of_emitBlock hemit
  refine ⟨hemits.offset_le, hemits.step_last_iff below, fun hnear hsmall p hposition hbase => ?_⟩
  have hstands := hemits.standsAt below hnear
  have hblock := walks_block hformed hsmall hemits.lower distinct hbase
  have hp : p.at buf.offset = p := by
    rw [← hposition]
    rfl
  split
  case isTrue hlt =>
    rw [if_pos hlt] at hblock
    obtain ⟨q, hwalks, hrax, hguest⟩ := hblock
    obtain ⟨n, -, hleads⟩ := hstands.follows hemits.finished hwalks
    rw [hp] at hleads
    rw [← hguest]
    exact .of_leads hleads hrax
  case isFalse hge =>
    rw [if_neg hge] at hblock
    rw [← hp]
    exact hblock.delivers hstands hemits.finished hemits.lower

/-- An addition and a breakpoint. -/
def addAndStop : Block :=
  ⟨0, [⟨0, 0x00500093, .opImm .add 1 0 5, 4⟩, ⟨4, 0x9002, .ebreak, 2⟩], .trap⟩

theorem on_form_addAndStop :
  (Block.form (fun pc => (pure (if pc = 0 then 0x0093 else if pc = 2 then 0x0050 else 0x9002) :
    Action Unit Memory.Fault Half)) 0 8).on () = .ok (.ok addAndStop, ())
  := rfl

/-- An addition and a breakpoint, entered with a budget that covers them. -/
theorem emitBlock_preserves_meaning_of_two :
  ∃ sites buf', emitBlock ⟨0, 36, 64⟩ .standard addAndStop { capacity := 4096, offset := 64 } =
      .ok (sites, buf') ∧
    ∀ p : Processor, p.position = 64 → p.reg stateReg = Environment.standard.state →
      p.guest.hart.budget = 2 →
      Delivers .standard buf'.bytes 36 .trap p (Hart.steps addAndStop.insns (p.guest.goto 0))
  := by
  obtain ⟨hemits, hmeaning⟩ := emitBlock_preserves_meaning on_form_addAndStop .standard (by decide)
    ⟨0, 36, 64⟩ { capacity := 4096, offset := 64 } (by decide) (by decide)
  obtain ⟨sites, buf', hemit⟩ := hemits (by decide)
  obtain ⟨hbound, -, hruns⟩ := hmeaning sites buf' hemit
  refine ⟨sites, buf', hemit, fun p hposition hbase hbudget => ?_⟩
  have h := hruns (Nat.le_trans hbound (by decide)) (by decide) p hposition hbase
  rw [hbudget, if_neg (by decide)] at h
  exact h

/-- The same block at an offset below two gigabytes, in a buffer of four kilobytes more, is written but
never comes back, whatever the budget. -/
theorem emitBlock_loses_way_back :
  ∃ sites buf', emitBlock ⟨0, 22, 48⟩ .standard addAndStop
      { capacity := 0x80001000, offset := 0x7ffffff0 } = .ok (sites, buf') ∧
    ∀ p : Processor, p.position = 0x7ffffff0 → p.reg stateReg = Environment.standard.state →
      ∀ r g, ¬Arrives .standard buf'.bytes 22 p r g
  := by
  obtain ⟨hformed, -⟩ := Block.isFormed_of_form on_form_addAndStop
  let buf : Buffer := { capacity := 0x80001000, offset := 0x7ffffff0 }
  have hroom : buf.offset + codeBound addAndStop ≤ buf.limit := by decide
  obtain ⟨sites, buf', hemit⟩ := exists_emitBlock (f := ⟨0, 22, 48⟩) (s := .standard) hformed hroom
    (by decide)
  refine ⟨sites, buf', hemit, fun p hposition hbase => ?_⟩
  obtain ⟨d, hemits⟩ := Emits.of_emitBlock hemit
  have hp : p.at 0x7ffffff0 = p := by
    rw [← hposition]
    rfl
  obtain rfl : d = (lower .standard addAndStop).2 := (Prod.ext_iff.mp hemits.lower).2.symm
  -- Both jumps back are within reach of the place four gigabytes behind their target.
  have hready : AllReady { layoutAt 22 0x7ffffff0 (lower .standard addAndStop).2.code with
      leave := 22 + 0x100000000 } 0x7ffffff0 (lower .standard addAndStop).2.code :=
    ⟨rfl, ⟨by decide, rfl⟩, rfl, rfl, rfl, rfl, rfl, rfl, decide_eq_true (by decide), trivial, rfl, rfl,
      rfl, decide_eq_true (by decide), trivial⟩
  have hsize : buf'.bytes.size ≤ 22 + 0x100000000 := by
    have hoffset := hemits.offset_le
    rw [hemits.offset_eq] at hoffset
    rw [hemits.buffer, Buffer.size_overwrite, add_length_image]
    exact Nat.max_le.mpr ⟨Nat.zero_le _, Nat.le_trans hoffset (by decide)⟩
  have hlost {r : Except Crash Flow} (walks : Walks .standard (lower .standard addAndStop).2.code p r)
      (ends : (∃ c, r = .error c) ∨ ∃ q, r = .ok (.leave q)) (reason : ExitReason) (g : Guest) :
      ¬Arrives .standard buf'.bytes 22 p reason g := by
    obtain ⟨c, hcrashes⟩ := hemits.crashes_of_far (by decide) hready hsize walks ends
    rw [hp] at hcrashes
    exact hcrashes.not_arrives reason g
  have hblock := walks_block hformed (by decide) hemits.lower (by decide) hbase
  split at hblock
  · obtain ⟨q, hwalks, -⟩ := hblock
    exact hlost hwalks (.inr ⟨q, rfl⟩)
  · revert hblock
    cases Hart.steps addAndStop.insns (p.guest.goto addAndStop.pc) with
    | error c => exact fun hblock => hlost hblock (.inl ⟨c, rfl⟩)
    | ok x =>
      intro hblock
      rw [Yields] at hblock
      generalize departure addAndStop.ending x.1 = reason, observed x.1 x.2 = g at hblock
      cases hblock with
      | exit _ target => cases target
      | @leave q _ leaves => exact hlost leaves (.inr ⟨q, rfl⟩)

end CrossHart.Host
