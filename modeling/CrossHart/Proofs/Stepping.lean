import CrossHart.Proofs.Formation
import CrossHart.Proofs.Memory.Plain

/-!
# Blocks found by stepping

From an address on, instructions are read one after the other, each behind the one before.  A block is
formed exactly if this comes to an instruction that ends a block, or to the greatest number of
instructions, before something cannot be read.  Nothing behind the last instruction that is read is
fetched.
-/

namespace CrossHart.Block

open Isa

/-- How a block ends says whether its last instruction ends it. -/
theorem Ending.ofInstr_eq_limit_iff (i : Instr) :
  Ending.ofInstr i = .limit ↔ i.endsBlock = false
  := by
  cases i <;> simp [Ending.ofInstr, Instr.endsBlock]

/-- Half-words in memory: what is at an address, or a fault. -/
abbrev Halves := Word → Except Memory.Fault Half

namespace Halves

variable {read : Halves} {pc stop : Word} {d last : Located} {ds : List Located} {asked : List Word}

/-! ### Single instructions -/

/-- Fetching half-words, with a list of the addresses that were asked for. -/
def fetch (read : Halves) (pc : Word) : Action (List Word) Memory.Fault Half :=
  .of fun asked => .ok (read pc, asked ++ [pc])

/-- The bits of the instruction at an address. -/
def rawAt (read : Halves) (pc : Word) : Except Memory.Fault (BitVec 32) := do
  let low ← read pc
  if low.isFull then return (← read (pc + 2)) ++ low
  else return low.setWidth 32

/-- The instruction at an address. -/
def instrAt (read : Halves) (pc : Word) : Except CompileError Located := do
  let raw ← (read.rawAt pc).mapError .fetch
  let (instr, width) ← (decode raw pc).mapError .decode
  return ⟨pc, raw, instr, width⟩

/-- The addresses of the half-words of the instruction at an address: a second one is asked for only if
the first is that of a full-width instruction. -/
def askedAt (read : Halves) (pc : Word) : List Word :=
  match read pc with
  | .ok low => if low.isFull then [pc, pc + 2] else [pc]
  | .error _ => [pc]

theorem on_fetchRaw (read : Halves) (pc : Word) (asked : List Word) :
  (fetchRaw read.fetch pc).on asked = .ok (read.rawAt pc, asked ++ read.askedAt pc)
  := by
  have hlow : (read.fetch pc).on asked = .ok (read pc, asked ++ [pc]) := rfl
  have hhigh : (read.fetch (pc + 2)).on (asked ++ [pc]) = .ok (read (pc + 2), asked ++ [pc, pc + 2]) := by
    rw [fetch, Action.on_of, List.append_assoc]
    rfl
  rw [fetchRaw, Action.on_bind, hlow, rawAt, askedAt]
  cases read pc with
  | error f => rfl
  | ok low =>
    dsimp only
    rw [Except.ok_bind]
    cases low.isFull with
    | false => rfl
    | true =>
      rw [if_pos rfl, if_pos rfl, if_pos rfl, Action.on_bind, hhigh]
      cases read (pc + 2) <;> rfl

/-- Reading an instruction gives the one at its address, and fetches nothing but its half-words. -/
theorem on_readInstr (read : Halves) (pc : Word) (asked : List Word) :
  (readInstr read.fetch pc).on asked = .ok (read.instrAt pc, asked ++ read.askedAt pc)
  := by
  rw [readInstr, Action.on_bind, Action.on_adapt, on_fetchRaw, Except.ok_map, instrAt]
  cases read.rawAt pc with
  | error f => rfl
  | ok raw =>
    simp only [Except.mapError, Except.ok_bind]
    cases decode raw pc <;> rfl

theorem pc_of_instrAt (h : read.instrAt pc = .ok d) :
  d.pc = pc
  := by
  obtain ⟨raw, -, h⟩ := Except.bind_eq_ok.mp h
  obtain ⟨⟨instr, width⟩, -, h⟩ := Except.bind_eq_ok.mp h
  cases h
  rfl

/-! ### Stepping -/

/-- Instructions that go on follow one another from an address to another one. -/
structure Passes (read : Halves) (pc : Word) (ds : List Located) (stop : Word) : Prop where
  follow : ds.map (·.pc) ++ [stop] = pc :: ds.map (·.next)
  reads : ∀ d ∈ ds, read.instrAt d.pc = .ok d
  goesOn : ∀ d ∈ ds, d.instr.endsBlock = false

/-- Stepping comes to the last instruction of a block: it ends the block, or it is the `n`-th one. -/
structure Closes (read : Halves) (pc : Word) (n : Nat) (ds : List Located) (last : Located) : Prop where
  passes : read.Passes pc ds last.pc
  reads : read.instrAt last.pc = .ok last
  room : ds.length < n
  stops : last.instr.endsBlock = true ∨ ds.length + 1 = n

theorem passes_nil (read : Halves) (pc : Word) :
  read.Passes pc [] pc
  := ⟨rfl, by simp, by simp⟩

theorem passes_cons :
  read.Passes pc (d :: ds) stop ↔
    read.instrAt pc = .ok d ∧ d.instr.endsBlock = false ∧ read.Passes d.next ds stop
  := by
  constructor
  · rintro ⟨follow, reads, goesOn⟩
    obtain ⟨rfl, hfollow⟩ := List.cons.inj follow
    obtain ⟨hread, hreads⟩ := List.forall_mem_cons.mp reads
    obtain ⟨hgoesOn, hrest⟩ := List.forall_mem_cons.mp goesOn
    exact ⟨hread, hgoesOn, hfollow, hreads, hrest⟩
  · rintro ⟨hread, hgoesOn, hfollow, hreads, hrest⟩
    have hpc := pc_of_instrAt hread
    rw [← hpc] at hread
    refine ⟨?_, List.forall_mem_cons.mpr ⟨hread, hreads⟩, List.forall_mem_cons.mpr ⟨hgoesOn, hrest⟩⟩
    rw [List.map_cons, List.cons_append, hfollow, hpc]
    rfl

/-- Stepping goes on to where an instruction cannot be read or ends the block, but no further than over
`n` instructions. -/
theorem exists_passes (read : Halves) (pc : Word) (n : Nat) :
  ∃ ds stop, read.Passes pc ds stop ∧ ds.length ≤ n ∧
    ∀ d, read.instrAt stop = .ok d → d.instr.endsBlock = true ∨ ds.length = n
  := by
  induction n generalizing pc with
  | zero => exact ⟨[], pc, read.passes_nil pc, Nat.le_refl 0, fun _ _ => .inr rfl⟩
  | succ n ih =>
    by_cases hstop : ∀ d, read.instrAt pc = .ok d → d.instr.endsBlock = true
    · exact ⟨[], pc, read.passes_nil pc, Nat.zero_le _, fun d hd => .inl (hstop d hd)⟩
    · push Not at hstop
      obtain ⟨d, hread, hends⟩ := hstop
      obtain ⟨ds, stop, hpasses, hle, hlast⟩ := ih d.next
      refine ⟨d :: ds, stop, passes_cons.mpr ⟨hread, Bool.eq_false_iff.mpr hends, hpasses⟩,
        Nat.succ_le_succ hle, fun last hread => ?_⟩
      exact (hlast last hread).imp_right (congrArg Nat.succ)

/-! ### Forming blocks -/

/-- Reading instructions for a block goes on from where stepping has come. -/
theorem Passes.on_collect (h : read.Passes pc ds stop) {n : Nat} (le : ds.length ≤ n)
    (before : List Located) (asked : List Word) :
  (collect read.fetch n pc before).on asked =
    (collect read.fetch (n - ds.length) stop (ds.reverse ++ before)).on
      (asked ++ ds.flatMap fun d => read.askedAt d.pc)
  := by
  induction ds generalizing pc n before asked with
  | nil =>
    obtain rfl : stop = pc := List.singleton_inj.mp h.follow
    simp
  | cons d ds ih =>
    obtain ⟨hread, hgoesOn, hrest⟩ := passes_cons.mp h
    obtain ⟨n, rfl⟩ : ∃ k, n = k + 1 := Nat.exists_eq_add_one.mpr (Nat.lt_of_lt_of_le (Nat.zero_lt_succ _) le)
    have hcollect : (collect read.fetch (n + 1) pc before).on asked =
        (collect read.fetch n d.next (d :: before)).on (asked ++ read.askedAt d.pc) := by
      conv_lhs => unfold collect
      rw [Action.on_bind, on_readInstr, hread, pc_of_instrAt hread]
      dsimp only
      rw [hgoesOn]
      rfl
    rw [hcollect, ih hrest (Nat.le_of_succ_le_succ le), List.length_cons, Nat.add_sub_add_right]
    simp

/-- An instruction that ends a block, or the last one for which there is room, is the last one that is
read. -/
theorem on_collect_last (reads : read.instrAt pc = .ok last) {n : Nat}
    (stops : last.instr.endsBlock = true ∨ n = 0) (before : List Located) (asked : List Word) :
  (collect read.fetch n pc before).on asked =
    .ok (.ok ((last :: before).reverse, .ofInstr last.instr), asked ++ read.askedAt pc)
  := by
  unfold collect
  rw [Action.on_bind, on_readInstr, reads]
  dsimp only
  cases hends : last.instr.endsBlock with
  | true => rfl
  | false =>
    obtain rfl : n = 0 := stops.resolve_left (by rw [hends]; decide)
    rw [(Ending.ofInstr_eq_limit_iff last.instr).mpr hends]
    rfl

/-- Forming a block where stepping comes to a last instruction. -/
theorem Closes.on_form {limit : Nat} (h : read.Closes pc (max 1 limit) ds last) :
  (form read.fetch pc limit).on [] =
    .ok (.ok ⟨pc, ds ++ [last], .ofInstr last.instr⟩,
      (ds ++ [last]).flatMap fun d => read.askedAt d.pc)
  := by
  have hroom := h.room
  have hstops : last.instr.endsBlock = true ∨ limit - 1 - ds.length = 0 := h.stops.imp_right (by omega)
  rw [form, Action.on_bind, h.passes.on_collect (by omega), on_collect_last h.reads hstops]
  simp

/-- Forming a block where stepping comes to something that is no instruction. -/
theorem Passes.on_form {limit : Nat} {e : CompileError} (h : read.Passes pc ds stop)
    (room : ds.length < max 1 limit) (fails : read.instrAt stop = .error e) :
  (form read.fetch pc limit).on [] =
    .ok (.error e, (ds.flatMap fun d => read.askedAt d.pc) ++ read.askedAt stop)
  := by
  rw [form, Action.on_bind, h.on_collect (by omega)]
  unfold collect
  rw [Action.on_bind, on_readInstr, fails]
  simp

end Halves

/-- Blocks are formed exactly as stepping finds them.  Reading an instruction fetches its half-words and
no others.  There is a block exactly if stepping comes to an instruction that ends a block, or to the
greatest number of instructions, which is at least one, before something cannot be read; then the block
is what was stepped over, and how it ends is how its last instruction ends it.  Otherwise the error is
that of the first instruction that cannot be read.  Nothing behind the last instruction is fetched. -/
theorem form_is_exact (read : Halves) (pc : Word) (limit : Nat) :
  (∀ a asked, (readInstr read.fetch a).on asked = .ok (read.instrAt a, asked ++ read.askedAt a)) ∧
  ∃ r asked, (form read.fetch pc limit).on [] = .ok (r, asked) ∧
    (∀ b, r = .ok b ↔ ∃ ds last, read.Closes pc (max 1 limit) ds last ∧
      b.pc = pc ∧ b.insns = ds ++ [last] ∧ b.ending = .ofInstr last.instr ∧
      (b.ending = .limit ↔ last.instr.endsBlock = false) ∧
      asked = b.insns.flatMap fun d => read.askedAt d.pc) ∧
    ∀ e, r = .error e ↔ ∃ ds stop, read.Passes pc ds stop ∧ ds.length < max 1 limit ∧
      read.instrAt stop = .error e ∧
      asked = (ds.flatMap fun d => read.askedAt d.pc) ++ read.askedAt stop
  := by
  refine ⟨read.on_readInstr, ?_⟩
  obtain ⟨ds, stop, hpasses, hle, hstops⟩ := read.exists_passes pc (max 1 limit - 1)
  have hroom : ds.length < max 1 limit := by omega
  cases hread : read.instrAt stop with
  | error e =>
    have hform := hpasses.on_form hroom hread
    refine ⟨_, _, hform, fun b => ⟨?_, ?_⟩, fun e' => ⟨?_, ?_⟩⟩
    · rintro ⟨⟩
    · rintro ⟨ds', last, hcloses, -⟩
      cases hform.symm.trans hcloses.on_form
    · rintro ⟨⟩
      exact ⟨ds, stop, hpasses, hroom, hread, rfl⟩
    · rintro ⟨ds', stop', hpasses', hroom', hread', -⟩
      exact congrArg Prod.fst (Except.ok.inj (hform.symm.trans (hpasses'.on_form hroom' hread')))
  | ok last =>
    obtain rfl := Halves.pc_of_instrAt hread
    have hcloses : read.Closes pc (max 1 limit) ds last :=
      ⟨hpasses, hread, hroom, (hstops last hread).imp_right (by omega)⟩
    have hform := hcloses.on_form
    refine ⟨_, _, hform, fun b => ⟨?_, ?_⟩, fun e => ⟨?_, ?_⟩⟩
    · rintro ⟨⟩
      exact ⟨ds, last, hcloses, rfl, rfl, rfl, Ending.ofInstr_eq_limit_iff _, rfl⟩
    · rintro ⟨ds', last', hcloses', hpc, hinsns, hending, -⟩
      have hb : b = ⟨pc, ds' ++ [last'], .ofInstr last'.instr⟩ := by
        rw [← hpc, ← hinsns, ← hending]
      rw [hb]
      exact congrArg Prod.fst (Except.ok.inj (hform.symm.trans hcloses'.on_form))
    · rintro ⟨⟩
    · rintro ⟨ds', stop', hpasses', hroom', hread', -⟩
      cases hform.symm.trans (hpasses'.on_form hroom' hread')

end CrossHart.Block
