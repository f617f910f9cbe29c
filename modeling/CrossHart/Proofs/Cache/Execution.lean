import CrossHart.Proofs.Cache.Runs
import CrossHart.Proofs.Hart.Steps
import Mathlib.Tactic.Ring

/-!
# Running compiled code

Code that is entered at a live block runs on through the blocks to which exits are linked, until it is
back at the engine.  What the engine finds is what single steps through the instructions of all these
blocks make of the guest.
-/

namespace CrossHart

open Cache Host Processor Isa

variable {M : Memory → Memory → Prop} {env : Environment} {p : Processor}

namespace Block

/-- The instructions of a block that was formed were decoded. -/
theorem IsRun.decoded {pc stop : Word} {ds : List Located} {e : Ending} (h : IsRun pc ds e stop) :
  ∀ d ∈ ds, d.IsDecoded
  := by
  induction h with
  | last decoded => simpa using decoded
  | limit decoded => simpa using decoded
  | cons decoded _ _ ih => exact List.forall_mem_cons.mpr ⟨decoded, ih⟩

/-- The instructions of a block that was formed have registers that exist. -/
theorem IsRun.proper {pc stop : Word} {ds : List Located} {e : Ending} (h : IsRun pc ds e stop) :
  ∀ d ∈ ds, d.instr.IsProper
  := fun d hd => (h.decoded d hd).proper

end Block

namespace CodeCache

variable {P : Block → Prop} {c : CodeCache} {id : Nat} {b : Compiled}

/-- A block of the guest that a live block is made from. -/
def Hosts (P : Block → Prop) (c : CodeCache) (block : Block) : Prop :=
  P block ∧ ∃ id b, c.table.view.bare id = some b ∧ b.pc = block.pc ∧ b.endPc = block.endPc ∧
    b.count = block.count

/-! ### Leaving a block -/

/-- A run comes back to the engine within some steps, for a reason and with a guest. -/
def Returns (env : Environment) (c : CodeCache) (n : Nat) (p : Processor) (reason : ExitReason)
    (g : Guest) : Prop :=
  ∃ k ≤ n, ∃ q : Processor, Leads env c.buffer.bytes c.frame.leave k p (q.at c.frame.leave) ∧
    q.reg .rax = BitVec.ofNat 64 reason.code ∧ q.guest = g

/-- A run comes to a live block within some steps, with a guest that goes on there. -/
def Continues (env : Environment) (c : CodeCache) (n : Nat) (p : Processor) (g : Guest) : Prop :=
  ∃ k ≤ n, ∃ (q : Processor) (id : Nat) (b : Compiled), c.table.view.bare id = some b ∧
    b.pc = g.hart.regs.pc ∧ Leads env c.buffer.bytes c.frame.leave k p (q.at b.entry) ∧
    q.guest.goto b.pc = g ∧ q.reg stateReg = env.state

theorem Returns.after {k n : Nat} {q : Processor} {reason : ExitReason} {g : Guest}
    (h : Returns env c n q reason g) (leads : Leads env c.buffer.bytes c.frame.leave k p q) :
  Returns env c (k + n) p reason g
  := by
  obtain ⟨k', hk', q', hleads, hrax, hguest⟩ := h
  exact ⟨k + k', by omega, q', leads.trans hleads, hrax, hguest⟩

theorem Returns.mono {n n' : Nat} {reason : ExitReason} {g : Guest} (h : Returns env c n p reason g)
    (le : n ≤ n') :
  Returns env c n' p reason g
  := by
  obtain ⟨k, hk, h⟩ := h
  exact ⟨k, by omega, h⟩

/-- An exit leads to its stub, or to the live block at its address. -/
theorem dest_cases (linked : c.Linked P) {block : Block} {d : Draft}
    (live : c.table.view.bare id = some b) (codes : Codes c.services b block d) {k : Nat} {pc : Word}
    (target : d.targets[k]? = some pc) :
  c.table.view.dest ⟨id, k⟩ = d.stub b.entry k ∨
    ∃ dst b', c.table.view.bare dst = some b' ∧ b'.pc = pc ∧ c.table.view.dest ⟨id, k⟩ = b'.entry
  := by
  obtain ⟨b₀, hb₀, rfl⟩ := Table.bare_eq_some.mp live
  have hlength : k < b₀.bare.exits.length := by
    rw [codes.length, ← (finished_of_lower codes.lower).targets, ← List.length_reverse]
    exact (List.getElem?_eq_some_iff.mp target).1
  have hlt : k < b₀.exits.length := by
    rw [Compiled.bare, List.length_map] at hlength
    exact hlength
  obtain ⟨x, hx⟩ : ∃ x, b₀.exits[k]? = some x := ⟨_, List.getElem?_eq_getElem hlt⟩
  have hexit : c.table.view.exit ⟨id, k⟩ = some x := Table.exit_eq_some.mpr ⟨b₀, hb₀, hx⟩
  have hsite : d.IsSite b₀.entry k x.site := by
    have hbare : b₀.bare.exits[k]? = some { x with linked := none } := by
      rw [Compiled.bare, List.getElem?_map, hx]
      rfl
    have hsite := codes.sites k { x with linked := none } hbare
    exact hsite
  obtain rfl : x.site.target = pc := Option.some.inj (hsite.target.symm.trans target)
  cases hlinked : x.linked with
  | none =>
    refine .inl ?_
    rw [dest_of_free hexit hlinked, Draft.stub]
    change _ = (Item.offsetOf? (.stub k) b₀.entry d.code).getD 0
    rw [hsite.stub]
    rfl
  | some dst =>
    obtain ⟨b', hb', hpc⟩ := linked.graph.linked _ x dst hexit hlinked
    exact .inr ⟨dst, b', hb', hpc, dest_of_linked hexit hlinked hb'⟩

/-- The code of a live block leaves with nothing done if the budget does not cover it.  Otherwise its
instructions are carried out, and the code is back at the engine or goes on at a live block. -/
theorem passes_block (intact : c.Intact P)
    (small : ∀ block, P block → block.IsFormed ∧ block.count < 0x80000000)
    (services : env.services = c.services) (distinct : env.services.Distinct)
    (live : c.table.view.bare id = some b) (entry : p.position = b.entry)
    (base : p.reg stateReg = env.state) (routine : Memory.IsRoutine M)
    (fit : M p.guest.memory p.guest.memory) :
  if p.guest.hart.budget.toInt < b.count then
    Returns env c c.buffer.bytes.size p .budget (p.guest.goto b.pc)
  else
    ∃ block r g, c.Hosts P block ∧ block.pc = b.pc ∧ block.count = b.count ∧
      Hart.steps block.insns (p.guest.goto b.pc) = .ok (r, g) ∧
      (Returns env c (2 * c.buffer.bytes.size) p (departure block.ending r) (observed r g) ∨
        r = .ok .continue ∧ Continues env c c.buffer.bytes.size p g)
  := by
  obtain ⟨block, d, hP, codes, stands⟩ := intact.linked.coded id b live
  obtain ⟨hformed, hcount⟩ := small block hP
  have hfinished := finished_of_lower codes.lower
  have hinside : Item.stop b.entry d.code ≤ c.buffer.bytes.size := by
    rw [← codes.stop]
    exact intact.arena.inside id b live
  have hp : p.at b.entry = p := by
    rw [← entry]
    rfl
  have hlower : lower env.services block = (.ok (), d) := by
    rw [services]
    exact codes.lower
  have hwalks := walks_block hformed hcount hlower distinct base
  rw [codes.pc, codes.count]
  split
  case isTrue hlt =>
    rw [if_pos hlt] at hwalks
    obtain ⟨q, hwalks, hrax, hguest⟩ := hwalks
    obtain ⟨n, hn, hleads⟩ := stands.follows hfinished hwalks
    rw [hp] at hleads
    exact ⟨n, by omega, q, hleads, hrax, hguest⟩
  case isFalse hge =>
    rw [if_neg hge] at hwalks
    have hsteps : Meets True (Hart.steps block.insns (p.guest.goto block.pc)) _ :=
      Hart.steps_meets_of routine fit hformed.proper
    obtain ⟨⟨r, g⟩, hr, -⟩ := hsteps.exists_ok trivial
    refine ⟨block, r, g, ⟨hP, id, b, live, codes.pc, codes.endPc, codes.count⟩, rfl, rfl, hr, ?_⟩
    rw [hr, Yields] at hwalks
    have hchain (h : departure block.ending r = .chain) : r = .ok .continue := by
      unfold departure at h
      split at h
      · cases h
      · cases h
      · rfl
      · split at h <;> cases h
    generalize hreason : departure block.ending r = reason at hwalks hchain ⊢
    generalize hobserved : observed r g = g' at hwalks ⊢
    cases hwalks with
    | leave leaves rax =>
      obtain ⟨n, hn, hleads⟩ := stands.follows hfinished leaves
      rw [hp] at hleads
      exact .inl ⟨n, by omega, _, hleads, rax, rfl⟩
    | @exit k q g' exits target guest base =>
      obtain ⟨n, hn, hleads⟩ := stands.follows hfinished exits
      rw [hp] at hleads
      have hcontinue := hchain rfl
      have hg : g = g' := by
        rw [hcontinue] at hobserved
        exact hobserved
      change Leads _ _ _ n p (q.at (c.table.view.dest ⟨id, k⟩)) at hleads
      obtain hdest | ⟨dst, b', hb', hpc, hdest⟩ := dest_cases intact.linked live codes target
      · rw [hdest] at hleads
        obtain ⟨m, q', hm, hstub, hrax, hguest⟩ :=
          stands.leads_stub hfinished codes.lower target base
        refine .inl ⟨n + m, by omega, q', hleads.trans hstub, hrax, ?_⟩
        rw [hguest, guest]
      · rw [hdest] at hleads
        refine .inr ⟨hcontinue, n, by omega, q, dst, b', hb', ?_, hleads, ?_, base⟩
        · rw [hg, hpc]
        · rw [hg, hpc, guest]

/-! ### Running through linked blocks -/

/-- The reason for which code is back at the engine tells how the instructions ended. -/
def Tells (reason : ExitReason) (r : Except Exception Hart.StepExit) : Prop :=
  reason = .budget ∧ r = .ok .continue ∨ ∃ ending, reason = departure ending r

/-- Instructions that live blocks are made from, carried out one after the other, are what a run does
before it is back at the engine within some steps. -/
structure Carried (env : Environment) (P : Block → Prop) (c : CodeCache) (n : Nat) (p : Processor)
    (start : Guest) (ds : List Located) (r : Except Exception Hart.StepExit) (g : Guest) : Prop where
  hosted : ∀ d ∈ ds, ∃ block, c.Hosts P block ∧ d ∈ block.insns
  track : Hart.OnTrack ds start
  steps : Hart.steps ds start = .ok (r, g)
  covered : ds.length ≤ start.hart.budget.toNat
  returns : ∃ reason, Tells reason r ∧ Returns env c n p reason (observed r g)

theorem toNat_of_toInt_le {budget : Word} {n : Nat} (h : ¬budget.toInt < n) :
  n ≤ budget.toNat ∧ budget.toNat < 2 ^ 63
  := by
  have hcond := BitVec.toInt_eq_toNat_cond budget
  have hlt := budget.isLt
  split at hcond <;> omega

/-- A run through code that is entered at a live block. -/
theorem exists_carried (intact : c.Intact P)
    (small : ∀ block, P block → block.IsFormed ∧ block.count < 0x80000000)
    (services : env.services = c.services) (distinct : env.services.Distinct)
    (live : c.table.view.bare id = some b) (entry : p.position = b.entry)
    (base : p.reg stateReg = env.state) (routine : Memory.IsRoutine M)
    (fit : M p.guest.memory p.guest.memory) (positive : 0 ≤ p.guest.hart.budget.toInt) :
  ∃ ds r g, Carried env P c ((p.guest.hart.budget.toNat + 1) * c.buffer.bytes.size) p
    (p.guest.goto b.pc) ds r g ∧ (b.count ≤ p.guest.hart.budget.toInt → ds ≠ [])
  := by
  -- The budget gets smaller with every block, as no block is empty.
  induction hbudget : p.guest.hart.budget.toNat using Nat.strongRecOn generalizing p id b with
  | ind budget ih =>
    have hpass := passes_block intact small services distinct live entry base routine fit
    split at hpass
    case isTrue hlt =>
      refine ⟨[], .ok .continue, p.guest.goto b.pc, ⟨by simp, trivial, rfl, by simp, .budget,
        .inl ⟨rfl, rfl⟩, hpass.mono ?_⟩, fun h => by omega⟩
      exact Nat.le_mul_of_pos_left _ (by omega)
    case isFalse hge =>
      obtain ⟨block, r, g, hosts, hpc, hcount, hsteps, hways⟩ := hpass
      have hformed := (small block hosts.1).1
      have hpos : 0 < block.insns.length := hformed.length_pos
      have hlength : block.insns.length = b.count := hcount
      obtain ⟨hcovered, hhigh⟩ := toNat_of_toInt_le hge
      have htrack : Hart.OnTrack block.insns (p.guest.goto b.pc) :=
        Hart.onTrack_of_isRun hformed hpc.symm
      have hhosted : ∀ d ∈ block.insns, ∃ block, c.Hosts P block ∧ d ∈ block.insns :=
        fun d hd => ⟨block, hosts, hd⟩
      obtain hreturns | ⟨rfl, k, hk, q, id', b', hlive', hpc', hleads, hguest, hbase⟩ := hways
      · refine ⟨block.insns, r, g, ⟨hhosted, htrack, hsteps, ?_, _, .inr ⟨_, rfl⟩, hreturns.mono ?_⟩,
          fun _ => List.ne_nil_of_length_pos hpos⟩
        · rw [hlength]
          exact hcovered
        · exact Nat.mul_le_mul_right _ (by omega)
      · have hmeets : Meets True (Hart.steps block.insns (p.guest.goto b.pc)) _ :=
          Hart.steps_meets_of routine fit hformed.proper
        obtain ⟨hmemory, -, -, n, -, hn, hall⟩ := hmeets.post_of_eq hsteps
        have hsame : q.guest.hart.budget = g.hart.budget ∧ q.guest.memory = g.memory := by
          rw [← hguest]
          exact ⟨rfl, rfl⟩
        have hleft : g.hart.budget.toNat = p.guest.hart.budget.toNat - b.count := by
          have hn' : n = b.count := (hall rfl).trans hlength
          have hbudget' : g.hart.budget = p.guest.hart.budget - BitVec.ofNat 64 n := hn
          rw [hbudget', hn', BitVec.toNat_sub, BitVec.toNat_ofNat]
          omega
        have hpositive : 0 ≤ q.guest.hart.budget.toInt := by
          rw [hsame.1, BitVec.toInt_eq_toNat_of_lt (by omega)]
          exact Int.natCast_nonneg _
        have hfit : M q.guest.memory q.guest.memory := by
          rw [hsame.2]
          exact routine.course.settled _ _ hmemory
        obtain ⟨ds, r, g', hcarried, -⟩ := ih q.guest.hart.budget.toNat (by rw [hsame.1]; omega)
          hlive' (p := q.at b'.entry) rfl hbase hfit hpositive rfl
        change Carried env P c _ _ (q.guest.goto b'.pc) ds r g' at hcarried
        rw [hguest] at hcarried
        refine ⟨block.insns ++ ds, r, g', ⟨?_, ?_, ?_, ?_, ?_⟩,
          fun _ => List.append_ne_nil_of_left_ne_nil (List.ne_nil_of_length_pos hpos) ds⟩
        · intro d hd
          obtain hd | hd := List.mem_append.mp hd
          · exact hhosted d hd
          · exact hcarried.hosted d hd
        · refine Hart.Along.append htrack fun g'' hg'' => ?_
          cases hsteps.symm.trans hg''
          exact hcarried.track
        · rw [Hart.steps_append, hsteps]
          exact hcarried.steps
        · have hle := hcarried.covered
          rw [List.length_append]
          change _ ≤ p.guest.hart.budget.toNat
          omega
        · obtain ⟨reason, htells, hreturns⟩ := hcarried.returns
          refine ⟨reason, htells, (hreturns.after hleads).mono ?_⟩
          calc k + (q.guest.hart.budget.toNat + 1) * c.buffer.bytes.size
            _ ≤ (q.guest.hart.budget.toNat + 1 + 1) * c.buffer.bytes.size := by
              rw [Nat.succ_mul (q.guest.hart.budget.toNat + 1)]
              omega
            _ ≤ (budget + 1) * c.buffer.bytes.size := by
              refine Nat.mul_le_mul_right _ ?_
              rw [hsame.1]
              omega

/-! ### Entering code -/

theorem reg_atEntry (env : Environment) (guest : Guest) (entry : Nat) :
  (atEntry env guest entry).reg stateReg = env.state
  := by
  rw [Processor.reg, atEntry]
  exact Vector.getElem_set_self _

/-- Entering code at a live block that the budget covers.  The engine finds what single steps through
instructions that live blocks are made from make of the guest. -/
theorem exists_enter (intact : c.Intact P)
    (small : ∀ block, P block → block.IsFormed ∧ block.count < 0x80000000)
    (distinct : c.services.Distinct) (live : c.block? id = some b) {guest : Guest} (routine : Memory.IsRoutine M)
    (fit : M guest.memory guest.memory) (covered : b.count ≤ guest.hart.budget.toInt) :
  ∃ ds r g reason, ds ≠ [] ∧ (∀ d ∈ ds, ∃ block, c.Hosts P block ∧ d ∈ block.insns) ∧
    Hart.OnTrack ds (guest.goto b.pc) ∧ Hart.steps ds (guest.goto b.pc) = .ok (r, g) ∧
    ds.length ≤ guest.hart.budget.toNat ∧ Tells reason r ∧
    c.enter id guest = .ok (reason.code, observed r g)
  := by
  have hbare : c.table.view.bare id = some b.bare := Table.bare_of_block? live
  let env := c.environment
  have hservices : env.services = c.services := rfl
  obtain ⟨ds, r, g, hcarried, hne⟩ := exists_carried intact small hservices distinct hbare
    (p := atEntry env guest b.bare.entry) rfl (reg_atEntry env guest _) routine fit
    (Int.le_trans (Int.natCast_nonneg b.count) covered)
  obtain ⟨reason, htells, k, hk, q, hleads, hrax, hguest⟩ := hcarried.returns
  refine ⟨ds, r, g, reason, hne covered, hcarried.hosted, hcarried.track, hcarried.steps,
    hcarried.covered, htells, ?_⟩
  have hbudget : (atEntry env guest b.bare.entry).guest.hart.budget = guest.hart.budget := rfl
  rw [hbudget] at hk
  obtain ⟨fuel, hfuel⟩ : ∃ fuel, (guest.hart.budget.toNat + 2) * (c.buffer.bytes.size + 1) =
      k + (fuel + 1) := by
    have hmul : (guest.hart.budget.toNat + 2) * (c.buffer.bytes.size + 1) =
        (guest.hart.budget.toNat + 1) * c.buffer.bytes.size + c.buffer.bytes.size +
          guest.hart.budget.toNat + 2 := by ring
    exact ⟨(guest.hart.budget.toNat + 2) * (c.buffer.bytes.size + 1) - k - 1, by omega⟩
  have hrun : run env c.buffer.bytes c.frame.leave (k + (fuel + 1)) (atEntry env guest b.entry) =
      .ok (q.at c.frame.leave) := by
    rw [show atEntry env guest b.entry = atEntry env guest b.bare.entry from rfl, hleads, run,
      if_pos (position_at q c.frame.leave)]
  have hcode : ((q.at c.frame.leave).reg .rax).toNat = reason.code := by
    rw [show (q.at c.frame.leave).reg .rax = q.reg .rax from rfl, hrax]
    cases reason <;> rfl
  unfold enter
  rw [live]
  dsimp only
  unfold Processor.enter Buffer.executable
  rw [if_pos intact.mode, Except.ok_bind, hfuel]
  dsimp only
  rw [hrun, Except.ok_bind, hcode, ← hguest]
  rfl

end CodeCache

end CrossHart
