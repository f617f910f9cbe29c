import CrossHart.Host.Processor
import CrossHart.Proofs.Host.Jump

/-!
# Carrying out assembly

What the processor does with the bytes of items can be said of the items themselves: `Item.exec`
carries them out one after the other and tells how they are left.  Code that has the image of the
items at the processor's position does the same, in at most as many steps as it has bytes.
-/

namespace CrossHart.Host

/-- How items are left: at their end, by a jump to a target, through an exit, or for the engine. -/
inductive Flow where
  | next (p : Processor)
  | jump (t : Target) (p : Processor)
  | exit (n : Nat) (p : Processor)
  | leave (p : Processor)

/-- The processor at a position. -/
def Processor.at (p : Processor) (position : Nat) : Processor :=
  { p with position }

@[simp]
theorem Processor.at_at (p : Processor) (m n : Nat) :
  (p.at m).at n = p.at n
  := rfl

@[simp]
theorem Processor.position_at (p : Processor) (n : Nat) :
  (p.at n).position = n
  := rfl

/-- The instructions that go on to the next one. -/
def Instr.IsStraight : Instr → Bool
  | .jmp _ | .jcc .. | .nop _ => false
  | _ => true

theorem Instr.IsStraight.isReadable {i : Instr} (h : i.IsStraight) :
  i.IsReadable
  := by
  cases i <;> trivial

theorem Instr.IsStraight.normal {i : Instr} (h : i.IsStraight) :
  i.normal.IsStraight
  := by
  cases i with
  | movImm wide dst value =>
    rw [Instr.normal]
    split
    · rfl
    · split <;> rfl
  | _ => exact h

/-- An instruction that can be read has bytes. -/
theorem Instr.size_pos {i : Instr} (readable : i.IsReadable) :
  0 < i.size
  := by
  apply Nat.pos_of_ne_zero
  intro hzero
  have h := Instr.decode?_encode i readable []
  rw [List.length_eq_zero_iff.mp hzero] at h
  cases h

namespace Processor

@[simp]
theorem reg_at (p : Processor) (n : Nat) (r : Reg) :
  (p.at n).reg r = p.reg r
  := rfl

theorem writeMemory_at (env : Environment) (p : Processor) (n : Nat) (base : Reg) (off : BitVec 32)
    (v : Word) :
  (p.at n).writeMemory env base off v = (p.writeMemory env base off v).map (·.at n)
  := by
  obtain ⟨regs, flags, position, hart, memory⟩ := p
  simp only [writeMemory, Processor.at, stateOffset, reg]
  cases writeState _ _ v <;> rfl

theorem arithReg_at (p : Processor) (n : Nat) (op : Arith) (wide : Bool) (dst : Reg) (b : Word) :
  (p.at n).arithReg op wide dst b = (p.arithReg op wide dst b).at n
  := by
  unfold arithReg
  rw [reg_at]
  dsimp only
  split <;> rfl

/-- What the service at an address does to a guest. -/
def service (env : Environment) (addr a b c : Word) (g : Guest) :
    Except Crash (Hart.Reply × Guest) :=
  if addr = env.services.load then Hart.Service.load a b g
  else if addr = env.services.store then Hart.Service.store a b c g
  else if addr = env.services.arith then Hart.Service.arith a b c g
  else if addr = env.services.interpret then Hart.Service.interpret a b c g
  else .error .hostFault

theorem serve_eq (env : Environment) (p : Processor) (addr : Word) :
  p.serve env addr =
    if p.reg .rdi ≠ env.state then .error .hostFault
    else (service env addr (p.reg .rsi) (p.reg .rdx) (p.reg .rcx) p.guest).map fun r =>
      (r.1, { p with guest := r.2 })
  := by
  obtain ⟨regs, flags, position, guest⟩ := p
  simp only [serve, service]
  by_cases hstate : reg ⟨regs, flags, position, guest⟩ .rdi ≠ env.state
  · rw [if_pos hstate, if_pos hstate]
  · rw [if_neg hstate, if_neg hstate]
    split_ifs
    · cases Hart.Service.load _ _ guest <;> rfl
    · cases Hart.Service.store _ _ _ guest <;> rfl
    · cases Hart.Service.arith _ _ _ guest <;> rfl
    · cases Hart.Service.interpret _ _ _ guest <;> rfl
    · rfl

theorem serve_at (env : Environment) (p : Processor) (n : Nat) (addr : Word) :
  (p.at n).serve env addr = (p.serve env addr).map fun r => (r.1, r.2.at n)
  := by
  rw [serve_eq, serve_eq]
  by_cases hstate : p.reg .rdi = env.state
  · rw [if_neg (not_not_intro hstate), if_neg (not_not_intro (show (p.at n).reg .rdi = _ from hstate))]
    have hservice : service env addr ((p.at n).reg .rsi) ((p.at n).reg .rdx) ((p.at n).reg .rcx)
        (p.at n).guest = service env addr (p.reg .rsi) (p.reg .rdx) (p.reg .rcx) p.guest := rfl
    rw [hservice]
    cases service env addr (p.reg .rsi) (p.reg .rdx) (p.reg .rcx) p.guest <;> rfl
  · rw [if_pos hstate, if_pos (show (p.at n).reg .rdi ≠ _ from hstate)]
    rfl

theorem call_at (env : Environment) (p : Processor) (n : Nat) (addr : Word) :
  (p.at n).call env addr = (p.call env addr).map (·.at n)
  := by
  unfold call
  rw [serve_at]
  cases p.serve env addr <;> rfl

/-- What a straight instruction does does not depend on where it is. -/
theorem execute_at (env : Environment) {i : Instr} (straight : i.IsStraight) (p : Processor)
    (n : Nat) :
  execute env i (p.at n) = (execute env i p).map (·.at n)
  := by
  cases i with
  | jmp _ => cases straight
  | jcc _ _ => cases straight
  | nop _ => cases straight
  | arith op wide dst src => exact congrArg _ (arithReg_at ..)
  | arithImm op wide dst imm => exact congrArg _ (arithReg_at ..)
  | arithMem op wide base off imm =>
    simp only [execute]
    split
    · have hread : (p.at n).readMemory env base off = p.readMemory env base off := rfl
      rw [hread]
      cases p.readMemory env base off with
      | error c => rfl
      | ok v =>
        simp only [Except.ok_bind]
        split
        · exact writeMemory_at env { p with flags := _ } n base off _
        · rfl
    · rfl
  | setcc c dst =>
    have hflags : (p.at n).knownFlags = p.knownFlags := rfl
    simp only [execute, hflags]
    cases p.knownFlags <;> rfl
  | load wide dst base off =>
    have hread : (p.at n).readMemory env base off = p.readMemory env base off := rfl
    simp only [execute, hread]
    split
    · cases p.readMemory env base off <;> rfl
    · rfl
  | store wide src base off =>
    simp only [execute]
    split
    · exact writeMemory_at env p n base off _
    · rfl
  | storeImm wide base off imm =>
    simp only [execute]
    split
    · exact writeMemory_at env p n base off _
    · rfl
  | callReg r => exact call_at env p n _
  | _ => rfl

/-! ### Single steps -/

variable {env : Environment} {code : ByteArray} {p : Processor}

/-- The step of a processor at an instruction. -/
theorem step_encode {i : Instr} (readable : i.IsReadable)
    (h : Bytes.Has code p.position i.encode) :
  p.step env code = execute env i.normal (p.at (p.position + i.size))
  := by
  have hsize : i.size ≤ longest := Nat.le_trans i.size_le (by decide)
  have hslice : Bytes.slice0 code p.position longest =
      i.encode ++ Bytes.slice0 code (p.position + i.size) (longest - i.size) := by
    conv_lhs => rw [← Nat.add_sub_cancel' hsize]
    exact h.slice0_eq _
  rw [step, hslice, Instr.decode?_encode i readable]
  rfl

theorem jump_displacement {stop place : Nat} (reach : Item.Reaches (stop - jumpSize) place)
    (hstop : jumpSize ≤ stop) :
  (p.at stop).jump (displacement stop place) = p.at place
  := by
  have hint := toInt_displacement reach
  rw [Nat.sub_add_cancel hstop] at hint
  rw [jump, hint, position_at, show ((stop : Int) + (place - stop)).toNat = place by omega]
  rfl

/-! ### Runs -/

/-- A run from `p` comes to `q` after `n` steps. -/
def Leads (env : Environment) (code : ByteArray) (leave n : Nat) (p q : Processor) : Prop :=
  ∀ fuel, run env code leave (n + fuel) p = run env code leave fuel q

/-- A run from `p` crashes within `n` steps. -/
def Fails (env : Environment) (code : ByteArray) (leave n : Nat) (p : Processor) (c : Crash) :
    Prop :=
  ∀ fuel, run env code leave (n + fuel) p = .error c

namespace Leads

variable {leave : Nat} {q r : Processor} {m n : Nat}

theorem refl :
  Leads env code leave 0 p p
  := by
  intro fuel
  rw [Nat.zero_add]

theorem trans (h : Leads env code leave m p q) (h' : Leads env code leave n q r) :
  Leads env code leave (m + n) p r
  := by
  intro fuel
  rw [Nat.add_assoc, h, h']

theorem fails {c : Crash} (h : Leads env code leave m p q) (h' : Fails env code leave n q c) :
  Fails env code leave (m + n) p c
  := by
  intro fuel
  rw [Nat.add_assoc, h, h']

theorem single (away : p.position ≠ leave) (h : p.step env code = .ok q) :
  Leads env code leave 1 p q
  := by
  intro fuel
  rw [Nat.add_comm, run, if_neg away, h]

end Leads

theorem Fails.single {leave : Nat} {c : Crash} (away : p.position ≠ leave)
    (h : p.step env code = .error c) :
  Fails env code leave 1 p c
  := by
  intro fuel
  rw [Nat.add_comm, run, if_neg away, h]

end Processor

/-! ### Items -/

namespace Item

open Processor

/-- Carrying out items, one after the other. -/
def exec (env : Environment) : List Item → Processor → Except Crash Flow
  | [], p => .ok (.next p)
  | .instr i :: rest, p => do exec env rest (← execute env i.normal p)
  | .branch c t :: rest, p => do
    if c.holds (← p.knownFlags) then return .jump t p else exec env rest p
  | .place _ :: rest, p => exec env rest p
  | .exit n :: _, p => .ok (.exit n p)
  | .leave :: _, p => .ok (.leave p)

/-- Items are carried out by carrying out the first of them and going on if these are left at
their end. -/
theorem exec_append (env : Environment) (items rest : List Item) (p : Processor) :
  exec env (items ++ rest) p =
    match exec env items p with
    | .ok (.next q) => exec env rest q
    | r => r
  := by
  induction items generalizing p with
  | nil => rfl
  | cons item items ih =>
    cases item with
    | instr i =>
      rw [List.cons_append, exec, exec]
      cases execute env i.normal p with
      | error c => rfl
      | ok q => exact ih q
    | branch c t =>
      rw [List.cons_append, exec, exec]
      cases p.knownFlags with
      | error c => rfl
      | ok f =>
        simp only [Except.ok_bind]
        split
        · rfl
        · exact ih p
    | place t => exact ih p
    | exit n => rfl
    | leave => rfl

/-- An item at an offset that does what it says: an instruction goes on to the next one, a branch
leads forward, and a jump reaches its target. -/
def Ready (l : Layout) (offset : Nat) : Item → Prop
  | instr i => i.IsStraight
  | branch _ t => offset + branchSize ≤ l.target t ∧ Reaches (offset + 1) (l.target t)
  | place _ => True
  | exit n => Reaches (offset + jumpPadding offset) (l.exit n)
  | leave => Reaches offset l.leave

/-- All items that start at an offset do what they say. -/
def AllReady (l : Layout) : Nat → List Item → Prop
  | _, [] => True
  | offset, item :: rest => item.Ready l offset ∧ AllReady l (offset + item.size offset) rest

theorem AllReady.append_iff {l : Layout} {offset : Nat} {items rest : List Item} :
  AllReady l offset (items ++ rest) ↔
    AllReady l offset items ∧ AllReady l (stop offset items) rest
  := by
  induction items generalizing offset with
  | nil => simp [AllReady]
  | cons item items ih => simp [AllReady, ih, and_assoc]

variable {env : Environment} {code : ByteArray}

theorem leads_jmp {leave offset place : Nat} {p : Processor} (away : offset ≠ leave)
    (h : Bytes.Has code offset (Instr.encode (.jmp (displacement (offset + jumpSize) place))))
    (reach : Reaches offset place) :
  Leads env code leave 1 (p.at offset) (p.at place)
  := by
  apply Leads.single away
  rw [step_encode (i := .jmp _) trivial h, Instr.size_jmp]
  apply congrArg Except.ok
  exact jump_displacement reach (Nat.le_add_left _ _)

/-- The bytes in front of the jump of an exit do nothing. -/
theorem leads_padding {leave offset : Nat} (env : Environment) (p : Processor)
    (away : leave < offset) (h : Bytes.Has code offset (padding (jumpPadding offset))) :
  ∃ n ≤ jumpPadding offset,
    Leads env code leave n (p.at offset) (p.at (offset + jumpPadding offset))
  := by
  have hlt := jumpPadding_lt offset
  by_cases hzero : jumpPadding offset = 0
  · rw [hzero]
    exact ⟨0, Nat.le_refl 0, Leads.refl⟩
  · use 1, Nat.pos_of_ne_zero hzero
    apply Leads.single (Nat.ne_of_gt away)
    rw [padding_eq_nopBytes (by omega)] at h
    rw [step_encode (i := .nop _) ⟨Nat.pos_of_ne_zero hzero, by omega⟩ h]
    apply congrArg Except.ok
    simp only [Instr.size, Instr.encode]
    rw [length_nopBytes (by omega)]
    rfl

theorem step_branch (env : Environment) {offset place : Nat} {c : Cond}
    (h : Bytes.Has code offset (Instr.encode (.jcc c (displacement (offset + branchSize) place))))
    (reach : Reaches (offset + 1) place) (p : Processor) :
  (p.at offset).step env code = p.knownFlags.map fun f =>
    if c.holds f then p.at place else p.at (offset + branchSize)
  := by
  have hjump : (p.at (offset + branchSize)).jump (displacement (offset + branchSize) place) =
      p.at place := jump_displacement reach (Nat.le_add_left 5 (offset + 1))
  have hstep : (p.at offset).step env code =
      execute env (.jcc c (displacement (offset + branchSize) place)) (p.at (offset + branchSize)) := by
    rw [step_encode (i := .jcc c _) trivial h, Instr.size_jcc]
    rfl
  have hflags : (p.at (offset + branchSize)).knownFlags = p.knownFlags := rfl
  rw [hstep, execute, hflags, hjump]
  cases p.knownFlags <;> rfl

/-- A run that would end at `back` follows, from an offset on, the way in which items that end at
`stop` are left. -/
def Follows (env : Environment) (code : ByteArray) (l : Layout) (back offset stop : Nat)
    (p : Processor) : Except Crash Flow → Prop
  | .ok (.next q) => ∃ n, n + offset ≤ stop ∧ Leads env code back n p (q.at stop)
  | .ok (.jump t q) =>
    ∃ n, n + offset ≤ l.target t ∧ Leads env code back n p (q.at (l.target t))
  | .ok (.exit m q) => ∃ n, n + offset ≤ stop ∧ Leads env code back n p (q.at (l.exit m))
  | .ok (.leave q) => ∃ n, n + offset ≤ stop ∧ Leads env code back n p (q.at l.leave)
  | .error c => ∃ n, n + offset ≤ stop ∧ Fails env code back n p c

theorem Follows.after {l : Layout} {back offset offset' stop m : Nat} {p q : Processor}
    {r : Except Crash Flow} (h : Follows env code l back offset' stop q r)
    (leads : Leads env code back m p q) (le : m + offset ≤ offset') :
  Follows env code l back offset stop p r
  := by
  match r, h with
  | .ok (.next _), ⟨n, hn, h⟩ => exact ⟨m + n, by omega, leads.trans h⟩
  | .ok (.jump _ _), ⟨n, hn, h⟩ => exact ⟨m + n, by omega, leads.trans h⟩
  | .ok (.exit _ _), ⟨n, hn, h⟩ => exact ⟨m + n, by omega, leads.trans h⟩
  | .ok (.leave _), ⟨n, hn, h⟩ => exact ⟨m + n, by omega, leads.trans h⟩
  | .error _, ⟨n, hn, h⟩ => exact ⟨m + n, by omega, leads.fails h⟩

/-- Code with the image of items does what the items do. -/
theorem follows_exec {l : Layout} {back offset : Nat} {items : List Item}
    (ready : AllReady l offset items) (placed : Bytes.Has code offset (image l offset items))
    (below : back < offset) (p : Processor) :
  Follows env code l back offset (stop offset items) (p.at offset) (exec env items p)
  := by
  induction items generalizing offset p with
  | nil => exact ⟨0, Nat.le_of_eq (Nat.zero_add offset), Leads.refl⟩
  | cons item rest ih =>
    obtain ⟨hitem, hrest⟩ := Bytes.Has.append_iff.mp placed
    obtain ⟨hready, hready'⟩ := ready
    rw [length_bytes] at hrest
    have hstop := le_stop (offset + item.size offset) rest
    have hgo := ih hready' hrest (by omega)
    have away : offset ≠ back := Nat.ne_of_gt below
    cases item with
    | instr i =>
      have hpos := Instr.size_pos (Instr.IsStraight.isReadable hready)
      have hstep : (p.at offset).step env code =
          (execute env i.normal p).map (·.at (offset + i.size)) := by
        rw [step_encode (Instr.IsStraight.isReadable hready) hitem]
        exact execute_at env (Instr.IsStraight.normal hready) p _
      rw [exec]
      cases hexec : execute env i.normal p with
      | error c =>
        rw [hexec] at hstep
        simp only [stop_cons, size] at hstop ⊢
        exact ⟨1, by omega, Fails.single away hstep⟩
      | ok q =>
        rw [hexec] at hstep
        apply (hgo q).after (Leads.single away hstep)
        simp only [size]
        omega
    | branch c t =>
      have hstep := step_branch env hitem hready.2 p
      rw [exec]
      cases hflags : p.knownFlags with
      | error c =>
        rw [hflags] at hstep
        simp only [stop_cons, size, branchSize] at hstop ⊢
        exact ⟨1, by omega, Fails.single away hstep⟩
      | ok f =>
        rw [hflags] at hstep
        simp only [Except.ok_bind, Except.ok_map] at hstep ⊢
        split
        case isTrue hholds =>
          rw [if_pos hholds] at hstep
          have := hready.1
          simp only [branchSize] at this
          exact ⟨1, by omega, Leads.single away hstep⟩
        case isFalse hholds =>
          rw [if_neg hholds] at hstep
          apply (hgo p).after (Leads.single away hstep)
          simp only [size, branchSize]
          omega
    | place t => exact hgo p
    | exit n =>
      obtain ⟨hpad, hjump⟩ := Bytes.Has.append_iff.mp hitem
      rw [length_padding] at hjump
      obtain ⟨m, hm, hleads⟩ := leads_padding env p below hpad
      simp only [stop_cons, size, jumpSize] at hstop ⊢
      refine ⟨m + 1, by omega, hleads.trans ?_⟩
      apply leads_jmp (by omega) hjump hready
    | leave =>
      simp only [stop_cons, size, jumpSize] at hstop ⊢
      exact ⟨1, by omega, leads_jmp away hitem hready⟩

/-! ### Items that were assembled -/

/-- Items that can be assembled do what they say if the last of them reaches back, and the exits reach
where they lead. -/
theorem allReady_of_wellPlaced {l : Layout} {offset : Nat} {items : List Item}
    (well : WellPlaced items) (straight : ∀ i, .instr i ∈ items → i.IsStraight)
    (target : ∀ t ∈ places items, offsetOf? t offset items = some (l.target t))
    (reaches : ∀ e ∈ exitsAt offset items, Reaches e.2 (l.exit e.1)) (below : l.leave < offset)
    (near : stop offset items ≤ l.leave + 0x80000000) :
  AllReady l offset items
  := by
  induction items generalizing offset with
  | nil => trivial
  | cons item rest ih =>
    have hstop := le_stop (offset + item.size offset) rest
    have hrest : WellPlaced rest := by
      refine ⟨?_, well.forward.2⟩
      exact well.distinct.sublist ((List.sublist_cons_self item rest).filterMap _)
    have hstraight : ∀ i, .instr i ∈ rest → i.IsStraight :=
      fun i hi => straight i (List.mem_cons_of_mem _ hi)
    rw [stop_cons] at near
    cases item with
    | instr i => exact ⟨straight i List.mem_cons_self, ih hrest hstraight target reaches (by omega) near⟩
    | branch c t =>
      refine ⟨?_, ih hrest hstraight target reaches (by omega) near⟩
      have ht : t ∈ places rest := well.forward.1 t (List.mem_singleton.mpr rfl)
      have htarget : offsetOf? t (offset + branchSize) rest = some (l.target t) := target t ht
      have hle := offsetOf?_le htarget
      obtain ⟨before, after, -, heq⟩ := offsetOf?_eq_some htarget
      have hge := le_stop (offset + branchSize) before
      simp only [size, branchSize] at near hle hge heq
      refine ⟨by simp only [branchSize]; omega, decide_eq_true ?_⟩
      simp only [jumpSize]
      omega
    | place t =>
      refine ⟨trivial, ih hrest hstraight ?_ reaches (by omega) near⟩
      intro t' ht'
      have hne : t ≠ t' := by
        rintro rfl
        exact (List.nodup_cons.mp well.distinct).1 ht'
      have h := target t' (List.mem_cons_of_mem _ ht')
      rw [offsetOf?, if_neg hne] at h
      exact h
    | exit n =>
      refine ⟨reaches _ List.mem_cons_self, ih hrest hstraight target ?_ (by omega) near⟩
      intro e he
      exact reaches e (List.mem_cons_of_mem _ he)
    | leave =>
      refine ⟨?_, ih hrest hstraight target reaches (by omega) near⟩
      simp only [size, jumpSize] at hstop near
      apply decide_eq_true
      simp only [jumpSize]
      omega

theorem offsetOf?_place {t : Target} {before after : List Item} (offset : Nat)
    (distinct : (places (before ++ .place t :: after)).Nodup) :
  offsetOf? t offset (before ++ .place t :: after) = some (stop offset before)
  := by
  induction before generalizing offset with
  | nil => exact if_pos rfl
  | cons item rest ih =>
    cases item with
    | place t' =>
      obtain ⟨hnot, hdistinct⟩ := List.nodup_cons.mp distinct
      have hne : t' ≠ t := by
        rintro rfl
        exact hnot (by simp)
      rw [List.cons_append, offsetOf?, if_neg hne]
      exact ih offset hdistinct
    | _ => exact ih _ distinct

/-- A run goes on at a target with the items behind it. -/
theorem follows_target {l : Layout} {back offset : Nat} {before after : List Item} {t : Target}
    (ready : AllReady l offset (before ++ .place t :: after))
    (placed : Bytes.Has code offset (image l offset (before ++ .place t :: after)))
    (target : l.target t = stop offset before) (below : back < offset) (p : Processor) :
  Follows env code l back (l.target t) (stop offset (before ++ .place t :: after)) (p.at (l.target t))
    (exec env after p)
  := by
  have hle := le_stop offset before
  rw [image_append, Bytes.Has.append_iff, add_length_image] at placed
  rw [stop_append, target]
  exact follows_exec (AllReady.append_iff.mp ready).2 placed.2 (by omega) p

/-- How items are left if they go on at the target of a jump among them. -/
def Walks (env : Environment) (items : List Item) (p : Processor) (r : Except Crash Flow) : Prop :=
  exec env items p = r ∨ ∃ t q before after,
    exec env items p = .ok (.jump t q) ∧ items = before ++ .place t :: after ∧ exec env after q = r

theorem Walks.append {items rest : List Item} {p q : Processor} {r : Except Crash Flow}
    (h : Walks env rest q r) (next : exec env items p = .ok (.next q)) :
  Walks env (items ++ rest) p r
  := by
  have hexec : exec env (items ++ rest) p = exec env rest q := by
    rw [exec_append, next]
  obtain h | ⟨t, q', before, after, hjump, rfl, h⟩ := h
  · exact .inl (hexec.trans h)
  · exact .inr ⟨t, q', items ++ before, after, hexec.trans hjump, (List.append_assoc ..).symm, h⟩

/-- Code with the image of items does what the items do, with jumps among them followed. -/
theorem follows_walks {l : Layout} {back offset : Nat} {items : List Item} {p : Processor}
    {r : Except Crash Flow} (h : Walks env items p r) (ready : AllReady l offset items)
    (placed : Bytes.Has code offset (image l offset items))
    (target : ∀ t ∈ places items, offsetOf? t offset items = some (l.target t))
    (distinct : (places items).Nodup) (below : back < offset) :
  Follows env code l back offset (stop offset items) (p.at offset) r
  := by
  have hfirst : Follows env code l back offset (stop offset items) (p.at offset) (exec env items p) :=
    follows_exec ready placed below p
  obtain h | ⟨t, q, before, after, hjump, rfl, h⟩ := h
  · rw [h] at hfirst
    exact hfirst
  · rw [hjump] at hfirst
    obtain ⟨n, hn, hleads⟩ := hfirst
    have htarget : l.target t = stop offset before := by
      have h := target t (by simp [places])
      rw [offsetOf?_place offset distinct] at h
      exact (Option.some.inj h).symm
    rw [← h]
    exact (follows_target ready placed htarget below q).after hleads hn

end Item

end CrossHart.Host
