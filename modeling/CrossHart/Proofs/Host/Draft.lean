import CrossHart.Host.Lower
import CrossHart.Proofs.Host.Flow
import Mathlib.Data.List.Nodup

/-!
# Drafts

What compiling leaves in a draft, whatever the block: exits and ways out are numbered in order,
jumps lead forward, and the code takes no more bytes than are reserved for it.  A draft that is
all this is `Tidy`, and each step of compiling keeps it so at a known cost.
-/

namespace CrossHart.Host

namespace Compile

variable {α β : Type}

/-- What a step of compiling does to a draft. -/
def on (c : Compile α) (d : Draft) : Except Crash α × Draft :=
  c.run.run d

@[simp]
theorem on_pure (a : α) (d : Draft) :
  (pure a : Compile α).on d = (.ok a, d)
  := rfl

/-- A step followed by another one does what the second does to the draft of the first. -/
theorem on_bind (c : Compile α) (f : α → Compile β) (d : Draft) :
  (c >>= f).on d =
    match c.on d with
    | (.ok a, d') => (f a).on d'
    | (.error e, d') => (.error e, d')
  := by
  simp only [on, ExceptT.run, StateT.run, bind, ExceptT.bind, ExceptT.mk, StateT.bind]
  cases c d with
  | mk r d' => cases r <;> rfl

theorem on_bind_ok {c : Compile α} {d d' : Draft} {a : α} (h : c.on d = (.ok a, d'))
    (f : α → Compile β) :
  (c >>= f).on d = (f a).on d'
  := by
  rw [on_bind, h]

end Compile

namespace Draft

/-- The draft with items behind those it has. -/
def push (d : Draft) (items : List Item) : Draft :=
  { d with items := items.reverse ++ d.items }

@[simp]
theorem push_nil (d : Draft) :
  d.push [] = d
  := rfl

@[simp]
theorem push_push (d : Draft) (items items' : List Item) :
  (d.push items).push items' = d.push (items ++ items')
  := by
  simp [push]

@[simp]
theorem code_push (d : Draft) (items : List Item) :
  (d.push items).code = d.code ++ items
  := by
  simp [push, code]

/-- The draft with another assignment. -/
def assigned (d : Draft) (assignment : Assignment) : Draft :=
  { d with assignment }

/-- The draft with items behind those it has, and with exits to addresses among them. -/
def addExits (d : Draft) (items : List Item) (targets : List Word) : Draft where
  assignment := d.assignment
  items := items.reverse ++ d.items
  faultCount := d.faultCount
  faults := d.faults
  exitCount := d.exitCount + targets.length
  exits := targets.reverse ++ d.exits

/-- The draft with items behind those it has, and with a way out among them. -/
def addFault (d : Draft) (items : List Item) (f : FaultExit) : Draft where
  assignment := d.assignment
  items := items.reverse ++ d.items
  faultCount := d.faultCount + 1
  faults := f :: d.faults
  exitCount := d.exitCount
  exits := d.exits

@[simp]
theorem code_assigned (d : Draft) (a : Assignment) :
  (d.assigned a).code = d.code
  := rfl

end Draft

namespace Compile

/-! ### Steps without choices -/

@[simp]
theorem on_item (i : Item) (d : Draft) :
  (item i).on d = (.ok (), d.push [i])
  := rfl

@[simp]
theorem on_instr (i : Instr) (d : Draft) :
  (instr i).on d = (.ok (), d.push [.instr i])
  := rfl

@[simp]
theorem on_instrs (is : List Instr) (d : Draft) :
  (instrs is).on d = (.ok (), d.push (is.map .instr))
  := by
  induction is generalizing d with
  | nil => rfl
  | cons i is ih =>
    have hcons : instrs (i :: is) = instr i >>= fun _ => instrs is := rfl
    rw [hcons, on_bind_ok (on_instr i d), ih]
    simp

theorem on_sync (d : Draft) :
  sync.on d = (.ok (), (d.assigned d.assignment.sync.2).push (d.assignment.sync.1.map .instr))
  := on_instrs d.assignment.sync.1 (d.assigned d.assignment.sync.2)

theorem on_assign (f : Assignment → Except Crash (Reg × List Instr × Assignment)) (d : Draft) :
  (assign f).on d =
    match f d.assignment with
    | .ok (r, code, a) => (.ok r, (d.assigned a).push (code.map .instr))
    | .error e => (.error e, d)
  := by
  unfold assign
  cases h : f d.assignment with
  | error e =>
    have hget : (ofExcept (f d.assignment)).on d = (.error e, d) := by rw [h]; rfl
    show (ofExcept (f d.assignment) >>= _).on d = _
    rw [on_bind, hget]
  | ok r =>
    obtain ⟨r, code, a⟩ := r
    have hget : (ofExcept (f d.assignment)).on d = (.ok (r, code, a), d) := by rw [h]; rfl
    show (ofExcept (f d.assignment) >>= _).on d = _
    rw [on_bind_ok hget]
    show (instrs code >>= fun _ => pure r).on (d.assigned a) = _
    rw [on_bind_ok (on_instrs _ _)]
    rfl

/-- The code that sets the program counter to a constant. -/
def pcCode (pc : Word) : List Instr :=
  if pc.toNat < 0x80000000 then [.storeImm true stateReg pcOffset (pc.setWidth 32)]
  else [.movImm true .rax pc, .store true .rax stateReg pcOffset]

@[simp]
theorem on_setPc (pc : Word) (d : Draft) :
  (setPc pc).on d = (.ok (), d.push ((pcCode pc).map .instr))
  := by
  unfold setPc pcCode
  split <;> rfl

/-- The items that leave compiled code for a reason. -/
def leaveItems (r : ExitReason) : List Item :=
  [.instr (.movImm false .rax (BitVec.ofNat 64 r.code)), .leave]

@[simp]
theorem on_leave (r : ExitReason) (d : Draft) :
  (leave r).on d = (.ok (), d.push (leaveItems r))
  := rfl

theorem on_exitTo (pc : Word) (d : Draft) :
  (exitTo pc).on d =
    (.ok (), d.addExits [.exit d.exitCount] [pc])
  := rfl

theorem on_get_bind (f : Draft → Compile α) (d : Draft) :
  (get >>= f).on d = (f d).on d
  := rfl

theorem on_ofExcept_bind {x : Except Crash α} {v : α} (h : x = .ok v) (f : α → Compile β)
    (d : Draft) :
  (ofExcept x >>= f).on d = (f v).on d
  := by
  rw [h]
  rfl

theorem on_assigned_bind (a : Assignment) (f : Unit → Compile α) (d : Draft) :
  (modify (fun d => { d with assignment := a }) >>= f).on d = (f ()).on (d.assigned a)
  := rfl

theorem on_checkFault (pc : Word) (n : Nat) (d : Draft) :
  (checkFault pc (.ok n)).on d =
    (.ok (), d.addFault [.instr (.test true .rdx .rdx), .branch .jne (.fault d.faultCount)] ⟨pc, n⟩)
  := rfl

end Compile

/-! ### Costs -/

namespace Item

/-- A bound for the number of bytes of an item. -/
def cost : Item → Nat
  | instr i => i.maxSize
  | branch .. => 6
  | place _ => 0
  | exit _ => 8
  | leave => 5

/-- A bound for the number of bytes of items. -/
def costs (items : List Item) : Nat :=
  (items.map cost).sum

theorem size_le_cost (offset : Nat) (item : Item) :
  item.size offset ≤ item.cost
  := by
  cases item with
  | instr i => exact i.size_le_maxSize
  | exit n =>
    have := jumpPadding_lt offset
    simp only [size, cost, jumpSize]
    omega
  | _ => exact Nat.le_refl _

theorem stop_le_costs (offset : Nat) (items : List Item) :
  stop offset items ≤ offset + costs items
  := by
  induction items generalizing offset with
  | nil => apply Nat.le_refl
  | cons item rest ih =>
    have hitem := size_le_cost offset item
    have hrest := ih (offset + item.size offset)
    simp only [stop_cons, costs, List.map_cons, List.sum_cons] at hrest ⊢
    omega

@[simp]
theorem costs_append (items rest : List Item) :
  costs (items ++ rest) = costs items + costs rest
  := by
  simp [costs]

@[simp]
theorem costs_reverse (items : List Item) :
  costs items.reverse = costs items
  := by
  simp [costs]

/-! ### Jumps forward -/

/-- Every jump leads forward or to a target that is still to come. -/
def ForwardTo (T : Target → Prop) : List Item → Prop
  | [] => True
  | item :: rest => (∀ t ∈ mentions [item], t ∈ places rest ∨ T t) ∧ ForwardTo T rest

theorem places_append (items rest : List Item) :
  places (items ++ rest) = places items ++ places rest
  := List.filterMap_append

theorem exitNumbers_append (items rest : List Item) :
  exitNumbers (items ++ rest) = exitNumbers items ++ exitNumbers rest
  := List.filterMap_append

theorem places_map_instr (is : List Instr) :
  places (is.map .instr) = []
  := by
  induction is with
  | nil => rfl
  | cons i is ih => exact ih

theorem exitNumbers_map_instr (is : List Instr) :
  exitNumbers (is.map .instr) = []
  := by
  induction is with
  | nil => rfl
  | cons i is ih => exact ih

theorem forward_of_mentions {items : List Item} (h : mentions items = []) :
  Forward items
  := by
  induction items with
  | nil => trivial
  | cons item rest ih =>
    rw [mentions, ← List.singleton_append, List.filterMap_append, List.append_eq_nil_iff] at h
    refine ⟨fun t ht => ?_, ih h.2⟩
    rw [mentions, h.1] at ht
    cases ht

namespace ForwardTo

variable {T T' : Target → Prop} {items rest : List Item}

theorem append (h : ForwardTo T items) (hrest : ForwardTo T rest) :
  ForwardTo T (items ++ rest)
  := by
  induction items with
  | nil => exact hrest
  | cons item items ih =>
    rw [List.cons_append]
    refine ⟨fun t ht => ?_, ih h.2⟩
    rw [places_append, List.mem_append]
    exact (h.1 t ht).imp_left .inl

theorem mono (h : ForwardTo T items) (himp : ∀ t, T t → T' t) :
  ForwardTo T' items
  := by
  induction items with
  | nil => trivial
  | cons item items ih => exact ⟨fun t ht => (h.1 t ht).imp_right (himp t), ih h.2⟩

theorem map_instr (is : List Instr) :
  ForwardTo T (is.map .instr)
  := by
  induction is with
  | nil => trivial
  | cons i is ih => exact ⟨fun t ht => (nomatch ht), ih⟩

/-- Targets that are still to come have come with the rest. -/
theorem forward (h : ForwardTo T items) (hrest : Forward rest) (hT : ∀ t, T t → t ∈ places rest) :
  Forward (items ++ rest)
  := by
  induction items with
  | nil => exact hrest
  | cons item items ih =>
    rw [List.cons_append]
    refine ⟨fun t ht => ?_, ih h.2⟩
    rw [places_append, List.mem_append]
    exact (h.1 t ht).imp_right (hT t)

end ForwardTo

end Item

namespace Draft

open Item

/-- The targets to which a draft may jump before it has them. -/
def Open (d : Draft) (t : Target) : Prop :=
  t = .budget ∨ (∃ n < d.faultCount, t = .fault n) ∨ ∃ n < d.exitCount, t = .stub n

/-- Exits and ways out are numbered in order, jumps lead forward, and instructions go on to the
next one. -/
structure Tidy (d : Draft) : Prop where
  straight : ∀ i, .instr i ∈ d.items → i.IsStraight
  numbers : exitNumbers d.code = List.range d.exitCount
  targets : d.exits.length = d.exitCount
  faults : d.faults.length = d.faultCount
  places : ∀ t ∈ places d.code, ∃ n < d.exitCount, t = .taken n
  distinct : (Item.places d.code).Nodup
  forward : ForwardTo d.Open d.code

/-- A bound for the bytes of a draft's code and of the ways out that it will need. -/
def weight (d : Draft) : Nat :=
  costs d.items + 39 * d.faultCount + 28 * d.exitCount

theorem weight_push (d : Draft) (items : List Item) :
  (d.push items).weight = d.weight + costs items
  := by
  simp only [weight, push, costs_append, costs_reverse]
  omega

theorem weight_addExits (d : Draft) (items : List Item) (targets : List Word) :
  (d.addExits items targets).weight = d.weight + (costs items + 28 * targets.length)
  := by
  simp only [weight, addExits, costs_append, costs_reverse]
  omega

theorem weight_addFault (d : Draft) (items : List Item) (f : FaultExit) :
  (d.addFault items f).weight = d.weight + (costs items + 39)
  := by
  simp only [weight, addFault, costs_append, costs_reverse]
  omega

variable {d : Draft}

theorem Tidy.assigned (h : d.Tidy) (a : Assignment) :
  (d.assigned a).Tidy
  := ⟨h.straight, h.numbers, h.targets, h.faults, h.places, h.distinct, h.forward⟩

theorem Open.mono {d' : Draft} (exits : d.exitCount ≤ d'.exitCount)
    (faults : d.faultCount ≤ d'.faultCount) (t : Target) (h : d.Open t) :
  d'.Open t
  := by
  obtain h | ⟨n, hn, h⟩ | ⟨n, hn, h⟩ := h
  · exact .inl h
  · exact .inr (.inl ⟨n, by omega, h⟩)
  · exact .inr (.inr ⟨n, by omega, h⟩)

/-- A tidy draft with more items, exits and ways out is tidy if what was added is. -/
theorem Tidy.extend (h : d.Tidy) (d' : Draft) (items : List Item) (k : Nat)
    (code : d'.items = items.reverse ++ d.items) (straight : ∀ i, .instr i ∈ items → i.IsStraight)
    (exitCount : d'.exitCount = d.exitCount + k) (targets : d'.exits.length = d'.exitCount)
    (faultCount : d.faultCount ≤ d'.faultCount) (faults : d'.faults.length = d'.faultCount)
    (numbers : exitNumbers items = (List.range k).map (d.exitCount + ·))
    (places : ∀ t ∈ Item.places items, ∃ n, d.exitCount ≤ n ∧ n < d'.exitCount ∧ t = .taken n)
    (distinct : (Item.places items).Nodup) (forward : ForwardTo d'.Open items) :
  d'.Tidy
  := by
  have hcode : d'.code = d.code ++ items := by simp [Draft.code, code]
  refine ⟨?_, ?_, targets, faults, ?_, ?_, ?_⟩
  · intro i hi
    rw [code, List.mem_append, List.mem_reverse] at hi
    exact hi.elim (straight i) (h.straight i)
  · rw [hcode, exitNumbers_append, h.numbers, numbers, exitCount, List.range_add]
  · intro t ht
    rw [hcode, places_append, List.mem_append] at ht
    obtain ht | ht := ht
    · obtain ⟨n, hn, rfl⟩ := h.places t ht
      exact ⟨n, by omega, rfl⟩
    · obtain ⟨n, -, hn, rfl⟩ := places t ht
      exact ⟨n, hn, rfl⟩
  · rw [hcode, places_append]
    apply List.nodup_append.mpr
    refine ⟨h.distinct, distinct, ?_⟩
    rintro t ht _ ht' rfl
    obtain ⟨n, hn, rfl⟩ := h.places t ht
    obtain ⟨m, hm, -, heq⟩ := places _ ht'
    have := Target.taken.inj heq
    omega
  · rw [hcode]
    exact (h.forward.mono (Open.mono (by omega) faultCount)).append forward

theorem Tidy.instrs (h : d.Tidy) (is : List Instr) (straight : ∀ i ∈ is, i.IsStraight) :
  (d.push (is.map .instr)).Tidy
  := by
  refine h.extend _ (is.map .instr) 0 rfl ?_ rfl h.targets (Nat.le_refl _) h.faults ?_ ?_ ?_ ?_
  · intro i hi
    simp only [List.mem_map, Item.instr.injEq] at hi
    obtain ⟨j, hj, rfl⟩ := hi
    exact straight j hj
  · rw [exitNumbers_map_instr]
    rfl
  · simp [places_map_instr]
  · simp [places_map_instr]
  · exact .map_instr is

/-- A draft with a new exit. -/
theorem Tidy.exit (h : d.Tidy) (pc : Word) :
  (d.addExits [.exit d.exitCount] [pc]).Tidy
  := by
  refine h.extend _ [.exit d.exitCount] 1 rfl (by simp) rfl ?_ (Nat.le_refl _) h.faults rfl ?_ ?_ ?_
  · simp [addExits, h.targets]
  · simp [Item.places]
  · simp [Item.places]
  · refine ⟨fun t ht => .inr ?_, trivial⟩
    rw [List.mem_singleton.mp ht]
    exact .inr (.inr ⟨d.exitCount, Nat.lt_succ_self _, rfl⟩)

theorem tidy_empty :
  Tidy {}
  := ⟨fun _ h => (nomatch h), rfl, rfl, rfl, fun _ h => (nomatch h), List.nodup_nil, trivial⟩

/-- A draft with a new way out after a service call. -/
theorem Tidy.checkFault (h : d.Tidy) (f : FaultExit) :
  (d.addFault [.instr (.test true .rdx .rdx), .branch .jne (.fault d.faultCount)] f).Tidy
  := by
  refine h.extend _ [.instr (.test true .rdx .rdx), .branch .jne (.fault d.faultCount)] 0 rfl ?_ rfl
    h.targets (Nat.le_succ _) ?_ rfl ?_ ?_ ?_
  · simp [Instr.IsStraight]
  · simp [addFault, h.faults]
  · simp [Item.places]
  · simp [Item.places]
  · refine ⟨fun t ht => absurd ht List.not_mem_nil, fun t ht => .inr ?_, trivial⟩
    rw [List.mem_singleton.mp ht]
    exact .inr (.inl ⟨d.faultCount, Nat.lt_succ_self _, rfl⟩)

/-- The items of a branch with its two exits, the first of which has a number. -/
def branchItems (c : Cond) (n : Nat) : List Item :=
  [.branch c (.taken (n + 1)), .exit n, .place (.taken (n + 1)), .exit (n + 1)]

/-- A draft with the two exits of a branch. -/
theorem Tidy.branch (h : d.Tidy) (c : Cond) (next taken : Word) :
  (d.addExits (branchItems c d.exitCount) [next, taken]).Tidy
  := by
  have hplaces : Item.places (branchItems c d.exitCount) = [.taken (d.exitCount + 1)] := rfl
  refine h.extend _ (branchItems c d.exitCount) 2 rfl (by simp [branchItems]) rfl ?_ (Nat.le_refl _)
    h.faults rfl ?_ ?_ ?_
  · simp [addExits, h.targets]
  · rw [hplaces]
    intro t ht
    exact ⟨d.exitCount + 1, Nat.le_succ _, Nat.lt_succ_self _, List.mem_singleton.mp ht⟩
  · simp [hplaces]
  · refine ⟨?_, ?_, fun t ht => (nomatch ht), ?_, trivial⟩
    · intro t ht
      rw [List.mem_singleton.mp ht]
      exact .inl (List.mem_singleton.mpr rfl)
    · intro t ht
      rw [List.mem_singleton.mp ht]
      exact .inr (.inr (.inr ⟨d.exitCount, Nat.lt_add_of_pos_right (Nat.zero_lt_succ 1), rfl⟩))
    · intro t ht
      rw [List.mem_singleton.mp ht]
      exact .inr (.inr (.inr ⟨d.exitCount + 1, Nat.lt_succ_self _, rfl⟩))

end Draft

/-! ### Steps of compiling -/

namespace Compile

open Item Draft

variable {α β : Type} {m n : Nat}

/-- The two exits of a branch. -/
def branchExits (c : Cond) (next taken : Word) : Compile Unit := do
  let n := (← get).exitCount + 1
  item (.branch c (.taken n))
  exitTo next
  item (.place (.taken n))
  exitTo taken

theorem on_branchExits (c : Cond) (next taken : Word) (d : Draft) :
  (branchExits c next taken).on d =
    (.ok (), d.addExits (branchItems c d.exitCount) [next, taken])
  := rfl

open Isa in
/-- The code of arithmetic operations, by the form it has. -/
inductive ArithCode (s : Services) (op : AluOp) (rs1 : Nat) (b : Source) (low : Bool) :
    Compile Unit → Prop
  | compare (h : op = .slt ∨ op = .sltu) : ArithCode s op rs1 b low (compare op rs1 b)
  /-- The service for arithmetic. -/
  | service (rs2 : Nat) (h : b = .reg rs2) :
    ArithCode s op rs1 b low do
      readInto rs1 .rdx
      readInto rs2 .rcx
      instr (.movImm false .rsi (BitVec.ofNat 64 (op.code + if low then 256 else 0)))
      call s.arith
  | imm (v : Word) (h : b = .imm v ∧ (op = .add ∨ op = .xor ∨ op = .or ∨ op = .and)) :
    ArithCode s op rs1 b low do
      readInto rs1 .rax
      if v ≠ 0 ∨ op = .and then instr (.arithImm (arithOp op) (!low) .rax (v.setWidth 32))
      extendIf low
  | shiftImm (v : Word) (h : b = .imm v ∧ (op = .sll ∨ op = .srl ∨ op = .sra)) :
    ArithCode s op rs1 b low do
      readInto rs1 .rax
      let amount := v.toNat % if low then 32 else 64
      if amount ≠ 0 then instr (.shift (shiftOp op) (!low) .rax (BitVec.ofNat 8 amount))
      extendIf low
  | shift (rs2 : Nat) (h : b = .reg rs2 ∧ (op = .sll ∨ op = .srl ∨ op = .sra)) :
    ArithCode s op rs1 b low do
      readInto rs1 .rax
      readInto rs2 .rcx
      instr (.shiftCl (shiftOp op) (!low) .rax)
      extendIf low
  | two (rs2 : Nat)
      (h : b = .reg rs2 ∧ (op = .add ∨ op = .sub ∨ op = .xor ∨ op = .or ∨ op = .and)) :
    ArithCode s op rs1 b low do
      readInto rs1 .rax
      let r ← read rs2 .rcx
      instr (.arith (arithOp op) (!low) .rax r)
      extendIf low
  | product (rs2 : Nat) (h : b = .reg rs2 ∧ op = .mul) :
    ArithCode s op rs1 b low do
      readInto rs1 .rax
      let r ← read rs2 .rcx
      instr (.imulLow (!low) .rax r)
      extendIf low
  | upper (rs2 : Nat) (signed : Bool) (h : b = .reg rs2 ∧ op = if signed then .mulh else .mulhu)
      (hlow : low = false) :
    ArithCode s op rs1 b low do
      readInto rs1 .rax
      let r ← read rs2 .rcx
      instr (if signed then .imul true r else .mul true r)
      instr (.mov true .rax .rdx)

/-- Arithmetic code has one of these forms. -/
theorem arithCode_of_eq {s : Services} {op : Isa.AluOp} {rs1 : Nat} {b : Source} {low : Bool}
    {code : Compile Unit} (h : arithCode? s op rs1 b low = some code) :
  ArithCode s op rs1 b low code
  := by
  cases b with
  | imm v =>
    cases op with
    | slt | sltu => cases h; exact .compare (by simp)
    | add | xor | or | and => cases h; exact .imm v (by simp)
    | sll | srl | sra => cases h; exact .shiftImm v (by simp)
    | _ => cases h
  | reg rs2 =>
    cases op with
    | slt | sltu => cases h; exact .compare (by simp)
    | mulhsu | div | divu | rem | remu => cases h; exact .service rs2 rfl
    | sll | srl | sra => cases h; exact .shift rs2 (by simp)
    | add | sub | xor | or | and => cases h; exact .two rs2 (by simp)
    | mul => cases h; exact .product rs2 (by simp)
    | mulh =>
      cases low
      · cases h; exact .upper rs2 true (by simp) rfl
      · cases h
    | mulhu =>
      cases low
      · cases h; exact .upper rs2 false (by simp) rfl
      · cases h

/-- A step keeps drafts tidy and adds at most `n` to their weight. -/
def Grows (n : Nat) (c : Compile α) : Prop :=
  ∀ d : Draft, d.Tidy → (c.on d).2.Tidy ∧ (c.on d).2.weight ≤ d.weight + n

namespace Grows

theorem mono {c : Compile α} (h : Grows m c) (le : m ≤ n) :
  Grows n c
  := by
  intro d hd
  obtain ⟨htidy, hweight⟩ := h d hd
  exact ⟨htidy, by omega⟩

theorem pure (a : α) :
  Grows n (Pure.pure a : Compile α)
  := fun _ hd => ⟨hd, Nat.le_add_right _ _⟩

theorem bind {c : Compile α} {f : α → Compile β} (h : Grows m c) (hf : ∀ a, Grows n (f a)) :
  Grows (m + n) (c >>= f)
  := by
  intro d hd
  obtain ⟨htidy, hweight⟩ := h d hd
  rw [on_bind]
  rcases hr : c.on d with ⟨r, d'⟩
  rw [hr] at htidy hweight
  cases r with
  | error e => exact ⟨htidy, by dsimp only at hweight ⊢; omega⟩
  | ok a =>
    obtain ⟨htidy', hweight'⟩ := hf a d' htidy
    exact ⟨htidy', by dsimp only at hweight hweight' ⊢; omega⟩

theorem instr {i : Instr} (straight : i.IsStraight) :
  Grows i.maxSize (instr i)
  := by
  intro d hd
  rw [on_instr]
  constructor
  · exact hd.instrs [i] (by simpa using straight)
  · rw [weight_push]
    exact Nat.le_refl _

/-- Instructions on the registers of the guest in memory. -/
def IsTransfer : Instr → Prop
  | .load _ _ base _ | .store _ _ base _ => base = stateReg
  | _ => False

theorem transfers {is : List Instr} (h : ∀ i ∈ is, IsTransfer i) :
  (∀ i ∈ is, i.IsStraight) ∧ costs (is.map .instr) ≤ 7 * is.length
  := by
  have hone : ∀ i, IsTransfer i → i.IsStraight ∧ i.maxSize = 7 := by
    intro i hi
    cases i with
    | load => cases hi; exact ⟨rfl, rfl⟩
    | store => cases hi; exact ⟨rfl, rfl⟩
    | _ => cases hi
  refine ⟨fun i hi => (hone i (h i hi)).1, ?_⟩
  induction is with
  | nil => exact Nat.le_refl 0
  | cons i is ih =>
    have hi := (hone i (h i List.mem_cons_self)).2
    have hrest := ih fun j hj => h j (List.mem_cons_of_mem i hj)
    simp only [costs, List.map_cons, List.sum_cons, cost, hi, List.length_cons] at hrest ⊢
    omega

/-- Taking on an assignment with instructions that move guest registers. -/
theorem assigned {d : Draft} (hd : d.Tidy) (a : Assignment) {is : List Instr}
    (h : ∀ i ∈ is, IsTransfer i) :
  ((d.assigned a).push (is.map .instr)).Tidy ∧
    ((d.assigned a).push (is.map .instr)).weight ≤ d.weight + 7 * is.length
  := by
  obtain ⟨hstraight, hcost⟩ := transfers h
  refine ⟨(hd.assigned a).instrs _ hstraight, ?_⟩
  rw [weight_push]
  exact Nat.add_le_add_left hcost _

theorem sync :
  Grows 35 sync
  := by
  intro d hd
  rw [on_sync]
  have htransfer : ∀ i ∈ d.assignment.sync.1, IsTransfer i := by
    intro i hi
    obtain ⟨s, -, hs⟩ := List.mem_filterMap.mp hi
    split at hs
    · split at hs
      · cases hs
        rfl
      · cases hs
    · cases hs
  have hlength : d.assignment.sync.1.length ≤ 5 := List.length_filterMap_le _ _
  obtain ⟨htidy, hweight⟩ := assigned hd d.assignment.sync.2 htransfer
  exact ⟨htidy, by dsimp only; omega⟩

theorem assign {f : Assignment → Except Crash (Reg × List Instr × Assignment)}
    (h : ∀ a r code b, f a = .ok (r, code, b) → (∀ i ∈ code, IsTransfer i) ∧ code.length ≤ n) :
  Grows (7 * n) (assign f)
  := by
  intro d hd
  rw [on_assign]
  cases hf : f d.assignment with
  | error e => exact ⟨hd, Nat.le_add_right _ _⟩
  | ok r =>
    obtain ⟨r, code, b⟩ := r
    obtain ⟨htransfer, hlength⟩ := h _ _ _ _ hf
    obtain ⟨htidy, hweight⟩ := assigned hd b htransfer
    exact ⟨htidy, by dsimp only; omega⟩

theorem transfer_spill (a : Assignment) (s : Fin slotCount) :
  (∀ i ∈ (a.spill s).1, IsTransfer i) ∧ (a.spill s).1.length ≤ 1
  := by
  unfold Assignment.spill
  dsimp only
  split
  · simp
  · split
    · simp [Assignment.writeBack, IsTransfer]
    · simp

theorem transfer_allocate {a b : Assignment} {guest : Nat} {s : Fin slotCount} {code : List Instr}
    (h : a.allocate guest = .ok (s, code, b)) :
  (∀ i ∈ code, IsTransfer i) ∧ code.length ≤ 1
  := by
  unfold Assignment.allocate at h
  dsimp only at h
  split at h
  · cases h
    simp
  · split at h
    · cases h
      exact transfer_spill a _
    · cases h

theorem use (guest : Nat) :
  Grows 14 (Compile.assign (·.use guest))
  := by
  apply assign (n := 2)
  intro a r code b h
  unfold Assignment.use at h
  split at h
  · cases h
  obtain ⟨home, -, h⟩ := Except.bind_eq_ok.mp h
  split at h
  · cases h
    simp
  · obtain ⟨⟨s, code', c⟩, halloc, h⟩ := Except.bind_eq_ok.mp h
    obtain ⟨htransfer, hlength⟩ := transfer_allocate halloc
    cases h
    constructor
    · intro i hi
      obtain hi | hi := List.mem_append.mp hi
      · exact htransfer i hi
      · rw [List.mem_singleton.mp hi]
        rfl
    · simpa using hlength

theorem define (guest : Nat) :
  Grows 7 (Compile.assign (·.define guest))
  := by
  apply assign (n := 1)
  intro a r code b h
  unfold Assignment.define at h
  split at h
  · cases h
  obtain ⟨home, -, h⟩ := Except.bind_eq_ok.mp h
  dsimp only at h
  split at h
  · cases h
    simp
  · obtain ⟨⟨s, code', c⟩, halloc, h⟩ := Except.bind_eq_ok.mp h
    cases h
    exact transfer_allocate halloc

theorem read (guest : Nat) (scratch : Reg) :
  Grows 14 (read guest scratch)
  := by
  unfold Compile.read
  split
  · exact ((instr rfl).bind fun _ => pure (n := 8) _)
  · exact use guest

theorem readInto (guest : Nat) (dst : Reg) :
  Grows 17 (readInto guest dst)
  := by
  apply (read guest dst).bind (n := 3)
  intro r
  split
  · exact instr rfl
  · exact pure _

theorem writeFrom (guest : Nat) (src : Reg) :
  Grows 10 (writeFrom guest src)
  := by
  unfold Compile.writeFrom
  split
  · exact pure _
  · apply (define guest).bind (n := 3)
    intro r
    split
    · exact instr rfl
    · exact pure _

theorem writeImm (guest : Nat) (v : Word) :
  Grows 17 (writeImm guest v)
  := by
  unfold Compile.writeImm
  split
  · exact pure _
  · exact (define guest).bind fun r => instr (i := .movImm true r v) rfl

theorem addressIn (dst : Reg) (guest : Nat) (imm : Word) :
  Grows 24 (addressIn dst guest imm)
  := by
  apply (readInto guest dst).bind (n := 7)
  intro _
  split
  · exact instr rfl
  · exact pure _

theorem setPc (pc : Word) :
  Grows 17 (setPc pc)
  := by
  unfold Compile.setPc
  split
  · exact (instr (i := .storeImm ..) rfl).mono (Nat.le_add_right 11 6)
  · exact (instr (i := .movImm ..) rfl).bind fun _ => instr (i := .store ..) rfl

theorem leave (r : ExitReason) :
  Grows 11 (leave r)
  := by
  intro d hd
  rw [on_leave]
  constructor
  · refine hd.extend _ (leaveItems r) 0 rfl ?_ rfl hd.targets (Nat.le_refl _) hd.faults rfl ?_ ?_ ?_
    · simp [leaveItems, Instr.IsStraight]
    · simp [leaveItems, Item.places]
    · simp [leaveItems, Item.places]
    · exact ⟨fun t ht => absurd ht List.not_mem_nil, fun t ht => absurd ht List.not_mem_nil, trivial⟩
  · rw [weight_push]
    exact Nat.le_refl _

theorem leaveAt (pc : Word) (r : ExitReason) :
  Grows 63 (leaveAt pc r)
  := sync.bind fun _ => (setPc pc).bind fun _ => leave r

theorem exitTo (pc : Word) :
  Grows 36 (exitTo pc)
  := by
  intro d hd
  rw [on_exitTo]
  refine ⟨hd.exit pc, ?_⟩
  rw [weight_addExits]
  exact Nat.le_refl _

theorem call (addr : Word) :
  Grows 16 (call addr)
  := (instr (i := .mov ..) rfl).bind fun _ => (instr (i := .movImm ..) rfl).bind fun _ =>
    instr (i := .callReg ..) rfl

theorem checkFault (pc : Word) (refund : Except Crash Nat) :
  Grows 48 (checkFault pc refund)
  := by
  cases refund with
  | error c =>
    intro d hd
    obtain ⟨htidy, hweight⟩ := instr (i := .test true .rdx .rdx) rfl d hd
    exact ⟨htidy, Nat.le_trans hweight (Nat.add_le_add_left (by decide) _)⟩
  | ok n =>
    intro d hd
    rw [on_checkFault]
    refine ⟨hd.checkFault _, ?_⟩
    rw [weight_addFault]
    exact Nat.le_refl _

theorem branchExits (c : Cond) (next taken : Word) :
  Grows 78 (branchExits c next taken)
  := by
  intro d hd
  rw [on_branchExits]
  refine ⟨hd.branch c next taken, ?_⟩
  rw [weight_addExits]
  exact Nat.le_refl _

theorem get :
  Grows 0 (get : Compile Draft)
  := fun _ hd => ⟨hd, Nat.le_refl _⟩

theorem ofExcept (x : Except Crash α) :
  Grows 0 (ofExcept x)
  := fun _ hd => ⟨hd, Nat.le_refl _⟩

theorem modify (f : Draft → Assignment) :
  Grows 0 (modify fun d => { d with assignment := f d } : Compile Unit)
  := fun d hd => ⟨hd.assigned (f d), Nat.le_refl _⟩

theorem interpreted (s : Services) (refund : Except Crash Nat) (d : Isa.Located) :
  Grows 121 (interpreted s refund d)
  := by
  unfold Compile.interpreted
  refine (sync.bind (n := 86) fun _ => ?_)
  refine ((instr (i := .movImm false .rsi _) rfl).bind (n := 80) fun _ => ?_)
  refine ((instr (i := .movImm true .rdx _) rfl).bind (n := 70) fun _ => ?_)
  refine ((ofExcept refund).bind (n := 70) fun n => ?_).mono (by decide)
  refine ((instr (i := .movImm false .rcx _) rfl).bind (n := 64) fun _ => ?_)
  refine ((call s.interpret).bind (n := 48) fun _ => ?_)
  refine (get.bind (n := 48) fun d' => ?_).mono (by decide)
  refine ((ofExcept d'.assignment.invalidate).bind (n := 48) fun a => ?_).mono (by decide)
  exact ((modify fun _ => a).bind fun _ => checkFault d.pc refund).mono (by decide)

theorem extendIf (low : Bool) :
  Grows 3 (extendIf low)
  := by
  unfold Compile.extendIf
  split
  · exact instr rfl
  · exact pure _

theorem compare (op : Isa.AluOp) (rs1 : Nat) (b : Source) :
  Grows 56 (compare op rs1 b)
  := by
  refine (read rs1 .rdx).bind (n := 42) fun a => ?_
  cases b with
  | reg rs2 =>
    refine ((read rs2 .rcx).bind (n := 13) fun r => ?_).mono (by decide)
    exact (instr (i := .movImm false .rax 0) rfl).bind fun _ =>
      (instr (i := .arith .cmp true a r) rfl).bind fun _ => instr (i := .setcc _ .rax) rfl
  | imm v =>
    refine ((instr (i := .movImm false .rax 0) rfl).bind (n := 11) fun _ => ?_).mono (by decide)
    exact (instr (i := .arithImm .cmp true a _) rfl).bind fun _ => instr (i := .setcc _ .rax) rfl

theorem arithCode {s : Services} {op : Isa.AluOp} {rs1 : Nat} {b : Source} {low : Bool}
    {code : Compile Unit} (h : ArithCode s op rs1 b low code) :
  Grows 56 code
  := by
  cases h with
  | compare h => exact compare op rs1 b
  | service rs2 h =>
    refine (readInto rs1 .rdx).bind (n := 39) fun _ => ?_
    refine (readInto rs2 .rcx).bind (n := 22) fun _ => ?_
    exact (instr (i := .movImm false .rsi _) rfl).bind fun _ => call s.arith
  | imm v h =>
    refine ((readInto rs1 .rax).bind (n := 10) fun _ => ?_).mono (by decide)
    dsimp only
    split
    · exact (instr (i := .arithImm ..) rfl).bind fun _ => extendIf low
    · exact (extendIf low).mono (by decide)
  | shiftImm v h =>
    refine ((readInto rs1 .rax).bind (n := 7) fun _ => ?_).mono (by decide)
    dsimp only
    generalize v.toNat % (if low then 32 else 64) = amount
    split
    · exact (instr (i := .shift ..) rfl).bind fun _ => extendIf low
    · exact (extendIf low).mono (by decide)
  | shift rs2 h =>
    refine ((readInto rs1 .rax).bind (n := 23) fun _ => ?_).mono (by decide)
    refine (readInto rs2 .rcx).bind (n := 6) fun _ => ?_
    exact (instr (i := .shiftCl ..) rfl).bind fun _ => extendIf low
  | two rs2 h =>
    refine ((readInto rs1 .rax).bind (n := 20) fun _ => ?_).mono (by decide)
    refine (read rs2 .rcx).bind (n := 6) fun r => ?_
    exact (instr (i := .arith ..) rfl).bind fun _ => extendIf low
  | product rs2 h =>
    refine ((readInto rs1 .rax).bind (n := 21) fun _ => ?_).mono (by decide)
    refine (read rs2 .rcx).bind (n := 7) fun r => ?_
    exact (instr (i := .imulLow ..) rfl).bind fun _ => extendIf low
  | upper rs2 signed h hlow =>
    refine ((readInto rs1 .rax).bind (n := 20) fun _ => ?_).mono (by decide)
    refine (read rs2 .rcx).bind (n := 6) fun r => ?_
    cases signed
    · exact (instr (i := .mul true r) rfl).bind fun _ => instr (i := .mov ..) rfl
    · exact (instr (i := .imul true r) rfl).bind fun _ => instr (i := .mov ..) rfl

theorem arith (s : Services) (refund : Except Crash Nat) (d : Isa.Located) (op : Isa.AluOp)
    (rd rs1 : Nat) (b : Source) (low : Bool) :
  Grows 121 (arith s refund d op rd rs1 b low)
  := by
  unfold Compile.arith
  split
  · exact pure _
  split
  case h_1 code h => exact ((arithCode (arithCode_of_eq h)).bind fun _ => writeFrom rd .rax).mono (by decide)
  case h_2 => exact interpreted s refund d

/-- An instruction takes no more than its part of the reservation. -/
theorem located (s : Services) (refund : Except Crash Nat) (d : Isa.Located) :
  Grows 256 (located s refund d)
  := by
  unfold Compile.located
  cases d.instr with
  | lui rd imm => exact (writeImm rd imm).mono (by decide)
  | auipc rd imm => exact (writeImm rd _).mono (by decide)
  | jal rd imm =>
    refine ((writeImm rd _).bind (n := 71) fun _ => ?_).mono (by decide)
    exact sync.bind fun _ => exitTo _
  | jalr rd rs1 imm =>
    refine ((addressIn .rax rs1 imm).bind (n := 77) fun _ => ?_).mono (by decide)
    refine (instr (i := .arithImm ..) rfl).bind (n := 70) fun _ => ?_
    refine (writeImm rd _).bind (n := 53) fun _ => ?_
    refine sync.bind (n := 18) fun _ => ?_
    exact (instr (i := .store true .rax stateReg _) rfl).bind fun _ => leave .indirect
  | branch op rs1 rs2 imm =>
    refine ((read rs1 .rax).bind (n := 130) fun a => ?_).mono (by decide)
    refine (read rs2 .rcx).bind (n := 116) fun b => ?_
    refine sync.bind (n := 81) fun _ => ?_
    exact (instr (i := .arith .cmp true a b) rfl).bind fun _ => branchExits _ _ _
  | load op rd rs1 imm =>
    refine ((addressIn .rsi rs1 imm).bind (n := 115) fun _ => ?_).mono (by decide)
    refine sync.bind (n := 80) fun _ => ?_
    refine (instr (i := .movImm false .rdx _) rfl).bind (n := 74) fun _ => ?_
    refine (call s.load).bind (n := 58) fun _ => ?_
    exact (checkFault d.pc refund).bind fun _ => writeFrom rd .rax
  | store op rs1 rs2 imm =>
    refine ((readInto rs2 .rdx).bind (n := 129) fun _ => ?_).mono (by decide)
    refine (addressIn .rsi rs1 imm).bind (n := 105) fun _ => ?_
    refine sync.bind (n := 70) fun _ => ?_
    refine (instr (i := .movImm false .rcx _) rfl).bind (n := 64) fun _ => ?_
    exact (call s.store).bind fun _ => checkFault d.pc refund
  | opImm op rd rs1 imm => exact (arith s refund d op rd rs1 _ _).mono (by decide)
  | opImm32 op rd rs1 imm => exact (arith s refund d op rd rs1 _ _).mono (by decide)
  | op op rd rs1 rs2 => exact (arith s refund d op rd rs1 _ _).mono (by decide)
  | op32 op rd rs1 rs2 => exact (arith s refund d op rd rs1 _ _).mono (by decide)
  | fence pred succ => exact pure _
  | fenceI => exact (leaveAt d.next .fenceI).mono (by decide)
  | ecall => exact (leaveAt d.pc .ecall).mono (by decide)
  | ebreak => exact (leaveAt d.pc .ebreak).mono (by decide)
  | _ => exact (interpreted s refund d).mono (by decide)

theorem body (s : Services) (count : Nat) (ds : List Isa.Located) (done : Nat) :
  Grows (256 * ds.length) (body s count ds done)
  := by
  induction ds generalizing done with
  | nil => exact pure _
  | cons d ds ih =>
    refine ((modify fun d => d.assignment.beginInstr).bind (n := 256 * (ds.length + 1)) fun _ => ?_).mono
      (by rw [Nat.zero_add]; exact Nat.le_refl _)
    exact ((located s _ d).bind fun _ => ih (done + 1)).mono (by omega)

end Grows

/-! ### Blocks -/

/-- The code of a block up to its end. -/
def main (s : Services) (b : Block) : Compile Unit := do
  changeBudget .sub b.count
  item (.branch .jl .budget)
  body s b.count b.insns 0
  if b.ending = .limit then
    sync
    exitTo b.endPc

/-- The ways out behind the code of a block. -/
def ways (b : Block) : Compile Unit := do
  item (.place .budget)
  changeBudget .add b.count
  setPc b.pc
  leave .budget
  faultExits (← get).faults.reverse 0
  stubs (← get).exits.reverse 0

theorem block_eq (s : Services) (b : Block) :
  block s b = main s b >>= fun _ => ways b
  := by
  unfold block main ways
  simp only [bind_assoc]
  split <;> simp

/-- The instruction that changes the budget. -/
def budgetInstr (op : Arith) (n : Nat) : Instr :=
  .arithMem op true stateReg budgetOffset (BitVec.ofNat 32 n)

/-- The way out if the budget is too small. -/
def budgetItems (b : Block) : List Item :=
  .place .budget :: .instr (budgetInstr .add b.count) :: (pcCode b.pc).map .instr ++
    leaveItems .budget

/-- The way out after a service call that failed. -/
def faultItems (f : FaultExit) (n : Nat) : List Item :=
  .place (.fault n) :: (if 0 < f.refund then [.instr (budgetInstr .add f.refund)] else []) ++
    (pcCode f.pc).map .instr ++ leaveItems .exception

/-- The stub of an exit. -/
def stubItems (pc : Word) (n : Nat) : List Item :=
  .place (.stub n) :: (pcCode pc).map .instr ++ leaveItems .chain

/-- Items for the elements of a list, the first of which has a number. -/
def numbered {γ : Type} (f : γ → Nat → List Item) : List γ → Nat → List Item
  | [], _ => []
  | x :: xs, n => f x n ++ numbered f xs (n + 1)

theorem on_faultExits (fs : List FaultExit) (n : Nat) (d : Draft) :
  (faultExits fs n).on d = (.ok (), d.push (numbered faultItems fs n))
  := by
  induction fs generalizing n d with
  | nil => rfl
  | cons f fs ih =>
    have hrest (d : Draft) :
        (setPc f.pc >>= fun _ => leave .exception >>= fun _ => faultExits fs (n + 1)).on d =
          (.ok (), d.push ((pcCode f.pc).map .instr ++ leaveItems .exception ++
            numbered faultItems fs (n + 1))) := by
      rw [on_bind_ok (on_setPc _ _), on_bind_ok (on_leave _ _), ih]
      simp
    rw [faultExits, on_bind_ok (on_item _ _)]
    dsimp only
    split
    case isTrue h =>
      rw [changeBudget, on_bind_ok (on_instr _ _), hrest]
      simp [numbered, faultItems, budgetInstr, h]
    case isFalse h =>
      rw [hrest]
      simp [numbered, faultItems, h]

theorem on_stubs (pcs : List Word) (n : Nat) (d : Draft) :
  (stubs pcs n).on d = (.ok (), d.push (numbered stubItems pcs n))
  := by
  induction pcs generalizing n d with
  | nil => rfl
  | cons pc pcs ih =>
    rw [stubs, on_bind_ok (on_item _ _), on_bind_ok (on_setPc _ _), on_bind_ok (on_leave _ _), ih]
    simp [numbered, stubItems]

/-- The items of the ways out. -/
def wayItems (b : Block) (d : Draft) : List Item :=
  budgetItems b ++ numbered faultItems d.faults.reverse 0 ++ numbered stubItems d.exits.reverse 0

theorem on_ways (b : Block) (d : Draft) :
  (ways b).on d = (.ok (), d.push (wayItems b d))
  := by
  rw [ways, on_bind_ok (on_item _ _), changeBudget, on_bind_ok (on_instr _ _),
    on_bind_ok (on_setPc _ _), on_bind_ok (on_leave _ _), on_get_bind,
    on_bind_ok (on_faultExits _ _ _), on_get_bind, on_stubs]
  simp [wayItems, budgetItems, budgetInstr, Draft.push]

/-- The draft of a block consists of the draft of its code and the ways out. -/
theorem on_block_eq_ok {s : Services} {b : Block} {d d' : Draft} {u : Unit}
    (h : (block s b).on d = (.ok u, d')) :
  ∃ d₁, (main s b).on d = (.ok (), d₁) ∧ d' = d₁.push (wayItems b d₁)
  := by
  rw [block_eq, on_bind] at h
  split at h
  case h_1 d₁ hmain =>
    rw [on_ways] at h
    exact ⟨d₁, hmain, (Prod.ext_iff.mp h).2.symm⟩
  case h_2 => cases h

theorem grows_main (s : Services) (b : Block) :
  Grows (256 * b.count + 88) (main s b)
  := by
  have hbranch : Grows 6 (item (.branch .jl .budget)) := by
    intro d hd
    rw [on_item]
    constructor
    · refine hd.extend _ [.branch .jl .budget] 0 rfl (by simp) rfl hd.targets (Nat.le_refl _)
        hd.faults rfl ?_ ?_ ?_
      · simp [Item.places]
      · simp [Item.places]
      · refine ⟨fun t ht => .inr ?_, trivial⟩
        rw [List.mem_singleton.mp ht]
        exact .inl rfl
    · rw [weight_push]
      exact Nat.le_refl _
  have hend : Grows 71 (if b.ending = .limit then do sync; exitTo b.endPc else Pure.pure ()) := by
    split
    · exact Grows.sync.bind fun _ => Grows.exitTo _
    · exact Grows.pure _
  refine ((Grows.instr (i := .arithMem .sub true stateReg _ _) rfl).bind
    (n := 256 * b.count + 77) fun _ => ?_).mono
      (show 11 + (256 * b.count + 77) ≤ 256 * b.count + 88 by omega)
  refine (hbranch.bind (n := 256 * b.count + 71) fun _ => ?_).mono (by omega)
  exact (Grows.body s b.count b.insns 0).bind fun _ => hend

/-! ### Ways out -/

/-- Items that are one target and code that goes straight on from it. -/
structure IsWay (items : List Item) (t : Target) (n : Nat) : Prop where
  places : places items = [t]
  numbers : exitNumbers items = []
  mentions : mentions items = []
  costs : costs items ≤ n
  straight : ∀ i, .instr i ∈ items → i.IsStraight

theorem straight_pcCode (pc : Word) :
  ∀ i ∈ pcCode pc, i.IsStraight
  := by
  unfold pcCode
  split <;> simp [Instr.IsStraight]

theorem costs_pcCode (pc : Word) :
  costs ((pcCode pc).map .instr) ≤ 17
  := by
  unfold pcCode
  split
  · exact Nat.le_add_right 11 6
  · exact Nat.le_refl 17

/-- A way out sets the program counter and leaves. -/
theorem isWay (t : Target) (is : List Instr) (pc : Word) (r : ExitReason) {n : Nat}
    (straight : ∀ i ∈ is, i.IsStraight) (size : costs (is.map .instr) ≤ n) :
  IsWay (.place t :: is.map .instr ++ (pcCode pc).map .instr ++ leaveItems r) t (n + 28)
  := by
  have hmentions (is : List Instr) : mentions (is.map .instr) = [] := by
    induction is with
    | nil => rfl
    | cons i is ih => exact ih
  have hmentions_append (items rest : List Item) :
      mentions (items ++ rest) = mentions items ++ mentions rest := List.filterMap_append
  constructor
  · rw [← List.singleton_append, places_append, places_append, places_append, places_map_instr,
      places_map_instr]
    rfl
  · rw [← List.singleton_append, exitNumbers_append, exitNumbers_append, exitNumbers_append,
      exitNumbers_map_instr, exitNumbers_map_instr]
    rfl
  · rw [← List.singleton_append, hmentions_append, hmentions_append, hmentions_append, hmentions,
      hmentions]
    rfl
  · have hpc := costs_pcCode pc
    have hleave : costs (leaveItems r) = 11 := rfl
    have hplace : costs [.place t] = 0 := rfl
    rw [← List.singleton_append, costs_append, costs_append, costs_append, hleave, hplace]
    omega
  · intro i hi
    simp only [List.cons_append, List.mem_cons, List.mem_append, List.mem_map, reduceCtorEq,
      Item.instr.injEq, exists_eq_right, false_or, leaveItems, List.not_mem_nil, or_false] at hi
    obtain (hi | hi) | rfl := hi
    · exact straight i hi
    · exact straight_pcCode pc i hi
    · rfl

theorem isWay_budget (b : Block) :
  IsWay (budgetItems b) .budget 39
  := isWay .budget [budgetInstr .add b.count] b.pc .budget (n := 11) (by simp [budgetInstr, Instr.IsStraight])
    (Nat.le_refl 11)

theorem isWay_fault (f : FaultExit) (n : Nat) :
  IsWay (faultItems f n) (.fault n) 39
  := by
  have h := isWay (.fault n) (if 0 < f.refund then [budgetInstr .add f.refund] else []) f.pc
    .exception (n := 11)
  unfold faultItems
  split
  case isTrue hpos =>
    rw [if_pos hpos] at h
    exact h (by simp [budgetInstr, Instr.IsStraight]) (Nat.le_refl 11)
  case isFalse hpos =>
    rw [if_neg hpos] at h
    exact h (by simp) (Nat.zero_le _)

theorem isWay_stub (pc : Word) (n : Nat) :
  IsWay (stubItems pc n) (.stub n) 28
  := isWay (.stub n) [] pc .chain (by simp) (Nat.le_refl 0)

/-- Ways out one after the other. -/
theorem isWay_numbered {γ : Type} {f : γ → Nat → List Item} {t : Nat → Target} {k : Nat}
    (h : ∀ x n, IsWay (f x n) (t n) k) (xs : List γ) (n : Nat) :
  places (numbered f xs n) = (List.range' n xs.length).map t ∧
  exitNumbers (numbered f xs n) = [] ∧ mentions (numbered f xs n) = [] ∧
  costs (numbered f xs n) ≤ k * xs.length ∧ ∀ i, .instr i ∈ numbered f xs n → i.IsStraight
  := by
  induction xs generalizing n with
  | nil => simp [numbered, places, exitNumbers, mentions, costs]
  | cons x xs ih =>
    obtain ⟨hplaces, hnumbers, hmentions, hcosts, hstraight⟩ := ih (n + 1)
    have hx := h x n
    refine ⟨?_, ?_, ?_, ?_, ?_⟩
    · rw [numbered, places_append, hx.places, hplaces]
      rfl
    · rw [numbered, exitNumbers_append, hx.numbers, hnumbers]
      rfl
    · rw [numbered, mentions, List.filterMap_append]
      exact (congrArg₂ _ hx.mentions hmentions)
    · have := hx.costs
      rw [numbered, costs_append, List.length_cons, Nat.mul_succ]
      omega
    · intro i hi
      rw [numbered, List.mem_append] at hi
      exact hi.elim (hx.straight i) (hstraight i)

/-- Nothing leads out of the ways out but the way back. -/
theorem mentions_wayItems (b : Block) (d : Draft) :
  mentions (wayItems b d) = []
  := by
  obtain ⟨-, -, hfaults, -⟩ := isWay_numbered isWay_fault d.faults.reverse 0
  obtain ⟨-, -, hstubs, -⟩ := isWay_numbered isWay_stub d.exits.reverse 0
  have hbudget := (isWay_budget b).mentions
  unfold mentions at hfaults hstubs hbudget
  rw [wayItems, mentions, List.filterMap_append, List.filterMap_append, hfaults, hstubs, hbudget]
  rfl

/-- There is no exit among the ways out. -/
theorem exitNumbers_wayItems (b : Block) (d : Draft) :
  exitNumbers (wayItems b d) = []
  := by
  obtain ⟨-, hfaults, -⟩ := isWay_numbered isWay_fault d.faults.reverse 0
  obtain ⟨-, hstubs, -⟩ := isWay_numbered isWay_stub d.exits.reverse 0
  rw [wayItems, exitNumbers_append, exitNumbers_append, (isWay_budget b).numbers, hfaults, hstubs]
  rfl

/-- The ways out have the targets that the code of the block waits for. -/
theorem places_wayItems (b : Block) {d : Draft} (h : d.Tidy) :
  places (wayItems b d) =
    .budget :: (List.range d.faultCount).map .fault ++ (List.range d.exitCount).map .stub
  := by
  obtain ⟨hfaults, -⟩ := isWay_numbered isWay_fault d.faults.reverse 0
  obtain ⟨hstubs, -⟩ := isWay_numbered isWay_stub d.exits.reverse 0
  rw [wayItems, places_append, places_append, (isWay_budget b).places, hfaults, hstubs,
    List.length_reverse, List.length_reverse, h.faults, h.targets, ← List.range_eq_range',
    ← List.range_eq_range']
  rfl

end Compile

/-- What the draft of a whole block is like. -/
structure Draft.Finished (d : Draft) (b : Block) : Prop where
  wellPlaced : Item.WellPlaced d.code
  numbers : Item.exitNumbers d.code = List.range d.exitCount
  targets : d.exits.length = d.exitCount
  straight : ∀ i, .instr i ∈ d.code → i.IsStraight
  costs : Item.costs d.code ≤ codeBound b

open Item Compile in
/-- Compiling a block finishes its draft, whatever the block. -/
theorem finished_of_lower {s : Services} {b : Block} {d : Draft} {u : Unit}
    (h : lower s b = (.ok u, d)) :
  d.Finished b
  := by
  obtain ⟨d₁, hmain, rfl⟩ := on_block_eq_ok h
  obtain ⟨htidy, hweight⟩ := grows_main s b {} Draft.tidy_empty
  rw [hmain] at htidy hweight
  change d₁.Tidy at htidy
  change d₁.weight ≤ 0 + _ at hweight
  obtain ⟨-, -, -, hfc, hfs⟩ := isWay_numbered isWay_fault d₁.faults.reverse 0
  obtain ⟨-, -, -, hsc, hss⟩ := isWay_numbered isWay_stub d₁.exits.reverse 0
  have hways := places_wayItems b htidy
  refine ⟨⟨?_, ?_⟩, ?_, htidy.targets, ?_, ?_⟩
  · rw [Draft.code_push, places_append, hways]
    apply List.nodup_append.mpr
    refine ⟨htidy.distinct, ?_, ?_⟩
    · have hrange (f : Nat → Target) (hf : Function.Injective f) (n : Nat) :
          ((List.range n).map f).Nodup := List.Nodup.map hf List.nodup_range
      rw [List.cons_append, List.nodup_cons, List.nodup_append]
      refine ⟨by simp, hrange _ (fun _ _ h => Target.fault.inj h) _,
        hrange _ (fun _ _ h => Target.stub.inj h) _, ?_⟩
      simp only [List.mem_map, List.mem_range]
      rintro _ ⟨_, _, rfl⟩ _ ⟨_, _, rfl⟩ heq
      cases heq
    · rintro t ht _ ht' rfl
      obtain ⟨n, -, rfl⟩ := htidy.places t ht
      simp at ht'
  · rw [Draft.code_push]
    apply htidy.forward.forward
    · apply forward_of_mentions
      exact mentions_wayItems b d₁
    · intro t ht
      rw [hways]
      obtain rfl | ⟨n, hn, rfl⟩ | ⟨n, hn, rfl⟩ := ht
      · simp
      · simpa using hn
      · simpa using hn
  · rw [Draft.code_push, exitNumbers_append, exitNumbers_wayItems, List.append_nil]
    exact htidy.numbers
  · intro i hi
    rw [Draft.code_push, wayItems] at hi
    simp only [List.mem_append] at hi
    obtain hi | (hi | hi) | hi := hi
    · exact htidy.straight i (List.mem_reverse.mp hi)
    · exact (isWay_budget b).straight i hi
    · exact hfs i hi
    · exact hss i hi
  · have hb := (isWay_budget b).costs
    have hcode : costs d₁.code = costs d₁.items := costs_reverse _
    rw [List.length_reverse, htidy.faults] at hfc
    rw [List.length_reverse, htidy.targets] at hsc
    rw [Draft.code_push, wayItems, costs_append, costs_append, costs_append, hcode, codeBound]
    rw [Draft.weight] at hweight
    omega

end CrossHart.Host
