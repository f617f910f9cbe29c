import CrossHart.Proofs.Userland.Programs
import CrossHart.Userland.Kernel

/-!
# The heap

The heap of a program starts behind the program and ends below its stack.  Asked to end at an address,
it does so if the address is in these bounds, in whole pages, and otherwise stays as it is.  The pages
are counted before the bounds are checked, so an address on the last page crashes the kernel.
-/

namespace CrossHart.Userland

open Memory (pageSize pageUp pageMask)

namespace Kernel

variable {k : Kernel} {memory : Memory}

/-! ### Moving the end of the heap -/

/-- The end of the heap is in its bounds. -/
structure Bounded (k : Kernel) : Prop where
  start_le : k.start.toNat ≤ k.brk.toNat
  le_limit : k.brk.toNat ≤ k.limit.toNat

/-- The heap may end at an address. -/
def Admits (k : Kernel) (addr : Word) : Prop :=
  k.start.toNat ≤ addr.toNat ∧ Size.roundUp addr.toNat pageSize ≤ k.limit.toNat

/-- An address is not below the heap, and the page on which the heap would end is the last one. -/
def Exceeds (k : Kernel) (addr : Word) : Prop :=
  k.start.toNat ≤ addr.toNat ∧ Word.count ≤ Size.roundUp addr.toNat pageSize

instance (k : Kernel) (addr : Word) : Decidable (k.Admits addr) :=
  inferInstanceAs (Decidable (_ ∧ _))

instance (k : Kernel) (addr : Word) : Decidable (k.Exceeds addr) :=
  inferInstanceAs (Decidable (_ ∧ _))

/-- The kernel after the heap was asked to end at an address. -/
def moved (k : Kernel) (addr : Word) : Kernel :=
  if k.Admits addr then { k with brk := addr } else k

@[simp]
theorem start_moved (k : Kernel) (addr : Word) :
  (k.moved addr).start = k.start
  := by
  unfold moved
  split <;> rfl

@[simp]
theorem limit_moved (k : Kernel) (addr : Word) :
  (k.moved addr).limit = k.limit
  := by
  unfold moved
  split <;> rfl

theorem exceeds_moved (k : Kernel) (addr addr' : Word) :
  (k.moved addr).Exceeds addr' ↔ k.Exceeds addr'
  := by
  rw [Exceeds, Exceeds, start_moved]

theorem Bounded.moved (h : k.Bounded) (addr : Word) :
  (k.moved addr).Bounded
  := by
  unfold Kernel.moved
  split
  case isTrue hadmits => exact ⟨hadmits.1, Nat.le_trans (le_roundUp _) hadmits.2⟩
  case isFalse => exact h

theorem pageUp_eq_error {n : Word} (beyond : Word.count ≤ Size.roundUp n.toNat pageSize) :
  pageUp n = .error .overflow
  := by
  have hmask : pageMask.toNat = 4095 := rfl
  rw [pageUp, Word.sum, if_neg]
  · rfl
  · rw [hmask]
    unfold Size.roundUp pageSize Word.count at *
    omega

/-- What moving the end of the heap does. -/
theorem moveBrk_eq (k : Kernel) (addr : Word) (memory : Memory) :
  k.moveBrk addr memory =
    if k.Exceeds addr then .error .overflow
    else .ok ((k.moved addr).brk.toInt, k.moved addr, memory)
  := by
  by_cases hstart : k.start.toNat ≤ addr.toNat
  case neg =>
    have hmoved : k.moved addr = k := if_neg fun h => hstart h.1
    have hule : ¬k.start.ule addr = true := fun h => hstart (of_decide_eq_true h)
    rw [if_neg fun h : k.Exceeds addr => hstart h.1, hmoved, moveBrk, if_neg hule]
    rfl
  rw [moveBrk, if_pos (show k.start.ule addr = true from decide_eq_true hstart)]
  by_cases hexceeds : k.Exceeds addr
  case pos =>
    rw [if_pos hexceeds, pageUp_eq_error hexceeds.2]
    rfl
  have hbelow : Size.roundUp addr.toNat pageSize < Word.count :=
    Nat.lt_of_not_le fun h => hexceeds ⟨hstart, h⟩
  obtain ⟨stop, hstop, htoNat⟩ := Memory.pageUp_eq_ok hbelow
  have hmoved : (if stop.ule k.limit then { k with brk := addr } else k) = k.moved addr := by
    unfold Kernel.moved
    refine if_congr ?_ rfl rfl
    rw [Admits, and_iff_right hstart, ← htoNat, BitVec.ule, decide_eq_true_iff]
  rw [if_neg hexceeds, hstop, Except.ok_bind, ← hmoved]
  rfl

/-- The number of the call that moves the end of the heap. -/
def brkNumber : Word := 214

theorem handle_brk {call : Call} (number : call.number = brkNumber) (k : Kernel) (memory : Memory) :
  handle call k memory =
    if k.Exceeds (call.args.get 0) then .error .overflow
    else .ok (.ret (k.moved (call.args.get 0)).brk, k.moved (call.args.get 0), memory)
  := by
  unfold handle
  rw [number]
  change (k.moveBrk (call.args.get 0) memory >>= _) = _
  rw [moveBrk_eq]
  split
  · rfl
  · rw [Except.ok_bind]
    dsimp only
    rw [BitVec.ofInt_toInt]
    rfl

/-! ### Sequences of calls -/

/-- Answering calls one after the other. -/
def serve : List Call → Kernel → Memory → Except Crash (List CallOutcome × Kernel × Memory)
  | [], k, memory => .ok ([], k, memory)
  | call :: rest, k, memory => do
    let (outcome, k, memory) ← handle call k memory
    let (outcomes, k, memory) ← serve rest k memory
    return (outcome :: outcomes, k, memory)

/-- The kernels after each time that the heap was asked to end at an address. -/
def courses (k : Kernel) : List Word → List Kernel
  | [] => []
  | addr :: rest => k.moved addr :: courses (k.moved addr) rest

/-- The bounds stay as they are, and the end of the heap stays in them. -/
theorem Bounded.courses (h : k.Bounded) (addrs : List Word) :
  ∀ k' ∈ k.courses addrs, k'.Bounded ∧ k'.start = k.start ∧ k'.limit = k.limit
  := by
  induction addrs generalizing k with
  | nil => exact fun _ h => absurd h List.not_mem_nil
  | cons addr rest ih =>
    have hrest := ih (h.moved addr)
    rw [start_moved, limit_moved] at hrest
    exact List.forall_mem_cons.mpr ⟨⟨h.moved addr, start_moved k addr, limit_moved k addr⟩, hrest⟩

/-- What asking for the end of the heap again and again does. -/
theorem serve_brk {calls : List Call} (number : ∀ c ∈ calls, c.number = brkNumber) (k : Kernel)
    (memory : Memory) :
  serve calls k memory =
    if ∃ c ∈ calls, k.Exceeds (c.args.get 0) then .error .overflow
    else .ok ((k.courses (calls.map (·.args.get 0))).map fun k => .ret k.brk,
      (calls.map (·.args.get 0)).foldl Kernel.moved k, memory)
  := by
  induction calls generalizing k with
  | nil =>
    rw [if_neg]
    · rfl
    · rintro ⟨c, hc, -⟩
      exact absurd hc List.not_mem_nil
  | cons call rest ih =>
    obtain ⟨hcall, hrest⟩ := List.forall_mem_cons.mp number
    rw [serve, handle_brk hcall]
    by_cases hexceeds : k.Exceeds (call.args.get 0)
    case pos =>
      rw [if_pos hexceeds, if_pos ⟨call, .head _, hexceeds⟩]
      rfl
    have hiff : (∃ c ∈ call :: rest, k.Exceeds (c.args.get 0)) ↔
        ∃ c ∈ rest, (k.moved (call.args.get 0)).Exceeds (c.args.get 0) := by
      simp only [List.mem_cons, exists_eq_or_imp, exceeds_moved, or_iff_right hexceeds]
    rw [if_neg hexceeds, Except.ok_bind]
    dsimp only
    rw [ih hrest]
    simp only [hiff]
    split <;> rfl

end Kernel

/-! ### The heaps of programs -/

open Loading Kernel

variable {config : Config} {services : Host.Services} {platform : Host.Platform} {data : ByteArray}
variable {argv envp : List String} {m : Machine} {p : Program}

/-- The heap of a program starts below its stack. -/
theorem brk_le_stackBase (loaded : (loadProgram config data argv envp services platform).run = .ok (.ok (m, p))) :
  p.brk.toNat ≤ p.stackBase.toNat
  := by
  obtain ⟨m₀, p₀, m₁, h⟩ := exists_assembled loaded
  rw [h.program]
  obtain ⟨hle, heq⟩ := h.placed.fits
  rw [← heq] at hle
  exact hle

/-- A call that asks for the end of the heap. -/
def brkCall (addr : Word) : Call :=
  ⟨brkNumber, #v[addr, 0, 0, 0], {}⟩

/-- The kernel of an image of less than a page. -/
def imageKernel : Kernel :=
  { start := 0x1000, brk := 0x1000, limit := BitVec.ofNat 64 (stackStart {}) }

theorem exists_load_one :
  ∃ m p, (loadProgram {} ⟨#[0x73, 0, 0, 0]⟩ [] []).run = .ok (.ok (m, p)) ∧ ofProgram p = imageKernel
  := by
  have hother : Elf.hasMagic ⟨#[0x73, 0, 0, 0]⟩ = false := by decide
  obtain ⟨m, p, loaded⟩ := exists_load_image suits_default suits_default.affordable_standard hother (by decide) (by decide)
    (show stackRoom [] [] ≤ _ by decide)
  refine ⟨m, p, loaded, ?_⟩
  obtain ⟨m₀, p₀, m₁, h⟩ := exists_assembled loaded
  have hbrk : p.brk = 0x1000 := by
    rw [h.program]
    exact BitVec.eq_of_toNat_eq (h.holdsImage hother).brk
  have hstack : p.stackBase = BitVec.ofNat 64 (stackStart {}) := by
    apply BitVec.eq_of_toNat_eq
    rw [h.stackBase_eq]
    decide
  rw [ofProgram, hbrk, hstack]
  rfl

/-! ### Heaps in their bounds -/

/-- The end of the heap stays in its bounds.  Whatever program was loaded, however often and for
whatever addresses its kernel is asked, it answers each time with the end of the heap, which has moved
to the address if that is in the bounds in whole pages, and is where it was otherwise.  The kernel
crashes exactly if it is asked for an address that is not below the heap and so high that the page
boundary above it is beyond the last address. -/
theorem heap_stays_in_bounds (loaded : (loadProgram config data argv envp services platform).run = .ok (.ok (m, p)))
    (calls : List Call) (number : ∀ c ∈ calls, c.number = brkNumber) (memory : Memory) :
  (if ∃ c ∈ calls, (ofProgram p).Exceeds (c.args.get 0) then
      serve calls (ofProgram p) memory = .error .overflow
    else
      serve calls (ofProgram p) memory =
        .ok (((ofProgram p).courses (calls.map (·.args.get 0))).map fun k => .ret k.brk,
          (calls.map (·.args.get 0)).foldl Kernel.moved (ofProgram p), memory)) ∧
  (ofProgram p).Bounded ∧
  ∀ k ∈ (ofProgram p).courses (calls.map (·.args.get 0)),
    k.Bounded ∧ k.start = p.brk ∧ k.limit = p.stackBase
  := by
  have hbounded : (ofProgram p).Bounded := ⟨Nat.le_refl _, brk_le_stackBase loaded⟩
  refine ⟨?_, hbounded, hbounded.courses _⟩
  rw [serve_brk number]
  split <;> rfl

/-- The heap of an image of one instruction, moved, asked for, and asked to end above the stack. -/
theorem heap_of_image_stays_in_bounds :
  ∃ m p, (loadProgram {} ⟨#[0x73, 0, 0, 0]⟩ [] []).run = .ok (.ok (m, p)) ∧
    ∃ k, serve [brkCall 0x2001, brkCall 0, brkCall 0xfffffffffffff000] (ofProgram p) m.guest.memory =
      .ok ([.ret 0x2001, .ret 0x2001, .ret 0x2001], k, m.guest.memory) ∧ k.Bounded
  := by
  obtain ⟨m, p, loaded, hkernel⟩ := exists_load_one
  refine ⟨m, p, loaded, imageKernel.moved 0x2001, ?_⟩
  obtain ⟨hserve, hbounded, -⟩ := heap_stays_in_bounds loaded
    [brkCall 0x2001, brkCall 0, brkCall 0xfffffffffffff000] (by decide) m.guest.memory
  rw [hkernel] at hserve hbounded ⊢
  rw [if_neg (by decide)] at hserve
  exact ⟨hserve, hbounded.moved _⟩

/-- Asked to end on the last page, the heap of the image crashes the kernel. -/
theorem heap_of_image_crashes :
  ∃ m p, (loadProgram {} ⟨#[0x73, 0, 0, 0]⟩ [] []).run = .ok (.ok (m, p)) ∧
    serve [brkCall 0xffffffffffffffff] (ofProgram p) m.guest.memory = .error .overflow
  := by
  obtain ⟨m, p, loaded, hkernel⟩ := exists_load_one
  refine ⟨m, p, loaded, ?_⟩
  rw [serve_brk (by decide), hkernel]
  exact if_pos (by decide)

end CrossHart.Userland
