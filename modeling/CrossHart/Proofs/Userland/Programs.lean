import CrossHart.Proofs.Hart.Registers
import CrossHart.Proofs.Userland.Parts
import CrossHart.Proofs.Userland.Stack

/-!
# Programs in machines

What a machine holds after a program was loaded into it.

* Below the stack pointer RAM holds the parts of the program and zeros, and the heap starts behind the
  parts.
* From the stack pointer on it holds the stack, with the layout that programs expect.
* The stack has no fixed size.  Its strings can be so many or so long that it goes beyond its area, and
  then it can overwrite the program.
-/

namespace CrossHart.Userland

open Loading
open Memory (pageSize pageUp inPage)

variable {config : Config} {services : Host.Services} {platform : Host.Platform} {data : ByteArray}
variable {argv envp : List String} {m m₀ m₁ : Machine}
variable {p p₀ : Program} {stackBase : Word}

/-! ### Files -/

/-- Loading a file, before there is a stack. -/
def loadFile (config : Config) (data : ByteArray) (stackBase : Word) (services : Host.Services)
    (platform : Host.Platform) : Loading (Machine × Program) :=
  if Elf.hasMagic data then loadElf config data stackBase services platform
  else loadFlat config data stackBase services platform

/-- A program is entered where its file says, and knows of the program headers of its file. -/
inductive Describes (config : Config) (data : ByteArray) (p : Program) : Prop
  | parts {h : Elf.Header} {ps : List Elf.ProgramHeader} (reads : Reads data h ps)
    (entry : p.entry = h.entry) (headers : HeadersAt h ps p.headers) (count : p.headerCount = h.count)
  | image (other : Elf.hasMagic data = false) (entry : p.entry = config.base) (headers : p.headers = 0)
    (count : p.headerCount = 0)

/-- An address belongs to a part of an executable file that is loaded, or to an image. -/
inductive Occupied (config : Config) (data : ByteArray) (a : Word) : Prop
  | part {h : Elf.Header} {ps : List Elf.ProgramHeader} {q : Elf.ProgramHeader} (reads : Reads data h ps)
    (mem : q ∈ ps) (load : q.isLoad = true) (start : q.vaddr.toNat ≤ a.toNat)
    (stop : a.toNat < q.vaddr.toNat + q.memorySize.toNat)
  | image (other : Elf.hasMagic data = false) (start : config.base.toNat ≤ a.toNat)
    (stop : a.toNat < config.base.toNat + data.size)

/-- A file is in a machine below an address. -/
structure Placed (config : Config) (data : ByteArray) (stackBase : Word) (m : Machine) (p : Program) :
    Prop where
  equips : Equips config m
  fits : p.Fits stackBase
  describes : Describes config data p
  below : ∀ a, Occupied config data a → a.toNat < stackBase.toNat

theorem HoldsParts.placed {h : Elf.Header} {ps : List Elf.ProgramHeader}
    (whole : inPage config.base = 0 → stackBase.toNat % pageSize = 0)
    (holds : HoldsParts config data stackBase h ps m p) :
  Placed config data stackBase m p
  := by
  refine ⟨holds.equips, ⟨?_, holds.stackBase_eq⟩, .parts holds.reads holds.entry holds.headers holds.count,
    fun a occupied => ?_⟩
  · apply holds.checked.below (whole holds.equips.aligned) (Nat.zero_le _)
  cases occupied with
  | part reads mem load start stop =>
    obtain ⟨rfl, rfl⟩ := holds.reads.unique reads
    have hstop := (holds.checked.inPlace _ (List.mem_filter.mpr ⟨mem, load⟩)).stop
    omega
  | image other start stop => cases holds.reads.magic.symm.trans other

theorem HoldsImage.placed (other : Elf.hasMagic data = false)
    (whole : inPage config.base = 0 → stackBase.toNat % pageSize = 0)
    (holds : HoldsImage config data stackBase m p) :
  Placed config data stackBase m p
  := by
  have hfits := holds.fits
  refine ⟨holds.equips, ⟨?_, holds.stackBase_eq⟩, .image other holds.entry holds.headers holds.count,
    fun a occupied => ?_⟩
  · rw [holds.brk]
    apply roundUp_le (whole holds.equips.aligned) hfits
  cases occupied with
  | part reads mem load start stop => cases reads.magic.symm.trans other
  | image other start stop => omega

theorem placed_of_loadFile (below : config.reach < Word.count)
    (whole : inPage config.base = 0 → stackBase.toNat % pageSize = 0)
    (loaded : (loadFile config data stackBase services platform).run = .ok (.ok (m, p))) :
  Placed config data stackBase m p
  := by
  unfold loadFile at loaded
  by_cases magic : Elf.hasMagic data = true
  · rw [if_pos magic] at loaded
    obtain ⟨h, ps, holds⟩ := holdsParts_of_loadElf magic below loaded
    apply holds.placed whole
  · rw [if_neg magic] at loaded
    apply (holdsImage_of_loadFlat below loaded).placed (Bool.eq_false_iff.mpr magic) whole

/-! ### Files and stacks -/

/-- How a program was loaded: its file came into a new machine, the stack was built, and the machine was
set to the program's entry. -/
structure Assembled (config : Config) (data : ByteArray) (argv envp : List String) (m₀ : Machine)
    (p₀ : Program) (m₁ m : Machine) (p : Program) : Prop where
  file : ∃ services platform, (loadFile config data p.stackBase services platform).run = .ok (.ok (m₀, p₀))
  stack : (buildStack (BitVec.ofNat 64 m.ramEnd) p₀ argv envp m₀).run = .ok (.ok (p.sp, m₁))
  memory : m.guest.memory = m₁.guest.memory
  program : p = { p₀ with sp := p.sp }
  pc : m.guest.hart.regs.pc = p.entry
  pointer : m.guest.hart.regs.get stackPointer = .ok p.sp
  ram : m.ramEnd = config.reach
  small : config.reach < Word.count
  stackBase_eq : p.stackBase.toNat = max (config.reach - stackSize) config.base.toNat
  placed : Placed config data p.stackBase m₀ p₀
  built : Built config.base.toNat config.reach p argv envp m₀ m

theorem reach_mod (aligned : inPage config.base = 0) :
  config.reach % pageSize = 0
  := by
  have hbase := Memory.toNat_inPage config.base
  have hzero : (0 : Word).toNat = 0 := rfl
  rw [aligned, hzero] at hbase
  unfold Config.reach Size.roundUp
  unfold pageSize at *
  omega

/-- The stack starts at a page boundary if RAM does. -/
theorem stackBase_mod (aligned : inPage config.base = 0) :
  max (config.reach - stackSize) config.base.toNat % pageSize = 0
  := by
  have hreach := reach_mod aligned
  have hbase := Memory.toNat_inPage config.base
  have hzero : (0 : Word).toNat = 0 := rfl
  rw [aligned, hzero] at hbase
  unfold pageSize stackSize at *
  omega

theorem exists_assembled (loaded : (loadProgram config data argv envp services platform).run = .ok (.ok (m, p))) :
  ∃ m₀ p₀ m₁, Assembled config data argv envp m₀ p₀ m₁ m p
  := by
  unfold loadProgram at loaded
  obtain ⟨size, hsize, loaded⟩ := run_bind_eq_ok.mp loaded
  obtain ⟨top, htop, loaded⟩ := run_bind_eq_ok.mp loaded
  dsimp only at loaded
  obtain ⟨⟨m₀, p₀⟩, file, loaded⟩ := run_ite_bind_eq_ok loaded
  obtain ⟨⟨sp, m₁⟩, stack, loaded⟩ := run_bind_eq_ok.mp loaded
  obtain ⟨regs, hregs, loaded⟩ := run_bind_eq_ok.mp loaded
  cases loaded
  replace htop : top.toNat = config.reach := by
    rw [Word.toNat_of_sum (run_lift_eq_ok.mp htop), Memory.toNat_of_pageUp (run_lift_eq_ok.mp hsize),
      BitVec.toNat_ofNat]
    rfl
  have hsmall : config.reach < Word.count := by
    rw [← htop]
    exact top.isLt
  have hstackBase : (BitVec.ofNat 64 (max (top.toNat - stackSize) config.base.toNat)).toNat =
      max (config.reach - stackSize) config.base.toNat := by
    have hlt := config.base.isLt
    rw [htop, BitVec.toNat_ofNat]
    unfold Word.count at hsmall
    omega
  generalize BitVec.ofNat 64 (max (top.toNat - stackSize) config.base.toNat) = stackBase at file hstackBase
  have placed : Placed config data stackBase m₀ p₀ := by
    refine placed_of_loadFile hsmall (fun aligned => ?_) file
    rw [hstackBase]
    apply stackBase_mod aligned
  have hwhole : config.reach % 16 = 0 := by
    have := reach_mod placed.equips.aligned
    unfold pageSize at this
    omega
  have built := built_of_buildStack (placed.equips.spans hsmall) htop hwhole stack
  have hram : (m₁.mapRegs fun _ => regs).ramEnd = config.reach :=
    built.toWrote.ramEnd.trans placed.equips.stop
  obtain ⟨hpointer, hpc⟩ := Registers.get_of_set (by decide) (run_lift_eq_ok.mp hregs)
  obtain ⟨-, rfl⟩ := placed.fits
  refine ⟨m₀, p₀, m₁, ⟨services, platform, file⟩, ?_, rfl, rfl, hpc, hpointer, hram, hsmall, hstackBase, placed, ?_⟩
  · rw [hram, ← htop, BitVec.ofNat_toNat, BitVec.setWidth_eq]
    exact stack
  · exact ⟨⟨built.base, built.size, built.kept⟩, built.start, built.room, built.laidOut⟩

theorem Assembled.holdsParts (h : Assembled config data argv envp m₀ p₀ m₁ m p)
    (magic : Elf.hasMagic data = true) :
  ∃ header ps, HoldsParts config data p.stackBase header ps m₀ p₀
  := by
  obtain ⟨services, platform, file⟩ := h.file
  rw [loadFile, if_pos magic] at file
  exact holdsParts_of_loadElf magic h.small file

theorem Assembled.holdsImage (h : Assembled config data argv envp m₀ p₀ m₁ m p)
    (other : Elf.hasMagic data = false) :
  HoldsImage config data p.stackBase m₀ p₀
  := by
  obtain ⟨services, platform, file⟩ := h.file
  rw [loadFile, if_neg (Bool.eq_false_iff.mp other)] at file
  exact holdsImage_of_loadFlat h.small file

/-- An image that has its place below the stack is loaded. -/
theorem exists_load_image (suits : config.Suits) (affordable : config.Affordable platform)
    (other : Elf.hasMagic data = false)
    (fits : config.base.toNat + data.size ≤ stackStart config)
    (small : config.ramSize < 0x8000000000000000) (room : stackRoom argv envp ≤ config.ramSize) :
  ∃ m p, (loadProgram config data argv envp services platform).run = .ok (.ok (m, p))
  := by
  have hbelow : config.base.toNat + data.size < Word.count :=
    Nat.lt_of_le_of_lt (Nat.le_trans fits (stackStart_le config)) suits.below
  refine exists_load suits affordable (Nat.lt_of_le_of_lt (Nat.le_add_left _ _) hbelow)
    (.image other fits) ?_ small room
  rintro (⟨reads, -⟩ | ⟨-, hbeyond⟩)
  · cases reads.magic.symm.trans other
  · exact Nat.not_lt.mpr hbeyond hbelow

/-! ### Stacks and their area -/

/-- In any machine with the RAM of a program, its stack is built at the same place. -/
theorem Assembled.kept_of_buildStack (h : Assembled config data argv envp m₀ p₀ m₁ m p) {n n' : Machine}
    {sp : Word} (base : n.base = m.base) (size : n.ram.size = m.ram.size)
    (built : (buildStack (BitVec.ofNat 64 m.ramEnd) p₀ argv envp n).run = .ok (.ok (sp, n'))) :
  sp = p.sp ∧ ∀ a : Word, a.toNat < p.sp.toNat ∨ m.ramEnd ≤ a.toNat → n'.byteAt a = n.byteAt a
  := by
  have hroom := h.built.room
  have hwhole := reach_mod h.placed.equips.aligned
  have hsmall := h.small
  rw [← h.ram] at hroom hwhole hsmall
  have spans : Spans m.base.toNat m.ramEnd n :=
    ⟨congrArg BitVec.toNat base, congrArg (m.base.toNat + ·) size, hsmall⟩
  have htop : (BitVec.ofNat 64 m.ramEnd).toNat = m.ramEnd := by
    rw [BitVec.toNat_ofNat]
    exact Nat.mod_eq_of_lt hsmall
  have hsixteen : m.ramEnd % 16 = 0 := by
    unfold pageSize at hwhole
    omega
  have hbuilt := built_of_buildStack spans htop hsixteen built
  have hroom' : sp.toNat + stackRoom argv envp = m.ramEnd := hbuilt.room
  have hsp : sp = p.sp := BitVec.eq_of_toNat_eq (by omega)
  subst hsp
  exact ⟨rfl, hbuilt.kept⟩

/-- A stack stays in its area exactly if there is room for it.  Wherever the file came from, and whatever
RAM holds, building the stack of a program writes from the stack pointer to the end of RAM and nowhere
else.  The room it takes depends on the strings alone.  If the area has so much room, then neither a byte
of the program nor one of the heap changes. -/
theorem stack_in_area_iff_room (loaded : (loadProgram config data argv envp services platform).run = .ok (.ok (m, p))) :
  ∃ m₀ p₀ m₁, Assembled config data argv envp m₀ p₀ m₁ m p ∧
    (∀ n n' sp, n.base = m.base → n.ram.size = m.ram.size →
      (buildStack (BitVec.ofNat 64 m.ramEnd) p₀ argv envp n).run = .ok (.ok (sp, n')) →
      sp = p.sp ∧ ∀ a : Word, a.toNat < p.sp.toNat ∨ m.ramEnd ≤ a.toNat → n'.byteAt a = n.byteAt a) ∧
    p.stackBase.toNat = max (m.ramEnd - stackSize) m.base.toNat ∧
    m.base.toNat ≤ p.sp.toNat ∧ p.sp.toNat + stackRoom argv envp = m.ramEnd ∧
    (p.stackBase.toNat ≤ p.sp.toNat ↔ stackRoom argv envp ≤ m.ramEnd - p.stackBase.toNat) ∧
    (stackRoom argv envp ≤ m.ramEnd - p.stackBase.toNat →
      ∀ a, Occupied config data a ∨ p.brk.toNat ≤ a.toNat ∧ a.toNat < p.stackBase.toNat →
        m.byteAt a = m₀.byteAt a)
  := by
  obtain ⟨m₀, p₀, m₁, h⟩ := exists_assembled loaded
  have hbase : m.base = config.base := h.built.base.trans h.placed.equips.base
  have hstackBase := h.stackBase_eq
  have hroom := h.built.room
  have hstart := h.built.start
  have hbasele : config.base.toNat ≤ config.reach := Nat.le_add_right _ _
  rw [← h.ram] at hstackBase hroom hbasele
  rw [← hbase] at hstackBase hstart hbasele
  have hiff : p.stackBase.toNat ≤ p.sp.toNat ↔ stackRoom argv envp ≤ m.ramEnd - p.stackBase.toNat := by
    omega
  refine ⟨m₀, p₀, m₁, h, fun n n' sp hn hsize built => ?_, hstackBase, hstart, hroom, hiff,
    fun room a ha => ?_⟩
  · apply h.kept_of_buildStack hn hsize built
  · apply h.built.kept
    have hsp := hiff.mpr room
    obtain ha | ha := ha
    · have := h.placed.below a ha
      omega
    · omega

/-- The stack of an image of one instruction, in its area. -/
theorem stack_of_image_in_area :
  ∃ m p, (loadProgram {} ⟨#[0x73, 0, 0, 0]⟩ ["image"] ["HOME=/"]).run = .ok (.ok (m, p)) ∧
    p.stackBase.toNat = 0xfc0000 ∧ p.sp.toNat = 0xffff40 ∧ m.ramEnd = 0x1000000 ∧
    ∃ m₀ p₀ m₁, Assembled {} ⟨#[0x73, 0, 0, 0]⟩ ["image"] ["HOME=/"] m₀ p₀ m₁ m p ∧
      ∀ a, a.toNat < 4 ∨ p.brk.toNat ≤ a.toNat ∧ a.toNat < 0xfc0000 → m.byteAt a = m₀.byteAt a
  := by
  have hother : Elf.hasMagic ⟨#[0x73, 0, 0, 0]⟩ = false := by decide
  have hroom : stackRoom ["image"] ["HOME=/"] = 0xc0 := by decide
  obtain ⟨m, p, loaded⟩ := exists_load_image suits_default suits_default.affordable_standard hother (by decide) (by decide)
    (show stackRoom ["image"] ["HOME=/"] ≤ _ by decide)
  obtain ⟨m₀, p₀, m₁, h, -, -, -, hsp, -, hkept⟩ := stack_in_area_iff_room loaded
  have hram : m.ramEnd = 0x1000000 := h.ram
  have hstackBase : p.stackBase.toNat = 0xfc0000 := h.stackBase_eq.trans (by decide)
  rw [hroom, hram] at hsp
  rw [hroom, hram, hstackBase] at hkept
  refine ⟨m, p, loaded, hstackBase, by omega, hram, m₀, p₀, m₁, h, fun a ha => hkept (by decide) a ?_⟩
  exact ha.imp_left fun hlt => .image hother (Nat.zero_le _) hlt

theorem stackRoom_replicate (n : Nat) :
  stackRoom (List.replicate n "") [] = 16 + Size.roundUp n 16 + Size.roundUp (8 * (17 + n)) 16
  := by
  have hempty : roomOf "" = 1 := rfl
  rw [stackRoom, frameSize, List.append_nil, List.map_replicate, List.sum_replicate_nat,
    List.length_replicate, hempty, Nat.mul_one]
  rfl

/-- With thirty thousand empty arguments the stack of the image begins below its area. -/
theorem stack_of_many_arguments_leaves_area :
  ∃ m p, (loadProgram {} ⟨#[0x73, 0, 0, 0]⟩ (List.replicate 30000 "") []).run = .ok (.ok (m, p)) ∧
    p.sp.toNat < p.stackBase.toNat
  := by
  have hroom : stackRoom (List.replicate 30000 "") [] = 0x41f50 := stackRoom_replicate 30000
  have hother : Elf.hasMagic ⟨#[0x73, 0, 0, 0]⟩ = false := by decide
  obtain ⟨m, p, loaded⟩ := exists_load_image suits_default suits_default.affordable_standard hother (by decide) (by decide)
    (show stackRoom (List.replicate 30000 "") [] ≤ _ by rw [hroom]; decide)
  obtain ⟨m₀, p₀, m₁, h⟩ := exists_assembled loaded
  have hstackBase : p.stackBase.toNat = 0xfc0000 := h.stackBase_eq.trans (by decide)
  have hsp : p.sp.toNat + stackRoom (List.replicate 30000 "") [] = 0x1000000 := h.built.room
  refine ⟨m, p, loaded, ?_⟩
  omega

/-! ### Stacks and their layout -/

/-- The stack of a program has the layout that programs expect, however many strings there are and however
long they are, and the facts on it are those of the file. -/
theorem stack_laid_out (loaded : (loadProgram config data argv envp services platform).run = .ok (.ok (m, p))) :
  m.guest.hart.regs.get stackPointer = .ok p.sp ∧ Describes config data p ∧
    ∃ args env random, LaidOut m.byteAt m.ramEnd p argv envp args env random
  := by
  obtain ⟨m₀, p₀, m₁, h⟩ := exists_assembled loaded
  refine ⟨h.pointer, ?_, ?_⟩
  · rw [h.program]
    cases h.placed.describes with
    | parts reads entry headers count => exact .parts reads entry headers count
    | image other entry headers count => exact .image other entry headers count
  · rw [h.ram]
    exact h.built.laidOut

/-- The stack of an image with an empty argument, whose frame is not a multiple of sixteen bytes. -/
theorem stack_of_image_laid_out :
  ∃ m p, (loadProgram {} ⟨#[0x73, 0, 0, 0]⟩ ["image", ""] []).run = .ok (.ok (m, p)) ∧
    m.guest.hart.regs.get stackPointer = .ok p.sp ∧ p.entry = 0 ∧ p.headers = 0 ∧ p.headerCount = 0 ∧
    ∃ first second random, LaidOut m.byteAt m.ramEnd p ["image", ""] [] [first, second] [] random
  := by
  have hother : Elf.hasMagic ⟨#[0x73, 0, 0, 0]⟩ = false := by decide
  obtain ⟨m, p, loaded⟩ := exists_load_image suits_default suits_default.affordable_standard hother (by decide) (by decide)
    (show stackRoom ["image", ""] [] ≤ _ by decide)
  obtain ⟨hpointer, describes, args, env, random, laidOut⟩ := stack_laid_out loaded
  cases describes with
  | parts reads entry headers count => cases reads.magic.symm.trans hother
  | image other entry headers count =>
  have harguments := laidOut.arguments
  have henvironment := laidOut.environment
  cases henvironment
  obtain _ | ⟨-, hrest⟩ := harguments
  obtain _ | ⟨-, hrest⟩ := hrest
  cases hrest
  exact ⟨m, p, loaded, hpointer, entry, headers, count, _, _, random, laidOut⟩

/-! ### Parts in RAM -/

/-- The parts of an executable file are loaded exactly.  All of them are in RAM below the stack, with
bytes of the file for no more than their memory.  Outside of the stack a byte of RAM is that of the last
part which has one for it, and zero if there is none.  The heap starts at a page boundary behind
all parts and below the stack, and the program is entered where the file says. -/
theorem parts_loaded_exactly (magic : Elf.hasMagic data = true)
    (loaded : (loadProgram config data argv envp services platform).run = .ok (.ok (m, p))) :
  ∃ h ps, Reads data h ps ∧
    (∀ q ∈ ps, q.isLoad = true → InPlace config.base p.stackBase data.size q) ∧
    (∀ a : Word, a.toNat < p.sp.toNat ∨ m.ramEnd ≤ a.toNat →
      (∀ q, IsLast (fun q => q.isLoad = true ∧ q.Backs a) ps q → m.byteAt a = q.byteFor data a) ∧
      ((∀ q ∈ ps, q.isLoad = true → ¬q.Backs a) → m.byteAt a = 0)) ∧
    p.brk.toNat % pageSize = 0 ∧ p.brk.toNat ≤ p.stackBase.toNat ∧
    (∀ q ∈ ps, q.isLoad = true → q.vaddr.toNat + q.memorySize.toNat ≤ p.brk.toNat) ∧
    m.guest.hart.regs.pc = h.entry
  := by
  obtain ⟨m₀, p₀, m₁, assembled⟩ := exists_assembled loaded
  obtain ⟨h, ps, holds⟩ := assembled.holdsParts magic
  have hbrk : p.brk = p₀.brk := by rw [assembled.program]
  have hentry : p.entry = p₀.entry := by rw [assembled.program]
  have hload {q : Elf.ProgramHeader} (mem : q ∈ ps) (load : q.isLoad = true) : q ∈ ps.filter (·.isLoad) :=
    List.mem_filter.mpr ⟨mem, load⟩
  refine ⟨h, ps, holds.reads, fun q mem load => holds.checked.inPlace q (hload mem load), fun a ha => ?_,
    ?_, ?_, fun q mem load => ?_, ?_⟩
  · rw [assembled.ram] at ha
    rw [assembled.built.kept a ha]
    exact holds.bytes a
  · rw [hbrk]
    apply holds.checked.whole rfl
  · rw [hbrk]
    exact assembled.placed.fits.1
  · rw [hbrk]
    apply holds.checked.ends q (hload mem load)
  · rw [assembled.pc, hentry, holds.entry]

/-- An executable file with two parts: eight bytes in a page of memory, and two bytes in the middle of
the eight. -/
def twoParts : ByteArray :=
  ⟨#[0x7f, 0x45, 0x4c, 0x46, 2, 1, 1, 0, 0, 0, 0, 0, 0, 0, 0, 0, 2, 0, 0xf3, 0, 0, 0, 0, 0,
    4, 0x10, 0, 0, 0, 0, 0, 0, 64, 0, 0, 0, 0, 0, 0, 0, 0, 0, 0, 0, 0, 0, 0, 0,
    0, 0, 0, 0, 0, 0, 56, 0, 2, 0, 0, 0, 0, 0, 0, 0,
    -- The program headers.
    1, 0, 0, 0, 5, 0, 0, 0, 0, 0, 0, 0, 0, 0, 0, 0, 0, 0x10, 0, 0, 0, 0, 0, 0, 0, 0x10, 0, 0, 0, 0, 0, 0,
    8, 0, 0, 0, 0, 0, 0, 0, 0, 0x10, 0, 0, 0, 0, 0, 0, 0, 0, 0, 0, 0, 0, 0, 0,
    1, 0, 0, 0, 5, 0, 0, 0, 4, 0, 0, 0, 0, 0, 0, 0, 2, 0x10, 0, 0, 0, 0, 0, 0, 2, 0x10, 0, 0, 0, 0, 0, 0,
    2, 0, 0, 0, 0, 0, 0, 0, 4, 0, 0, 0, 0, 0, 0, 0, 0, 0, 0, 0, 0, 0, 0, 0]⟩

theorem reads_twoParts :
  Reads twoParts
    { ident := [0x7f, 0x45, 0x4c, 0x46, 2, 1, 1, 0, 0, 0, 0, 0, 0, 0, 0, 0], type := 2, machine := 243,
      entry := 0x1004, tableOffset := 64, entrySize := 56, count := 2 }
    [{ type := 1, flags := 5, offset := 0, vaddr := 0x1000, fileSize := 8, memorySize := 0x1000 },
      { type := 1, flags := 5, offset := 4, vaddr := 0x1002, fileSize := 2, memorySize := 4 }]
  := ⟨by decide +kernel, by decide +kernel, by decide, by decide +kernel⟩

theorem exists_load_twoParts :
  ∃ m p, (loadProgram {} twoParts [] []).run = .ok (.ok (m, p))
  := by
  have hsize : twoParts.size = 176 := by decide +kernel
  refine exists_load suits_default suits_default.affordable_standard ?_ (.parts reads_twoParts (by decide) ?_) ?_ (by decide) (by decide)
  · rw [hsize]
    decide
  · rw [hsize, List.forall_mem_cons, List.forall_mem_singleton]
    constructor
    · exact fun _ => ⟨by decide, by decide, by decide, by decide⟩
    · exact fun _ => ⟨by decide, by decide, by decide, by decide⟩
  · rw [reads_twoParts.beyond_iff]
    rintro ⟨-, q, ⟨⟩, hbeyond⟩
    exact absurd hbeyond (by decide)

/-- The bytes of the first part, those of the second one over them, and zeros. -/
theorem parts_of_twoParts_loaded :
  ∃ m p, Elf.hasMagic twoParts = true ∧ (loadProgram {} twoParts [] []).run = .ok (.ok (m, p)) ∧
    m.guest.hart.regs.pc = 0x1004 ∧ 0x2000 ≤ p.brk.toNat ∧
    m.byteAt 0x1001 = 0x45 ∧ m.byteAt 0x1002 = 2 ∧ m.byteAt 0x1004 = 2 ∧ m.byteAt 0x1800 = 0
  := by
  obtain ⟨m, p, loaded⟩ := exists_load_twoParts
  obtain ⟨h, ps, reads, -, hbytes, -, hbrk, hends, hpc⟩ := parts_loaded_exactly (by decide +kernel) loaded
  obtain ⟨rfl, rfl⟩ := reads_twoParts.unique reads
  obtain ⟨m₀, p₀, m₁, assembled⟩ := exists_assembled loaded
  have hsp : p.sp.toNat = 0xffff60 := Nat.add_right_cancel (assembled.built.room : _ = 0xffff60 + 0xa0)
  rw [hsp] at hbytes
  refine ⟨m, p, reads.magic, loaded, hpc, hends _ (.head _) rfl, ?_, ?_, ?_, ?_⟩
  · rw [(hbytes 0x1001 (.inl (by decide))).1 _ ⟨[], _, rfl, by decide, by decide⟩]
    decide +kernel
  · rw [(hbytes 0x1002 (.inl (by decide))).1 _ ⟨[_], [], rfl, by decide, by decide⟩]
    decide +kernel
  · rw [(hbytes 0x1004 (.inl (by decide))).1 _ ⟨[], _, rfl, by decide, by decide⟩]
    decide +kernel
  · apply (hbytes 0x1800 (.inl (by decide))).2
    decide

end CrossHart.Userland
