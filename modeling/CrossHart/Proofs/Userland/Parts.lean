import CrossHart.Proofs.Userland.Contents
import CrossHart.Proofs.Userland.Segments

/-!
# The parts of a program

What RAM holds after a program was copied into a new machine, before there is a stack.  The parts of an
executable file are copied one after the other, so a byte of RAM is that of the last part which has one
for it.  All parts are in RAM below the stack, and the heap starts behind them.
-/

namespace CrossHart

/-- The address behind the RAM of a configuration, whose size is a word. -/
def Config.reach (config : Config) : Nat :=
  config.base.toNat + Size.roundUp (config.memorySize % Word.count) Memory.pageSize

namespace Userland

open Loading
open Memory (pageSize pageStart inPage)

variable {config : Config} {services : Host.Services} {platform : Host.Platform} {data : ByteArray}
variable {policy : Memory.Policy} {m m' : Machine} {p : Program}
variable {base stackBase : Word} {low high : Nat}

/-! ### New machines -/

/-- A machine has the RAM that a configuration asks for. -/
structure Equips (config : Config) (m : Machine) : Prop where
  base : m.base = config.base
  stop : m.ramEnd = config.reach
  aligned : inPage config.base = 0

/-- The RAM of a new machine holds zeros. -/
theorem equips_of_create (created : (create config policy services platform).run = .ok (.ok m)) :
  Equips config m ∧ ∀ a, m.byteAt a = 0
  := by
  obtain ⟨r, hr, created⟩ := run_bind_eq_ok.mp created
  cases r with
  | error e => cases created
  | ok m' =>
  cases created
  obtain ⟨space, hspace, hr⟩ := Except.bind_eq_ok.mp (run_lift_eq_ok.mp hr)
  have hm : m.guest.memory.space = space := by
    cases hmode : config.mode with
    | interpret =>
      rw [hmode] at hr
      cases hr
      rfl
    | jit =>
      rw [hmode] at hr
      obtain ⟨c, -, hr⟩ := Except.bind_eq_ok.mp hr
      cases c with
      | none => cases hr
      | some c =>
        cases hr
        rfl
  obtain ⟨haligned, -, rfl⟩ := Memory.Space.eq_of_create hspace
  refine ⟨⟨?_, ?_, haligned⟩, fun a => ?_⟩
  · rw [Machine.base, hm]
  · rw [Machine.ramEnd, Machine.base, Machine.ram, hm, Bytes.size_zeros]
    rfl
  · rw [Machine.byteAt, hm, Memory.Space.byteAt, Bytes.at0_eq_getD, Bytes.data_zeros,
      Array.getElem?_replicate]
    split <;> rfl

/-- RAM does not change its place when bytes are copied into it. -/
theorem Equips.wrote {start stop : Nat} (equips : Equips config m) (wrote : Wrote start stop m m') :
  Equips config m'
  := ⟨wrote.base.trans equips.base, wrote.ramEnd.trans equips.stop, equips.aligned⟩

theorem Equips.spans (equips : Equips config m) (below : config.reach < Word.count) :
  Spans config.base.toNat config.reach m
  := by
  have hstop := equips.stop
  rw [Machine.ramEnd, equips.base] at hstop
  exact ⟨congrArg BitVec.toNat equips.base, hstop, below⟩

/-! ### Parts that are checked -/

theorem le_roundUp (n : Nat) :
  n ≤ Size.roundUp n pageSize
  := by
  unfold Size.roundUp pageSize
  omega

/-- Up to a page boundary, whole pages are not more than single bytes. -/
theorem roundUp_le {n stop : Nat} (whole : stop % pageSize = 0) (h : n ≤ stop) :
  Size.roundUp n pageSize ≤ stop
  := by
  unfold Size.roundUp
  unfold pageSize at *
  omega

theorem toNat_later (a b : Word) :
  (if a.ult b then b else a).toNat = max a.toNat b.toNat
  := by
  rw [BitVec.ult]
  split
  case isTrue h => exact (Nat.max_eq_right (Nat.le_of_lt (of_decide_eq_true h))).symm
  case isFalse h => exact (Nat.max_eq_left (Nat.le_of_not_lt (h ∘ decide_eq_true))).symm

/-- The parts of a file of a size are in place, and the heap starts behind all of them and behind an
address, at a page boundary below the stack. -/
structure Checked (base stackBase : Word) (size : Nat) (ps : List Elf.ProgramHeader) (first brk : Word) :
    Prop where
  inPlace : ∀ q ∈ ps, InPlace base stackBase size q
  ends : ∀ q ∈ ps, q.vaddr.toNat + q.memorySize.toNat ≤ brk.toNat
  le : first.toNat ≤ brk.toNat
  whole : first.toNat % pageSize = 0 → brk.toNat % pageSize = 0
  below : stackBase.toNat % pageSize = 0 → first.toNat ≤ stackBase.toNat → brk.toNat ≤ stackBase.toNat

theorem checked_of_checkParts {size : Nat} {ps : List Elf.ProgramHeader} {segments segments' : Segments}
    {first brk : Word}
    (checked : (checkParts base stackBase size ps segments first).run = .ok (.ok (segments', brk))) :
  Checked base stackBase size ps first brk
  := by
  induction ps generalizing segments first with
  | nil =>
    cases checked
    exact ⟨fun _ h => absurd h List.not_mem_nil, fun _ h => absurd h List.not_mem_nil, Nat.le_refl _, id,
      fun _ h => h⟩
  | cons q ps ih =>
    unfold checkParts at checked
    dsimp only at checked
    split at checked
    · cases checked
    case isFalse hplace =>
    split at checked
    · cases checked
    case isFalse hfile =>
    rw [BitVec.ult, decide_eq_true_iff] at hplace hfile
    have hq : InPlace base stackBase size q := by constructor <;> omega
    obtain ⟨segments₁, -, checked⟩ := run_bind_eq_ok.mp checked
    obtain ⟨stop, hstop, checked⟩ := run_bind_eq_ok.mp checked
    have hlt : stackBase.toNat < Word.count := stackBase.isLt
    replace hstop : stop.toNat = Size.roundUp (q.vaddr.toNat + q.memorySize.toNat) pageSize := by
      rw [Memory.toNat_of_pageUp (run_lift_eq_ok.mp hstop),
        BitVec.toNat_add_of_lt (Nat.lt_of_le_of_lt hq.stop hlt)]
    obtain ⟨hinPlace, hends, hle, hwhole, hbelow⟩ := ih checked
    rw [toNat_later, hstop] at hle hwhole hbelow
    have hend := le_roundUp (q.vaddr.toNat + q.memorySize.toNat)
    refine ⟨List.forall_mem_cons.mpr ⟨hq, hinPlace⟩, List.forall_mem_cons.mpr ⟨?_, hends⟩, ?_,
      fun h => hwhole ?_, fun h h' => hbelow h ?_⟩
    · omega
    · omega
    · unfold Size.roundUp pageSize at *
      omega
    · have := roundUp_le h hq.stop
      omega

/-! ### Parts that are copied -/

/-- A part has a byte of the file for an address. -/
def Elf.ProgramHeader.Backs (q : Elf.ProgramHeader) (a : Word) : Prop :=
  q.vaddr.toNat ≤ a.toNat ∧ a.toNat < q.vaddr.toNat + q.fileSize.toNat

instance (q : Elf.ProgramHeader) (a : Word) : Decidable (q.Backs a) :=
  inferInstanceAs (Decidable (_ ∧ _))

/-- The byte of a file that a part has for an address. -/
def Elf.ProgramHeader.byteFor (q : Elf.ProgramHeader) (data : ByteArray) (a : Word) : UInt8 :=
  Bytes.at0 data (q.offset.toNat + (a.toNat - q.vaddr.toNat))

/-- Copying a part changes the bytes that it has, and no others. -/
theorem byteAt_of_copyPart (spans : Spans low high m) {q : Elf.ProgramHeader}
    (file : q.offset.toNat + q.fileSize.toNat ≤ data.size)
    (copied : (copy m q.vaddr (data.extract q.offset.toNat (q.offset.toNat + q.fileSize.toNat))).run =
      .ok (.ok m')) (a : Word) :
  (q.Backs a → m'.byteAt a = q.byteFor data a) ∧ (¬q.Backs a → m'.byteAt a = m.byteAt a)
  := by
  have hsize : (data.extract q.offset.toNat (q.offset.toNat + q.fileSize.toNat)).size =
      q.fileSize.toNat := by
    rw [ByteArray.size_extract]
    omega
  replace copied := copied_of_copy spans copied
  constructor
  · rintro ⟨hstart, hstop⟩
    have hlength : a.toNat < q.vaddr.toNat +
        (data.extract q.offset.toNat (q.offset.toNat + q.fileSize.toNat)).data.toList.length := by
      change _ < _ + ByteArray.size _
      omega
    rw [copied.bytes, Memory.scatter_of_inside hstart hlength, List.getD_eq_getElem?_getD,
      Array.getElem?_toList, ← Bytes.at0_eq_getD, Bytes.at0_extract file, if_pos (by omega)]
    rfl
  · intro hnot
    apply copied.kept
    unfold Elf.ProgramHeader.Backs at hnot
    omega

/-- What RAM holds after parts were copied: the byte of the last part that has one, and what it held
before if there is no such part. -/
theorem byteAt_of_copyParts (spans : Spans low high m) {ps : List Elf.ProgramHeader}
    (copied : (copyParts data ps m).run = .ok (.ok m')) (a : Word) :
  (∀ q, IsLast (·.Backs a) ps q → m'.byteAt a = q.byteFor data a) ∧
    ((∀ q ∈ ps, ¬q.Backs a) → m'.byteAt a = m.byteAt a)
  := by
  induction ps generalizing m with
  | nil =>
    cases copied
    refine ⟨?_, fun _ => rfl⟩
    rintro q ⟨before, after, h, -⟩
    exact absurd h.symm (List.append_ne_nil_of_right_ne_nil _ (List.cons_ne_nil _ _))
  | cons q ps ih =>
    obtain ⟨part, hpart, copied⟩ := run_bind_eq_ok.mp copied
    obtain ⟨hq, rfl⟩ := Bytes.partWithin_eq_ok (run_lift_eq_ok.mp hpart)
    obtain ⟨m₁, hm₁, copied⟩ := run_bind_eq_ok.mp copied
    obtain ⟨hbacks, hnot⟩ := byteAt_of_copyPart spans hq hm₁ a
    obtain ⟨hlast, hnone⟩ := ih (spans.wrote (copied_of_copy spans hm₁).toWrote) copied
    constructor
    · intro q' h
      obtain h | ⟨hrest, hq', rfl⟩ := isLast_cons h
      · exact hlast q' h
      · rw [hnone hrest, hbacks hq']
    · intro h
      obtain ⟨hq', hrest⟩ := List.forall_mem_cons.mp h
      rw [hnone hrest, hnot hq']

theorem wrote_of_copyParts (spans : Spans low high m) {ps : List Elf.ProgramHeader}
    (copied : (copyParts data ps m).run = .ok (.ok m')) :
  Wrote low high m m'
  := by
  induction ps generalizing m with
  | nil =>
    cases copied
    exact .rfl
  | cons q ps ih =>
    obtain ⟨part, -, copied⟩ := run_bind_eq_ok.mp copied
    obtain ⟨m₁, hm₁, copied⟩ := run_bind_eq_ok.mp copied
    have hcopied := copied_of_copy spans hm₁
    apply (hcopied.toWrote.mono hcopied.start hcopied.stop).trans
    apply ih (spans.wrote hcopied.toWrote) copied

/-! ### Executable files -/

/-- Where the program headers are in memory: where the last one that says so says, or else as far behind
the start of a page as they are in the file, the page of the first part that is loaded. -/
inductive HeadersAt (h : Elf.Header) (ps : List Elf.ProgramHeader) : Word → Prop
  | said {q : Elf.ProgramHeader} (last : IsLast (·.isSelf = true) ps q) (some : q.vaddr ≠ 0) :
    HeadersAt h ps q.vaddr
  | behind {q : Elf.ProgramHeader} {addr : Word} (unsaid : ∀ q, IsLast (·.isSelf = true) ps q → q.vaddr = 0)
    (first : ps.find? (·.isLoad) = some q)
    (place : addr.toNat = (pageStart q.vaddr).toNat + h.tableOffset.toNat) : HeadersAt h ps addr

theorem headersAt_of_headersAddress {h : Elf.Header} {ps : List Elf.ProgramHeader} {addr : Word}
    (some : ∃ q ∈ ps, q.isLoad = true) (found : headersAddress h ps = .ok addr) :
  HeadersAt h ps addr
  := by
  have hlast (q : Elf.ProgramHeader) :
      (ps.filter (·.isSelf)).getLast? = .some q ↔ IsLast (·.isSelf = true) ps q := by
    rw [isLast_iff_find?, ← List.head?_filter, List.filter_reverse, List.head?_reverse]
  unfold headersAddress at found
  dsimp only at found
  split at found
  case h_1 addr' hsaid =>
    cases found
    obtain ⟨hmap, hne⟩ := Option.filter_eq_some_iff.mp hsaid
    obtain ⟨q, hq, rfl⟩ := Option.map_eq_some_iff.mp hmap
    exact .said ((hlast q).mp hq) (of_decide_eq_true hne)
  case h_2 q hsaid hfirst =>
    refine .behind (fun q' hq' => ?_) hfirst (Word.toNat_of_sum found)
    have hzero := Option.filter_eq_none_iff.mp hsaid q'.vaddr
      (Option.map_eq_some_iff.mpr ⟨q', (hlast q').mpr hq', rfl⟩)
    simpa using hzero
  case h_3 hnone =>
    obtain ⟨q, hq, hload⟩ := some
    exact absurd hload (List.find?_eq_none.mp hnone q hq)

/-- A program has its heap below an address. -/
def Program.Fits (p : Program) (stackBase : Word) : Prop :=
  p.brk.toNat ≤ stackBase.toNat ∧ p.stackBase = stackBase

/-- An executable file is in a machine, and a program is what its header says. -/
structure HoldsParts (config : Config) (data : ByteArray) (stackBase : Word) (h : Elf.Header)
    (ps : List Elf.ProgramHeader) (m : Machine) (p : Program) : Prop where
  reads : Reads data h ps
  checked : Checked config.base stackBase data.size (ps.filter (·.isLoad)) 0 p.brk
  equips : Equips config m
  bytes : ∀ a, (∀ q, IsLast (fun q => q.isLoad = true ∧ q.Backs a) ps q → m.byteAt a = q.byteFor data a) ∧
    ((∀ q ∈ ps, q.isLoad = true → ¬q.Backs a) → m.byteAt a = 0)
  entry : p.entry = h.entry
  headers : HeadersAt h ps p.headers
  count : p.headerCount = h.count
  stackBase_eq : p.stackBase = stackBase

theorem holdsParts_of_loadElf (magic : Elf.hasMagic data = true) (below : config.reach < Word.count)
    (loaded : (loadElf config data stackBase services platform).run = .ok (.ok (m, p))) :
  ∃ h ps, HoldsParts config data stackBase h ps m p
  := by
  unfold loadElf at loaded
  obtain ⟨header', within, loaded⟩ := run_bind_eq_ok.mp loaded
  obtain ⟨h, header, loaded⟩ := run_bind_eq_ok.mp loaded
  rw [run_lift_eq_ok, Elf.Header.readWithin_eq, run_ofElf_eq_ok.mp header] at within
  replace header := Except.ok.inj within
  obtain ⟨⟨⟩, valid, loaded⟩ := run_bind_eq_ok.mp loaded
  obtain ⟨table', within, loaded⟩ := run_bind_eq_ok.mp loaded
  obtain ⟨ps, table, loaded⟩ := run_bind_eq_ok.mp loaded
  rw [run_lift_eq_ok, run_ofElf_eq_ok.mp table] at within
  replace table := Elf.Header.programHeaders_of_within within
  obtain ⟨headers, hheaders, loaded⟩ := run_bind_eq_ok.mp loaded
  dsimp only at loaded
  split at loaded
  · cases loaded
  case isFalse hsome =>
  obtain ⟨⟨segments, brk⟩, checked, loaded⟩ := run_bind_eq_ok.mp loaded
  obtain ⟨m₁, created, loaded⟩ := run_bind_eq_ok.mp loaded
  obtain ⟨m₂, copied, loaded⟩ := run_bind_eq_ok.mp loaded
  cases loaded
  replace checked := checked_of_checkParts checked
  obtain ⟨equips, hzero⟩ := equips_of_create created
  have spans := equips.spans below
  have hload : ∃ q ∈ ps, q.isLoad = true := by
    rw [List.isEmpty_iff] at hsome
    obtain ⟨q, hq⟩ := List.exists_mem_of_ne_nil _ hsome
    exact ⟨q, List.mem_filter.mp hq⟩
  refine ⟨h, ps, ⟨magic, header, run_ofElf_eq_ok.mp valid, table⟩,
    checked, equips.wrote (wrote_of_copyParts spans copied), fun a => ?_, rfl,
    headersAt_of_headersAddress hload (run_lift_eq_ok.mp hheaders), rfl, rfl⟩
  obtain ⟨hlast, hnone⟩ := byteAt_of_copyParts spans copied a
  refine ⟨fun q hq => hlast q hq.filter, fun hq => ?_⟩
  rw [hnone, hzero]
  intro q hmem
  obtain ⟨hmem, hq'⟩ := List.mem_filter.mp hmem
  exact hq q hmem hq'

/-! ### Images -/

/-- An image is in a machine, and a program is entered at its start. -/
structure HoldsImage (config : Config) (data : ByteArray) (stackBase : Word) (m : Machine) (p : Program) :
    Prop where
  equips : Equips config m
  fits : config.base.toNat + data.size ≤ stackBase.toNat
  brk : p.brk.toNat = Size.roundUp (config.base.toNat + data.size) pageSize
  entry : p.entry = config.base
  headers : p.headers = 0
  count : p.headerCount = 0
  stackBase_eq : p.stackBase = stackBase

theorem holdsImage_of_loadFlat (below : config.reach < Word.count)
    (loaded : (loadFlat config data stackBase services platform).run = .ok (.ok (m, p))) :
  HoldsImage config data stackBase m p
  := by
  unfold loadFlat at loaded
  obtain ⟨stop, hstop, loaded⟩ := run_bind_eq_ok.mp loaded
  dsimp only at loaded
  split at loaded
  · cases loaded
  case isFalse hfits =>
  obtain ⟨m₁, created, loaded⟩ := run_bind_eq_ok.mp loaded
  obtain ⟨m₂, copied, loaded⟩ := run_bind_eq_ok.mp loaded
  obtain ⟨brk, hbrk, loaded⟩ := run_bind_eq_ok.mp loaded
  cases loaded
  obtain ⟨equips, -⟩ := equips_of_create created
  replace copied := copied_of_copy (equips.spans below) copied
  -- The image is in RAM, so its size is a word.
  have hsize : data.size < Word.count := by
    have := copied.stop
    omega
  replace hstop : stop.toNat = config.base.toNat + data.size := by
    rw [Word.toNat_of_sum (run_lift_eq_ok.mp hstop), BitVec.toNat_ofNat, Nat.mod_eq_of_lt hsize]
  rw [BitVec.ult, decide_eq_true_iff, Nat.not_lt, hstop] at hfits
  refine ⟨equips.wrote copied.toWrote, hfits, ?_, rfl, rfl, rfl, rfl⟩
  rw [Memory.toNat_of_pageUp (run_lift_eq_ok.mp hbrk), hstop]

end Userland

end CrossHart
