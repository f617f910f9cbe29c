import CrossHart.Proofs.Hart.Integers
import CrossHart.Proofs.Hart.Pairing

/-!
# Atomic operations on memory

An atomic operation other than the two on the reservation replaces a number in memory by what its
definition makes of it and of a register, and leaves the old number in a register.  All of this is done
with words of 64 bits, whatever the width of the numbers.  It fails exactly at an address that is
misaligned, or on a page that is not there or may not be both read and written.
-/

namespace CrossHart

open CrossHart.Action Isa

/-! ### What atomic operations compute -/

namespace Isa

/-- The number of bits of an operand. -/
def Width.bits (width : Width) : Nat :=
  8 * width.size

theorem Width.bits_le (width : Width) :
  width.bits ≤ 64
  := by
  cases width <;> decide

/-- What an atomic operation makes of the number in memory and its operand, of `w` bits each. -/
def AmoOp.onIntegers (op : AmoOp) {w : Nat} (old src : BitVec w) : Int :=
  match op with
  | swap => src.toInt
  | add => old.toInt + src.toInt
  | xor => (old.toNat ^^^ src.toNat : Nat)
  | and => (old.toNat &&& src.toNat : Nat)
  | or => (old.toNat ||| src.toNat : Nat)
  | min => Min.min old.toInt src.toInt
  | max => Max.max old.toInt src.toInt
  | minu => (Min.min old.toNat src.toNat : Nat)
  | maxu => (Max.max old.toNat src.toNat : Nat)
  | lr | sc => old.toInt

end Isa

/-- Cutting a word to the width it was extended from. -/
theorem setWidth_signExtend {w v : Nat} (x : BitVec w) (h : w ≤ v) :
  (x.signExtend v).setWidth w = x
  := by
  apply BitVec.eq_of_getLsbD_eq
  intro i hi
  rw [BitVec.getLsbD_setWidth, BitVec.getLsbD_signExtend]
  simp [hi, Nat.lt_of_lt_of_le hi h]

namespace Hart

theorem extendTo_eq (width : Width) (v : Word) :
  extendTo width v = (v.setWidth width.bits).signExtend 64
  := by
  cases width with
  | word => rfl
  | double =>
    change v = (v.setWidth 64).signExtend 64
    rw [BitVec.setWidth_eq, BitVec.signExtend_eq]

theorem truncateTo_eq (width : Width) (v : Word) :
  truncateTo width v = (v.setWidth width.bits).setWidth 64
  := by
  cases width with
  | word => rfl
  | double =>
    change v = (v.setWidth 64).setWidth 64
    rw [BitVec.setWidth_eq, BitVec.setWidth_eq]

/-- What is written back, cut to the width of the operands, is what the definition says. -/
theorem setWidth_combine (op : AmoOp) {width : Width} (old src : BitVec width.bits) :
  (combine op width (old.signExtend 64) (src.signExtend 64)).setWidth width.bits =
    BitVec.ofInt width.bits (op.onIntegers old src)
  := by
  have hcut (x : BitVec width.bits) := setWidth_signExtend x width.bits_le
  have hsle (x y : BitVec width.bits) :
      (x.signExtend 64).sle (y.signExtend 64) = true ↔ x.toInt ≤ y.toInt := by
    rw [BitVec.sle_iff_toInt_le, BitVec.toInt_signExtend_of_le width.bits_le,
      BitVec.toInt_signExtend_of_le width.bits_le]
  have hult (x y : BitVec width.bits) :
      (truncateTo width (x.signExtend 64)).ult (truncateTo width (y.signExtend 64)) = true ↔
        x.toNat < y.toNat := by
    rw [truncateTo_eq, truncateTo_eq, hcut, hcut, BitVec.ult, decide_eq_true_eq,
      BitVec.toNat_setWidth_of_le width.bits_le, BitVec.toNat_setWidth_of_le width.bits_le]
  cases op with
  | lr => rw [combine, hcut, AmoOp.onIntegers, BitVec.ofInt_toInt]
  | sc => rw [combine, hcut, AmoOp.onIntegers, BitVec.ofInt_toInt]
  | swap => rw [combine, hcut, AmoOp.onIntegers, BitVec.ofInt_toInt]
  | add =>
    rw [combine, BitVec.setWidth_add _ _ width.bits_le, hcut, hcut]
    exact AluOp.add_eq old src
  | xor =>
    rw [combine, BitVec.setWidth_xor, hcut, hcut]
    exact AluOp.eq_ofInt_of_toNat (BitVec.toNat_xor old src)
  | and =>
    rw [combine, BitVec.setWidth_and, hcut, hcut]
    exact AluOp.eq_ofInt_of_toNat (BitVec.toNat_and old src)
  | or =>
    rw [combine, BitVec.setWidth_or, hcut, hcut]
    exact AluOp.eq_ofInt_of_toNat (BitVec.toNat_or old src)
  | min =>
    simp only [combine, hsle, AmoOp.onIntegers]
    split
    case isTrue hle => rw [hcut, Int.min_eq_left hle, BitVec.ofInt_toInt]
    case isFalse hlt => rw [hcut, Int.min_eq_right (by omega), BitVec.ofInt_toInt]
  | max =>
    simp only [combine, hsle, AmoOp.onIntegers]
    split
    case isTrue hle => rw [hcut, Int.max_eq_left hle, BitVec.ofInt_toInt]
    case isFalse hlt => rw [hcut, Int.max_eq_right (by omega), BitVec.ofInt_toInt]
  | minu =>
    simp only [combine, hult, AmoOp.onIntegers]
    split
    case isTrue hlt => rw [hcut, Nat.min_eq_left (Nat.le_of_lt hlt), ← AluOp.eq_ofInt_of_toNat rfl]
    case isFalse hle => rw [hcut, Nat.min_eq_right (Nat.le_of_not_lt hle), ← AluOp.eq_ofInt_of_toNat rfl]
  | maxu =>
    simp only [combine, hult, AmoOp.onIntegers]
    split
    case isTrue hlt => rw [hcut, Nat.max_eq_right (Nat.le_of_lt hlt), ← AluOp.eq_ofInt_of_toNat rfl]
    case isFalse hle => rw [hcut, Nat.max_eq_left (Nat.le_of_not_lt hle), ← AluOp.eq_ofInt_of_toNat rfl]

end Hart

/-! ### Accesses to one page -/

namespace Memory

variable {allows : Query → Bool} {m : Memory} {addr : Word} {access : Access} {size : Nat}

/-- The page of an address is there and allows an access. -/
def Space.Opens (s : Space) (allows : Query → Bool) (access : Access) (addr : Word) : Prop :=
  (s.resolve addr).isSome = true ∧ allows ⟨pageOf addr, access⟩ = true

theorem Honest.locate_open (honest : m.Honest allows) {page : Backing}
    (resolve : m.space.resolve addr = some page) (allowed : allows ⟨pageOf addr, access⟩ = true) :
  ∃ m', (Memory.locate addr access).on m = .ok (.ok (page.plus (inPage addr)), m') ∧
    m'.Honest allows ∧ m'.space = m.space
  := by
  obtain ⟨m', hlocate, honest', hspace⟩ := honest.locate addr access
  rw [Space.translate, resolve] at hlocate
  dsimp only at hlocate
  rw [if_pos allowed] at hlocate
  exact ⟨m', hlocate, honest', hspace⟩

theorem Honest.locate_closed (honest : m.Honest allows) (closed : ¬m.space.Opens allows access addr) :
  ∃ m', (Memory.locate addr access).on m = .ok (.error ⟨addr, access⟩, m') ∧ m'.Honest allows ∧
    m'.space = m.space
  := by
  obtain ⟨m', hlocate, honest', hspace⟩ := honest.locate addr access
  refine ⟨m', ?_, honest', hspace⟩
  rw [hlocate, Space.translate]
  cases hresolve : m.space.resolve addr with
  | none => rfl
  | some page =>
    dsimp only
    rw [if_neg]
    intro hallowed
    apply closed
    rw [Space.Opens, hresolve]
    exact ⟨rfl, hallowed⟩

theorem on_readAt_eq {b : Backing} {value : Word} {s : Space} (h : m.space.read b size = .ok (value, s)) :
  (readAt b size).on m = .ok (.ok value, ⟨m.lookaside, s, m.policy⟩)
  := by
  obtain ⟨lookaside, space, policy⟩ := m
  rw [readAt, on_of]
  dsimp only at h ⊢
  rw [h]

theorem on_writeAt_eq {b : Backing} {value : Word} {s : Space} (h : m.space.write b size value = .ok s) :
  (writeAt b size value).on m = .ok (.ok (), ⟨m.lookaside, s, m.policy⟩)
  := by
  obtain ⟨lookaside, space, policy⟩ := m
  rw [writeAt, on_of]
  dsimp only at h ⊢
  rw [h]

/-- A load within a page that may be read. -/
theorem Honest.load_open (honest : m.Honest allows) (whole : m.space.ram.size % pageSize = 0)
    (inside : straddles addr size = false) (small : size ≤ 8) {page : Backing}
    (resolve : m.space.resolve addr = some page) (allowed : allows ⟨pageOf addr, .read⟩ = true) :
  ∃ value m', (load addr size).on m = .ok (.ok value, m') ∧
    m.space.read (page.plus (inPage addr)) size = .ok (value, m'.space) ∧ m'.Honest allows
  := by
  obtain ⟨⟨value, s⟩, hread⟩ := ((Guarded.sound ⟨honest, whole⟩).fits resolve small inside).read
  obtain ⟨m₁, hlocate, honest₁, hspace⟩ := honest.locate_open resolve allowed
  refine ⟨value, ⟨m₁.lookaside, s, m₁.policy⟩, ?_, hread, ?_⟩
  · rw [load, read, if_neg (Bool.eq_false_iff.mp inside), on_bind, hlocate]
    apply on_readAt_eq
    rw [hspace]
    exact hread
  · apply honest₁.of_sameLayout
    rw [hspace]
    exact (m.space.read_sameLayout _ _).post_of_eq hread

/-- A store within a page that may be written. -/
theorem Honest.store_open (honest : m.Honest allows) (whole : m.space.ram.size % pageSize = 0)
    (inside : straddles addr size = false) (small : size ≤ 8) {page : Backing}
    (resolve : m.space.resolve addr = some page) (allowed : allows ⟨pageOf addr, .write⟩ = true)
    (value : Word) :
  ∃ m', (store addr size value).on m = .ok (.ok (), m') ∧
    m.space.write (page.plus (inPage addr)) size value = .ok m'.space ∧ m'.Honest allows
  := by
  obtain ⟨s, hwrite⟩ := ((Guarded.sound ⟨honest, whole⟩).fits resolve small inside).write value
  obtain ⟨m₁, hlocate, honest₁, hspace⟩ := honest.locate_open resolve allowed
  refine ⟨⟨m₁.lookaside, s, m₁.policy⟩, ?_, hwrite, ?_⟩
  · rw [store, if_neg (Bool.eq_false_iff.mp inside), on_bind, hlocate]
    apply on_writeAt_eq
    rw [hspace]
    exact hwrite
  · apply honest₁.of_sameLayout
    rw [hspace]
    exact (m.space.write_sameLayout _ _ _).post_of_eq hwrite

/-- What is written to RAM within a page replaces the bytes at its address. -/
theorem Space.Places.byteAt_of_write {s s' : Space} {position : Nat} {value : Word}
    (places : s.Places addr position) (inside : straddles addr size = false) (small : size ≤ 8)
    (h : s.write (.ram position) size value = .ok s') :
  s'.byteAt = scatter s.byteAt addr (Bytes.ofWord size value) ∧ s'.regions = s.regions
  := by
  obtain ⟨ram, base, regions⟩ := s
  have hfits : position + size ≤ ram.size := places.fits inside
  rw [Space.write, if_pos ⟨small, hfits⟩] at h
  cases h
  refine ⟨?_, rfl⟩
  apply places.byteAt_overwrite
  rwa [Bytes.ofWord, Bytes.length_littleEndian]

end Memory

/-! ### Instructions -/

theorem Guest.on_onMemory {ε α : Type} (raise : Memory.Fault → ε) {a : Action Memory Memory.Fault α}
    {g : Guest} {x : Except Memory.Fault α} {m : Memory} (h : a.on g.memory = .ok (x, m)) :
  (onMemory raise a).on g = .ok (x.mapError raise, ⟨g.hart, m⟩)
  := by
  obtain ⟨hart, memory⟩ := g
  rw [onMemory, on_of]
  dsimp only at h ⊢
  rw [h]
  cases x <;> rfl

namespace Hart

open Guest Memory

variable {g : Guest} {allows : Query → Bool} {addr : Word} {op : AmoOp} {width : Width}
  {rd rs1 rs2 : Nat}

theorem not_straddles_of_aligned (aligned : addr.toNat % width.size = 0) :
  straddles addr width.size = false
  := by
  simp only [straddles, decide_eq_false_iff_not, Nat.not_lt]
  rw [toNat_inPage, pageSize]
  cases width <;> simp only [Width.size] at aligned ⊢ <;> omega

/-- On a page that is not there or may not be both read and written, nothing happens. -/
theorem on_readModifyWrite_closed (honest : g.memory.Honest allows)
    (aligned : addr.toNat % width.size = 0)
    (closed : ¬(g.memory.space.Opens allows .read addr ∧ g.memory.space.Opens allows .write addr)) :
  ∃ m', (readModifyWrite op width rd rs2 addr).on g =
      .ok (.error ⟨.storeAccessFault, addr⟩, ⟨g.hart, m'⟩) ∧
    m'.Honest allows ∧ m'.space = g.memory.space
  := by
  have hinside := not_straddles_of_aligned aligned
  rw [readModifyWrite, on_bind, on_discard]
  by_cases hwrite : g.memory.space.Opens allows .write addr
  case neg =>
    obtain ⟨m', hlocate, honest', hspace⟩ := honest.locate_closed hwrite
    rw [on_onMemory _ hlocate]
    exact ⟨m', rfl, honest', hspace⟩
  case pos =>
    obtain ⟨page, hpage⟩ := Option.isSome_iff_exists.mp hwrite.1
    obtain ⟨m₁, hlocate, honest₁, hspace₁⟩ := honest.locate_open hpage hwrite.2
    have hread : ¬m₁.space.Opens allows .read addr := by
      rw [hspace₁]
      exact fun hread => closed ⟨hread, hwrite⟩
    obtain ⟨m', hlocate', honest', hspace'⟩ := honest₁.locate_closed hread
    have hload : (Memory.load addr width.size).on m₁ = .ok (.error ⟨addr, .read⟩, m') := by
      rw [Memory.load, Memory.read, if_neg (Bool.eq_false_iff.mp hinside), on_bind, hlocate']
    rw [on_onMemory _ hlocate]
    dsimp only [Except.mapError]
    rw [on_bind, on_onMemory _ hload]
    exact ⟨m', rfl, honest', hspace'.trans hspace₁⟩

/-- On a page that may be read and written, what is read is combined with the operand and written
back. -/
theorem on_readModifyWrite_open (honest : g.memory.Honest allows)
    (whole : g.memory.space.ram.size % pageSize = 0) (aligned : addr.toNat % width.size = 0)
    (hrd : rd < 32) (hrs2 : rs2 < 32) {page : Backing} (resolve : g.memory.space.resolve addr = some page)
    (readable : allows ⟨pageOf addr, .read⟩ = true) (writable : allows ⟨pageOf addr, .write⟩ = true) :
  ∃ raw s m', g.memory.space.read (page.plus (inPage addr)) width.size = .ok (raw, s) ∧
    s.write (page.plus (inPage addr)) width.size
      (combine op width (extendTo width raw) (extendTo width (g.value rs2))) = .ok m'.space ∧
    m'.Honest allows ∧
    (readModifyWrite op width rd rs2 addr).on g =
      .ok (.ok (), Guest.put ⟨g.hart, m'⟩ rd (extendTo width raw))
  := by
  have hinside := not_straddles_of_aligned aligned
  have hsmall := size_le_width width
  obtain ⟨m₁, hlocate, honest₁, hspace₁⟩ := honest.locate_open resolve writable
  obtain ⟨raw, m₂, hload, hread, honest₂⟩ := honest₁.load_open (by rwa [hspace₁]) hinside hsmall
    (by rwa [hspace₁]) readable
  rw [hspace₁] at hread
  have hlayout := (g.memory.space.read_sameLayout _ _).post_of_eq hread
  obtain ⟨m₃, hstore, hwrite, honest₃⟩ := honest₂.store_open (by rwa [hlayout.size]) hinside hsmall
    (by rwa [hlayout.resolve]) writable
    (combine op width (extendTo width raw) (extendTo width (g.value rs2)))
  refine ⟨raw, m₂.space, m₃, hread, hwrite, honest₃, ?_⟩
  rw [readModifyWrite, on_bind, on_discard, on_onMemory _ hlocate]
  dsimp only [Except.mapError]
  rw [on_bind, on_onMemory _ hload]
  dsimp only [Except.mapError]
  rw [on_bind, on_reg _ hrs2]
  dsimp only
  have hvalue : Guest.value ⟨g.hart, m₂⟩ rs2 = g.value rs2 := rfl
  rw [on_bind, hvalue, on_onMemory _ hstore]
  exact on_setReg _ hrd _

/-- The number of a width at an address. -/
def numberAt (s : Space) (width : Width) (addr : Word) : BitVec width.bits :=
  BitVec.ofNat width.bits (Bytes.ofLittleEndian (gather s.byteAt addr width.size))

/-- The number at an address was replaced by what an atomic operation makes of it and of a register.  The
old number, extended with its sign, is in `rd`, and all other bytes, registers and the reservation are as
before. -/
structure Modified (g : Guest) (d : Located) (op : AmoOp) (width : Width) (rd rs2 : Nat) (addr : Word)
    (g' : Guest) : Prop where
  layout : g.memory.space.SameLayout g'.memory.space
  bytes : g'.memory.space.byteAt = scatter g.memory.space.byteAt addr
    (Bytes.littleEndian width.size (BitVec.ofInt width.bits (op.onIntegers
      (numberAt g.memory.space width addr) ((g.value rs2).setWidth width.bits))).toNat)
  devices : g'.memory.space.regions = g.memory.space.regions
  hart : g'.hart = ((g.put rd ((numberAt g.memory.space width addr).signExtend 64)).goto d.next).hart

theorem ofWord_eq (width : Width) (v : Word) :
  Bytes.ofWord width.size v = Bytes.littleEndian width.size (v.setWidth width.bits).toNat
  := by
  have hpow : 2 ^ width.bits = 256 ^ width.size := by
    rw [Width.bits, Nat.pow_mul]
  rw [Bytes.ofWord, BitVec.toNat_setWidth, hpow, Bytes.littleEndian_mod]

theorem on_atomic (lr : op ≠ .lr) (sc : op ≠ .sc) (g : Guest) (lt : rs1 < 32) :
  (atomic op width rd rs1 rs2).on g =
    if (g.value rs1).toNat % width.size ≠ 0 then .ok (.error ⟨.storeMisaligned, g.value rs1⟩, g)
    else (readModifyWrite op width rd rs2 (g.value rs1)).on g
  := by
  rw [atomic, on_bind, on_reg g lt]
  dsimp only
  split
  case isTrue => rfl
  case isFalse =>
    cases op with
    | lr => exact absurd rfl lr
    | sc => exact absurd rfl sc
    | _ => rfl

/-- In RAM, what is read and written back are the bytes at the address. -/
theorem modified_of_ram {s : Space} {raw : Word} {m' : Memory} {page : Backing} (d : Located)
    (base : inPage g.memory.space.base = 0) (whole : g.memory.space.ram.size % pageSize = 0)
    (aligned : addr.toNat % width.size = 0) (resolve : g.memory.space.resolve addr = some page)
    (ram : g.memory.space.ramContains addr = true)
    (read : g.memory.space.read (page.plus (inPage addr)) width.size = .ok (raw, s))
    (write : s.write (page.plus (inPage addr)) width.size
      (combine op width (extendTo width raw) (extendTo width (g.value rs2))) = .ok m'.space) :
  Modified g d op width rd rs2 addr ((Guest.put ⟨g.hart, m'⟩ rd (extendTo width raw)).goto d.next)
  := by
  have hinside := not_straddles_of_aligned aligned
  obtain ⟨position, hposition⟩ : ∃ position, page.plus (inPage addr) = .ram position := by
    rw [Space.resolve, g.memory.space.ramContains_pageStart base whole, if_pos ram] at resolve
    cases resolve
    exact ⟨_, rfl⟩
  have hplaces := Space.places_of_resolve base whole resolve hposition
  rw [hposition, Space.read, if_pos ⟨size_le_width width, hplaces.fits hinside⟩] at read
  cases read
  rw [hposition] at write
  have hlayout := (g.memory.space.write_sameLayout _ _ _).post_of_eq write
  obtain ⟨hbytes, hregions⟩ := hplaces.byteAt_of_write hinside (size_le_width width) write
  have hnumber : (BitVec.ofNat 64 (Bytes.readNat g.memory.space.ram position width.size)).setWidth
      width.bits = numberAt g.memory.space width addr := by
    rw [BitVec.setWidth_ofNat_of_le width.bits_le, Bytes.readNat, hplaces.slice0_eq hinside, numberAt]
  constructor
  · exact hlayout
  · change m'.space.byteAt = _
    rw [hbytes, ofWord_eq, extendTo_eq, extendTo_eq, setWidth_combine, hnumber]
  · exact hregions
  · rw [extendTo_eq, hnumber]
    rfl

/-- An atomic operation on memory replaces the number at its address by what its definition makes of the
number and of a register, and leaves the old number in a register.  It fails if the address is misaligned,
or else if the page is not there or may not be read or written, and only then; nothing has changed then. -/
theorem modifications_follow_definition {d : Located} {aq rl : Bool}
    (instr : d.instr = .amo op width rd rs1 rs2 aq rl) (lr : op ≠ .lr) (sc : op ≠ .sc)
    (registers : rd < 32 ∧ rs1 < 32 ∧ rs2 < 32) (honest : g.memory.Honest allows)
    (whole : g.memory.space.ram.size % pageSize = 0) :
  ∃ r g', (step d).on g = .ok (r, g') ∧ g'.memory.Honest allows ∧
    ((g.value rs1).toNat % width.size ≠ 0 → r = .error ⟨.storeMisaligned, g.value rs1⟩ ∧ g' = g) ∧
    ((g.value rs1).toNat % width.size = 0 →
      ¬(g.memory.space.Opens allows .read (g.value rs1) ∧
        g.memory.space.Opens allows .write (g.value rs1)) →
      r = .error ⟨.storeAccessFault, g.value rs1⟩ ∧ g'.hart = g.hart ∧
        g'.memory.space = g.memory.space) ∧
    ((g.value rs1).toNat % width.size = 0 → g.memory.space.Opens allows .read (g.value rs1) →
      g.memory.space.Opens allows .write (g.value rs1) →
      r = .ok .continue ∧ (g.memory.space.ramContains (g.value rs1) = true →
        Modified g d op width rd rs2 (g.value rs1) g'))
  := by
  obtain ⟨hrd, hrs1, hrs2⟩ := registers
  have hstep : step d = atomic op width rd rs1 rs2 >>= fun _ => goto d.next := by
    rw [step, instr]
  rw [hstep, on_bind, on_atomic lr sc g hrs1]
  by_cases haligned : (g.value rs1).toNat % width.size = 0
  case neg =>
    rw [if_pos haligned]
    refine ⟨_, g, rfl, honest, fun _ => ⟨rfl, rfl⟩, ?_, ?_⟩
    · exact fun h => absurd h haligned
    · exact fun h => absurd h haligned
  case pos =>
    rw [if_neg (not_not_intro haligned)]
    by_cases hopen : g.memory.space.Opens allows .read (g.value rs1) ∧
        g.memory.space.Opens allows .write (g.value rs1)
    case neg =>
      obtain ⟨m', hmodify, honest', hspace⟩ := on_readModifyWrite_closed honest haligned hopen
      rw [hmodify]
      refine ⟨_, _, rfl, honest', ?_, ?_, ?_⟩
      · exact fun h => absurd haligned h
      · exact fun _ _ => ⟨rfl, rfl, hspace⟩
      · exact fun _ hread hwrite => absurd ⟨hread, hwrite⟩ hopen
    case pos =>
      obtain ⟨page, hpage⟩ := Option.isSome_iff_exists.mp hopen.1.1
      obtain ⟨raw, s, m', hread, hwrite, honest', hmodify⟩ := on_readModifyWrite_open honest whole
        haligned hrd hrs2 hpage hopen.1.2 hopen.2.2
      rw [hmodify]
      refine ⟨_, _, rfl, honest', ?_, ?_, ?_⟩
      · exact fun h => absurd haligned h
      · exact fun _ h => absurd hopen h
      · refine fun _ _ _ => ⟨rfl, fun hram => ?_⟩
        exact modified_of_ram d honest.aligned.base whole haligned hpage hram hread hwrite

/-- A guest with an address in `x1`, at which there is the least signed number of 32 bits, and a word in
`x2` whose low half is 1. -/
def holding : Guest where
  hart := { regs := (Registers.put {} 1 0x100).put 2 0xffffffff00000001 }
  memory := ⟨{}, ⟨Bytes.put (Bytes.zeros 0x1000) 0x103 0x80, 0, []⟩, .ofFun fun _ => true⟩

/-- The instruction `amominu.w x2, x2, (x1)`. -/
def lowering : Located :=
  ⟨0, 0xc020a12f, .amo .minu .word 2 1 2 false false, 4⟩

/-- The lesser of two numbers without a sign is written back, and the other one takes the place of the
operand. -/
theorem modifications_follow_definition_of_least :
  lowering.IsDecoded ∧ holding.memory.Honest (fun _ => true) ∧
  ∃ g', (step lowering).on holding = .ok (.ok .continue, g') ∧
    Modified holding lowering .minu .word 2 2 0x100 g' ∧
    g'.value 2 = 0xffffffff80000000 ∧ numberAt g'.memory.space .word 0x100 = 1
  := by
  have honest : holding.memory.Honest (fun _ => true) :=
    ⟨fun _ _ => rfl, ⟨rfl, fun _ h => absurd h List.not_mem_nil⟩, fun i e he => by simp [holding] at he⟩
  have hwhole : holding.memory.space.ram.size % pageSize = 0 := by decide +kernel
  have hopen (access : Access) : holding.memory.space.Opens (fun _ => true) access 0x100 :=
    ⟨by decide +kernel, rfl⟩
  have hvalues : ((step lowering).on holding).toOption.map
      (fun r => (r.2.value 2, numberAt r.2.memory.space .word 0x100)) =
        some (0xffffffff80000000, 1) := by decide +kernel
  obtain ⟨r, g', hstep, -, -, -, hdone⟩ := modifications_follow_definition (d := lowering) (g := holding)
    rfl (by decide) (by decide) (by decide) honest hwhole
  obtain ⟨rfl, hmodified⟩ := hdone (by decide) (hopen .read) (hopen .write)
  rw [hstep] at hvalues
  obtain ⟨hold, hnew⟩ := Prod.mk.inj (Option.some.inj hvalues)
  exact ⟨rfl, honest, g', hstep, hmodified (by decide +kernel), hold, hnew⟩

end Hart

end CrossHart
