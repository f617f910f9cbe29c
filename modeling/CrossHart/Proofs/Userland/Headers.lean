import CrossHart.Proofs.Bytes
import CrossHart.Proofs.Outcome
import CrossHart.Userland.Elf

/-!
# Headers are read within the file

The position, the size and the number of program headers are whatever a file says.  They are read at
positions that have to be sizes, from bytes that have to be in the file: anything else crashes.  This
never happens (`headers_read_within_file`).
-/

namespace CrossHart

namespace Bytes

variable {bytes : ByteArray} {start n : Nat}

/-- The string has all `n` bytes of a little-endian number at a position. -/
structure HasNumber (bytes : ByteArray) (start n v : Nat) : Prop where
  inside : start + n ≤ bytes.size
  fits : v < 256 ^ n
  has : Has bytes start (littleEndian n v)

section

variable (inside : start + n ≤ bytes.size) (lt : start + n < Word.count)
include inside lt

/-- Bytes are read if all of them are there. -/
theorem sliceWithin_eq :
  sliceWithin bytes start n = .ok (slice0 bytes start n)
  := by
  have hsum : Size.sum start n = .ok (start + n) := if_pos lt
  rw [sliceWithin, hsum, Except.ok_bind, if_pos inside]
  rfl

theorem numberWithin_eq :
  numberWithin bytes start n = .ok (readNat bytes start n)
  := by
  rw [numberWithin, sliceWithin_eq inside lt]
  rfl

theorem partWithin_eq :
  partWithin bytes start n = .ok (bytes.extract start (start + n))
  := by
  have hsum : Size.sum start n = .ok (start + n) := if_pos lt
  rw [partWithin, hsum, Except.ok_bind, if_pos inside]
  rfl

end

theorem partWithin_eq_ok {part : ByteArray} (h : partWithin bytes start n = .ok part) :
  start + n ≤ bytes.size ∧ part = bytes.extract start (start + n)
  := by
  obtain ⟨stop, hstop, h⟩ := Except.bind_eq_ok.mp h
  rw [Size.sum, Size.exact] at hstop
  split at hstop
  case isFalse => cases hstop
  cases hstop
  split at h
  case isFalse => cases h
  case isTrue hinside => exact ⟨hinside, (Except.ok.inj h).symm⟩

theorem hasNumber_readNat (inside : start + n ≤ bytes.size) :
  HasNumber bytes start n (readNat bytes start n)
  := by
  have hlt := readNat_lt bytes start n
  refine ⟨inside, hlt, ?_⟩
  rw [has_littleEndian_iff, Nat.mod_eq_of_lt hlt]

end Bytes

namespace Userland.Elf

open Bytes

variable {data : ByteArray}

theorem hasNumber_wordAt {start : Nat} (inside : start + 8 ≤ data.size) :
  HasNumber data start 8 (wordAt data start).toNat
  := by
  have hread : (wordAt data start).toNat = readNat data start 8 := by
    rw [wordAt, BitVec.toNat_ofNat]
    apply Nat.mod_eq_of_lt (readNat_lt data start 8)
  rw [hread]
  apply hasNumber_readNat inside

/-! ### The header of a file -/

/-- The fields of a header are at the start of a file. -/
structure Header.StoredIn (h : Header) (data : ByteArray) : Prop where
  ident : h.ident.length = 16 ∧ Has data 0 h.ident
  type : HasNumber data 16 2 h.type
  machine : HasNumber data 18 2 h.machine
  entry : HasNumber data 24 8 h.entry.toNat
  tableOffset : HasNumber data 32 8 h.tableOffset.toNat
  entrySize : HasNumber data 54 2 h.entrySize
  count : HasNumber data 56 2 h.count

theorem Header.readWithin_eq (data : ByteArray) :
  readWithin data = .ok (read data)
  := by
  unfold readWithin read
  split
  case isTrue => rfl
  case isFalse hlarge =>
    have hinside {start n : Nat} (h : start + n ≤ 64) : start + n ≤ data.size :=
      Nat.le_trans h (Nat.not_lt.mp hlarge)
    have hnumber {start n : Nat} (h : start + n ≤ 64) :
        numberWithin data start n = .ok (readNat data start n) :=
      numberWithin_eq (hinside h) (Nat.lt_of_le_of_lt h (by decide))
    rw [sliceWithin_eq (hinside (by decide)) (by decide), hnumber (by decide), hnumber (by decide),
      hnumber (by decide), hnumber (by decide), hnumber (by decide), hnumber (by decide)]
    rfl

theorem Header.exists_read (large : headerSize ≤ data.size) :
  ∃ h, read data = .ok h ∧ h.StoredIn data
  := by
  have hinside {start n : Nat} (h : start + n ≤ 64) : start + n ≤ data.size := Nat.le_trans h large
  refine ⟨_, if_neg (Nat.not_lt.mpr large), ?_⟩
  constructor
  · refine ⟨length_slice0 data 0 16, ?_⟩
    rw [Has, length_slice0]
  · apply hasNumber_readNat (hinside (by decide))
  · apply hasNumber_readNat (hinside (by decide))
  · apply hasNumber_wordAt (hinside (by decide))
  · apply hasNumber_wordAt (hinside (by decide))
  · apply hasNumber_readNat (hinside (by decide))
  · apply hasNumber_readNat (hinside (by decide))

/-! ### Program headers -/

/-- The fields of a program header are in a file from a position on. -/
structure ProgramHeader.StoredAt (p : ProgramHeader) (data : ByteArray) (start : Nat) : Prop where
  type : HasNumber data start 4 p.type
  flags : HasNumber data (start + 4) 4 p.flags
  offset : HasNumber data (start + 8) 8 p.offset.toNat
  vaddr : HasNumber data (start + 16) 8 p.vaddr.toNat
  fileSize : HasNumber data (start + 32) 8 p.fileSize.toNat
  memorySize : HasNumber data (start + 40) 8 p.memorySize.toNat

section

variable {start : Nat} (inside : start + programHeaderSize ≤ data.size)
include inside

theorem fieldWithin_eq (lt : start + programHeaderSize < Word.count) {distance n : Nat}
    (field : distance + n ≤ programHeaderSize) :
  fieldWithin data start distance n = .ok (readNat data (start + distance) n)
  := by
  have hinside : start + distance + n ≤ data.size := by omega
  have hsum : Size.sum start distance = .ok (start + distance) := if_pos (by omega)
  rw [fieldWithin, hsum, Except.ok_bind, numberWithin_eq hinside (by omega)]

theorem ProgramHeader.readWithin_eq (lt : start + programHeaderSize < Word.count) :
  readWithin data start = .ok (programHeaderAt data start)
  := by
  unfold readWithin
  rw [fieldWithin_eq inside lt (by decide), fieldWithin_eq inside lt (by decide),
    fieldWithin_eq inside lt (by decide), fieldWithin_eq inside lt (by decide),
    fieldWithin_eq inside lt (by decide), fieldWithin_eq inside lt (by decide)]
  rfl

theorem storedAt_programHeaderAt :
  (programHeaderAt data start).StoredAt data start
  := by
  rw [programHeaderSize] at inside
  constructor
  · apply hasNumber_readNat (by omega)
  · apply hasNumber_readNat (by omega)
  · apply hasNumber_wordAt (by omega)
  · apply hasNumber_wordAt (by omega)
  · apply hasNumber_wordAt (by omega)
  · apply hasNumber_wordAt (by omega)

end

theorem mapM_eq_ok {α β : Type} {f : α → Except Crash β} {g : α → β} {l : List α}
    (h : ∀ a ∈ l, f a = .ok (g a)) :
  l.mapM f = .ok (l.map g)
  := by
  induction l with
  | nil => rfl
  | cons a l ih =>
    rw [List.mapM_cons, h a List.mem_cons_self, ih fun a' ha' => h a' (List.mem_cons_of_mem a ha')]
    rfl

namespace Header

variable {h : Header}

/-- A program header is as long as the entries are, so the last one ends with the table. -/
theorem entry_inside (entry : programHeaderSize ≤ h.entrySize) {i : Nat} (hi : i < h.count) :
  h.tableOffset.toNat + i * h.entrySize + programHeaderSize ≤
    h.tableOffset.toNat + h.count * h.entrySize
  := by
  have hnext : i * h.entrySize + h.entrySize ≤ h.count * h.entrySize := by
    rw [← Nat.succ_mul]
    apply Nat.mul_le_mul_right _ hi
  omega

theorem programHeadersWithin_of_lt (lt : h.tableOffset.toNat + h.count * h.entrySize < Word.count) :
  h.programHeadersWithin data = .ok (h.programHeaders data)
  := by
  unfold programHeadersWithin programHeaders
  rw [if_neg (by omega : ¬Word.count ≤ h.count * h.entrySize), if_neg (Nat.not_le.mpr lt)]
  by_cases hentry : h.entrySize < programHeaderSize
  · rw [if_pos hentry, if_pos hentry]
  rw [if_neg hentry, if_neg hentry]
  by_cases htable : data.size < h.tableOffset.toNat + h.count * h.entrySize
  · rw [if_pos htable, if_pos htable]
  rw [if_neg htable, if_neg htable]
  rw [mapM_eq_ok (g := fun i => programHeaderAt data (h.tableOffset.toNat + i * h.entrySize))]
  · rfl
  intro i hi
  have hinside := entry_inside (Nat.not_lt.mp hentry) (List.mem_range.mp hi)
  have hdistance : Size.exact (i * h.entrySize) = .ok (i * h.entrySize) := if_pos (by omega)
  have hsum : Size.sum h.tableOffset.toNat (i * h.entrySize) =
      .ok (h.tableOffset.toNat + i * h.entrySize) := if_pos (by omega)
  rw [hdistance, Except.ok_bind, hsum, Except.ok_bind]
  apply ProgramHeader.readWithin_eq (by omega) (by omega)

theorem programHeadersWithin_of_le (le : Word.count ≤ h.tableOffset.toNat + h.count * h.entrySize) :
  h.programHeadersWithin data = .ok (.error .invalidPhdr)
  := by
  rw [programHeadersWithin, if_pos le, ite_self, ite_self]

/-- Program headers that are read are those of the file, however large it is. -/
theorem programHeaders_of_within {ps : List ProgramHeader}
    (within : h.programHeadersWithin data = .ok (.ok ps)) :
  h.programHeaders data = .ok ps
  := by
  by_cases hlt : h.tableOffset.toNat + h.count * h.entrySize < Word.count
  · rw [programHeadersWithin_of_lt hlt] at within
    exact Except.ok.inj within
  · rw [programHeadersWithin_of_le (Nat.not_lt.mp hlt)] at within
    cases within

theorem programHeaders_refused
    (h' : ¬(programHeaderSize ≤ h.entrySize ∧
      h.tableOffset.toNat + h.count * h.entrySize ≤ data.size)) :
  h.programHeaders data = .error .invalidPhdr
  := by
  unfold programHeaders
  split
  case isTrue => rfl
  case isFalse hentry =>
    apply if_pos
    by_contra htable
    apply h' ⟨Nat.not_lt.mp hentry, Nat.not_lt.mp htable⟩

theorem programHeadersWithin_eq (small : data.size < Word.count) :
  h.programHeadersWithin data = .ok (h.programHeaders data)
  := by
  by_cases hlt : h.tableOffset.toNat + h.count * h.entrySize < Word.count
  · exact programHeadersWithin_of_lt hlt
  · rw [programHeadersWithin_of_le (Nat.not_lt.mp hlt), programHeaders_refused]
    omega

theorem exists_programHeaders (entry : programHeaderSize ≤ h.entrySize)
    (table : h.tableOffset.toNat + h.count * h.entrySize ≤ data.size) :
  ∃ ps, h.programHeaders data = .ok ps ∧ ps.length = h.count ∧
    ∀ (i : Nat) (p : ProgramHeader), ps[i]? = some p →
      p.StoredAt data (h.tableOffset.toNat + i * h.entrySize)
  := by
  refine ⟨(List.range h.count).map fun i =>
    programHeaderAt data (h.tableOffset.toNat + i * h.entrySize), ?_, ?_, ?_⟩
  · rw [programHeaders, if_neg (Nat.not_lt.mpr entry), if_neg (Nat.not_lt.mpr table)]
  · rw [List.length_map, List.length_range]
  · intro i p hp
    rw [List.getElem?_map] at hp
    obtain ⟨j, hj, rfl⟩ := Option.map_eq_some_iff.mp hp
    obtain ⟨hi, rfl⟩ := List.getElem?_eq_some_iff.mp hj
    rw [List.length_range] at hi
    rw [List.getElem_range]
    apply storedAt_programHeaderAt (Nat.le_trans (entry_inside entry hi) table)

end Header

/-- Whatever bytes a file has, no byte outside of it is asked for and no position is too large for a size.
The header is read if the file has 64 bytes.  The program headers are read, as many as the header says, if
each has 56 bytes and the last one ends within the file; each is where the header says. -/
theorem headers_read_within_file {data : ByteArray} (small : data.size < Word.count) :
  (Header.readWithin data = .ok (Header.read data) ∧
    (data.size < 64 → Header.read data = .error .tooSmall) ∧
    (64 ≤ data.size → ∃ h, Header.read data = .ok h ∧ h.StoredIn data)) ∧
  ∀ h : Header,
    h.programHeadersWithin data = .ok (h.programHeaders data) ∧
    (¬(56 ≤ h.entrySize ∧ h.tableOffset.toNat + h.count * h.entrySize ≤ data.size) →
      h.programHeaders data = .error .invalidPhdr) ∧
    (56 ≤ h.entrySize → h.tableOffset.toNat + h.count * h.entrySize ≤ data.size →
      ∃ ps, h.programHeaders data = .ok ps ∧ ps.length = h.count ∧
        ∀ (i : Nat) (p : ProgramHeader), ps[i]? = some p →
          p.StoredAt data (h.tableOffset.toNat + i * h.entrySize))
  := by
  constructor
  · refine ⟨Header.readWithin_eq data, ?_, ?_⟩
    · intro hshort
      apply if_pos hshort
    · apply Header.exists_read
  · intro h
    refine ⟨Header.programHeadersWithin_eq small, ?_, ?_⟩
    · apply Header.programHeaders_refused
    · apply Header.exists_programHeaders

/-- A file of a header and two program headers of 57 bytes each, which end with the file. -/
def wideEntries : ByteArray :=
  ⟨(List.replicate 32 0 ++ ofWord 8 64 ++ List.replicate 14 0 ++ littleEndian 2 57 ++
    littleEndian 2 2 ++ List.replicate 6 0 ++ List.replicate 114 7).toArray⟩

/-- Both program headers of the file are read.  If they were at the last address, none would be. -/
theorem headers_read_within_wideEntries :
  wideEntries.size < Word.count ∧
  ∃ (h : Header) (ps : List ProgramHeader), Header.readWithin wideEntries = .ok (.ok h) ∧
    h.StoredIn wideEntries ∧ h.programHeadersWithin wideEntries = .ok (.ok ps) ∧ ps.length = 2 ∧
    (∀ p, ps[1]? = some p → p.StoredAt wideEntries 121) ∧
    { h with tableOffset := 0xffffffffffffffff }.programHeadersWithin wideEntries =
      .ok (.error .invalidPhdr)
  := by
  have hsize : wideEntries.size = 178 := by decide +kernel
  have hsmall : wideEntries.size < Word.count := by
    rw [hsize]
    decide
  have hfields : (Header.read wideEntries).toOption.map (fun h => (h.entrySize, h.count, h.tableOffset)) =
      some (57, 2, 64) := by decide +kernel
  obtain ⟨⟨hwithin, -, hlarge⟩, htable⟩ := headers_read_within_file hsmall
  rw [hsize] at hlarge htable
  obtain ⟨h, hread, hstored⟩ := hlarge (by decide)
  rw [hread] at hwithin hfields
  obtain ⟨hentry, hfields⟩ := Prod.mk.inj (Option.some.inj hfields)
  obtain ⟨hcount, hoffset⟩ := Prod.mk.inj hfields
  obtain ⟨heq, -, hfit⟩ := htable h
  rw [hentry, hcount, hoffset] at hfit
  obtain ⟨ps, hps, hlength, hparts⟩ := hfit (by decide) (by decide)
  obtain ⟨heq', hrefused, -⟩ := htable { h with tableOffset := 0xffffffffffffffff }
  refine ⟨hsmall, h, ps, hwithin, hstored, heq.trans (congrArg _ hps), hlength, hparts 1, ?_⟩
  rw [heq', hrefused]
  rintro ⟨-, hfits⟩
  dsimp only at hfits
  rw [hentry, hcount] at hfits
  exact absurd hfits (by decide)

end Userland.Elf

end CrossHart
