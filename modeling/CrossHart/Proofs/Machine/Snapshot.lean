import CrossHart.Machine.Snapshot
import CrossHart.Proofs.Bytes
import CrossHart.Proofs.Outcome
import Mathlib.Data.List.GetD

/-!
# Snapshots as bytes

The bytes of a snapshot are read back as that snapshot, whatever follows them, and no fewer bytes
will do.  Which strings start with a snapshot is stated field by field, without reference to the
reader, and what is read from such a string is written again as the bytes that were read, but for
the flags.

* The reader is a sequence of fields and demands.  A string that breaks off is read like the whole
  string, up to the point where bytes are missing.
* The header of a snapshot stands at the front of a string exactly if each field is read as the
  snapshot has it.
-/

namespace CrossHart.Snapshot

open Bytes

/-! ### The reader as fields and demands -/

/-- A demand on what was read. -/
def ensure (p : Prop) [Decidable p] (e : SnapshotError) : Except SnapshotError Unit :=
  if p then .ok () else .error e

/-- The registers, if there are as many bytes. -/
def registers? (data : ByteArray) : Except SnapshotError (Vector Word 32) :=
  (Vector.range 32).mapM fun i => word? data (8 + 8 * i)

/-- Reading a snapshot is reading its fields in order, with a demand after some of them. -/
theorem read_eq (data : ByteArray) :
  read data = (do
    let _ ← number? data 0 4
    let _ ← ensure (slice0 data 0 4 = magic) .badMagic
    let v ← number? data 4 2
    let _ ← ensure (v = version) (.version v)
    let _ ← number? data 6 2
    let x ← registers? data
    let _ ← ensure (x.get 0 = 0) (.nonZeroX0 (x.get 0))
    let pc ← word? data 264
    let base ← word? data 272
    let len ← number? data 280 8
    let _ ← ensure (len ≤ maxLength) (.sizeMismatch len maxLength)
    let _ ← ensure (headerSize + len ≤ data.size) .tooShort
    .ok (⟨⟨x, pc⟩, base, data.extract headerSize (headerSize + len)⟩, headerSize + len))
  := by
  have hdemand {α : Type} (p : Prop) [Decidable p] (e : SnapshotError)
      (f : Unit → Except SnapshotError α) :
      (ensure p e >>= f) = if p then f () else throw e >>= f := by
    unfold ensure
    split <;> rfl
  have hdiscard {α β : Type} (x : Except SnapshotError α) (f : Except SnapshotError β) :
      (discard x >>= fun _ => f) = x >>= fun _ => f := by
    cases x <;> rfl
  unfold read
  simp only [hdemand, hdiscard, ne_eq, ite_not, ← Nat.not_le]
  rfl

/-- The word at a position, with zero bytes past the end. -/
def word (data : ByteArray) (start : Nat) : Word :=
  BitVec.ofNat 64 (readNat data start 8)

/-- The words at the place of the registers. -/
def registers (data : ByteArray) : Vector Word 32 :=
  (Vector.range 32).map fun i => word data (8 + 8 * i)

theorem registers_zero (data : ByteArray) :
  (registers data).get 0 = word data 8
  := by
  change (registers data)[0] = _
  rw [registers, Vector.getElem_map, Vector.getElem_range]

theorem registers_congr {data data' : ByteArray}
    (same : ∀ i, i < 32 → word data (8 + 8 * i) = word data' (8 + 8 * i)) :
  registers data = registers data'
  := by
  apply Vector.ext
  intro i hi
  rw [registers, registers, Vector.getElem_map, Vector.getElem_map, Vector.getElem_range]
  exact same i hi

theorem of_ite_eq_ok {α : Type} {p : Prop} [Decidable p] {a b : α} {e : SnapshotError}
    (h : (if p then .ok a else .error e : Except SnapshotError α) = .ok b) :
  p
  := by
  split at h
  · assumption
  · cases h

theorem word?_eq {data : ByteArray} {start : Nat} :
  word? data start = if start + 8 ≤ data.size then .ok (word data start) else .error .tooShort
  := by
  unfold word? number?
  split <;> rfl

theorem mapM_word? (data : ByteArray) (is : List Nat) :
  is.mapM (fun i => word? data (8 + 8 * i)) =
    if ∀ i ∈ is, 8 + 8 * i + 8 ≤ data.size then .ok (is.map fun i => word data (8 + 8 * i))
    else .error .tooShort
  := by
  induction is with
  | nil => rfl
  | cons i is ih =>
    rw [List.mapM_cons, ih, word?_eq]
    simp only [List.forall_mem_cons]
    by_cases hi : 8 + 8 * i + 8 ≤ data.size
    · by_cases his : ∀ i ∈ is, 8 + 8 * i + 8 ≤ data.size
      · rw [if_pos hi, if_pos his, if_pos ⟨hi, his⟩]
        rfl
      · rw [if_pos hi, if_neg his, if_neg fun h => his h.2]
        rfl
    · rw [if_neg hi, if_neg (c := _ ∧ _) fun h => hi h.1]
      rfl

theorem registers?_eq (data : ByteArray) :
  registers? data = if 264 ≤ data.size then .ok (registers data) else .error .tooShort
  := by
  have hfits : (∀ i ∈ List.range 32, 8 + 8 * i + 8 ≤ data.size) ↔ 264 ≤ data.size := by
    simp only [List.mem_range]
    constructor
    · intro h
      apply h 31
      decide
    · intro h i hi
      omega
  apply Except.eq_of_map_eq (f := Vector.toArray) fun _ _ => Vector.toArray_inj.mp
  apply Except.eq_of_map_eq (f := Array.toList) fun _ _ => Array.toList_inj.mp
  rw [registers?, Vector.toArray_mapM, Array.toList_mapM]
  apply (mapM_word? data (List.range 32)).trans
  simp only [hfits]
  split
  · apply congrArg Except.ok
    rw [registers, Vector.toArray_map, Array.toList_map]
    rfl
  · rfl

/-! ### Strings that break off -/

/-- A computation gives what another one gives, or finds too few bytes. -/
def Lags {α : Type} (x y : Except SnapshotError α) : Prop :=
  x = .error .tooShort ∨ x = y

namespace Lags

variable {α β : Type} {x y : Except SnapshotError α}

theorem refl (x : Except SnapshotError α) :
  Lags x x
  := .inr rfl

theorem bind {f g : α → Except SnapshotError β} (h : Lags x y)
    (next : ∀ a, x = .ok a → Lags (f a) (g a)) :
  Lags (x >>= f) (y >>= g)
  := by
  rcases h with rfl | rfl
  · left
    rfl
  · cases x with
    | error e => apply refl
    | ok a =>
      apply next
      rfl

theorem eq_of_ok {a : α} (h : Lags x y) (ok : x = .ok a) :
  y = .ok a
  := by
  rcases h with hshort | rfl
  · rw [hshort] at ok
    cases ok
  · exact ok

end Lags

/-- A string is the front of another one. -/
structure IsFront (front data : ByteArray) : Prop where
  size : front.size ≤ data.size
  same : ∀ i, i < front.size → at0 front i = at0 data i

theorem isFront_extract {data : ByteArray} {n : Nat} (h : n ≤ data.size) :
  IsFront (data.extract 0 n) data
  := by
  have hsize : (data.extract 0 n).size = n := by
    rw [ByteArray.size_extract]
    omega
  constructor
  · rw [hsize]
    exact h
  · intro i hi
    rw [hsize] at hi
    rw [at0_extract h, Nat.zero_add, if_pos hi]

theorem isFront_append (data rest : ByteArray) :
  IsFront data (data ++ rest)
  := by
  constructor
  · rw [ByteArray.size_append]
    omega
  · intro i hi
    rw [at0_append, if_pos hi]

namespace IsFront

variable {front data : ByteArray}

theorem slice0_eq (h : IsFront front data) {start n : Nat} (fits : start + n ≤ front.size) :
  slice0 front start n = slice0 data start n
  := by
  apply slice0_congr
  intro i _ hi
  apply h.same
  omega

theorem word_eq (h : IsFront front data) {start : Nat} (fits : start + 8 ≤ front.size) :
  word front start = word data start
  := by
  rw [word, word, readNat, readNat, h.slice0_eq fits]

theorem registers_eq (h : IsFront front data) (fits : 264 ≤ front.size) :
  registers front = registers data
  := by
  apply registers_congr
  intro i hi
  apply h.word_eq
  omega

theorem extract_eq (h : IsFront front data) {start stop : Nat} (fits : stop ≤ front.size) :
  front.extract start stop = data.extract start stop
  := by
  have hdata := Nat.le_trans fits h.size
  apply ext_at0
  · rw [ByteArray.size_extract, ByteArray.size_extract, Nat.min_eq_left fits, Nat.min_eq_left hdata]
  · intro i _
    rw [at0_extract fits, at0_extract hdata]
    split
    · apply h.same
      omega
    · rfl

/-- A field that is read from the front of a string is read from the string. -/
theorem lags_of_fits (h : IsFront front data) {α : Type} {a b : α} {n : Nat}
    (same : n ≤ front.size → a = b) :
  Lags (if n ≤ front.size then .ok a else .error .tooShort)
    (if n ≤ data.size then .ok b else .error .tooShort)
  := by
  split
  case isTrue hn =>
    rw [if_pos (Nat.le_trans hn h.size), same hn]
    apply Lags.refl
  case isFalse =>
    left
    rfl

theorem lags_number? (h : IsFront front data) (start n : Nat) :
  Lags (number? front start n) (number? data start n)
  := by
  apply h.lags_of_fits
  intro fits
  rw [readNat, readNat, h.slice0_eq fits]

theorem lags_word? (h : IsFront front data) (start : Nat) :
  Lags (word? front start) (word? data start)
  := by
  rw [word?_eq, word?_eq]
  apply h.lags_of_fits
  apply h.word_eq

theorem lags_registers? (h : IsFront front data) :
  Lags (registers? front) (registers? data)
  := by
  rw [registers?_eq, registers?_eq]
  apply h.lags_of_fits
  apply h.registers_eq

/-- The front of a string is read like the string, unless it breaks off too early. -/
theorem lags_read (h : IsFront front data) :
  Lags (read front) (read data)
  := by
  rw [read_eq, read_eq]
  apply (h.lags_number? 0 4).bind
  intro _ hmagic
  rw [h.slice0_eq (of_ite_eq_ok hmagic)]
  apply (Lags.refl _).bind
  intro _ _
  apply (h.lags_number? 4 2).bind
  intro v _
  apply (Lags.refl _).bind
  intro _ _
  apply (h.lags_number? 6 2).bind
  intro _ _
  apply h.lags_registers?.bind
  intro x _
  apply (Lags.refl _).bind
  intro _ _
  apply (h.lags_word? 264).bind
  intro pc _
  apply (h.lags_word? 272).bind
  intro base _
  apply (h.lags_number? 280 8).bind
  intro len _
  apply (Lags.refl _).bind
  intro _ _
  apply (h.lags_of_fits fun _ => rfl).bind
  intro _ hlen
  rw [h.extract_eq (of_ite_eq_ok hlen)]
  apply Lags.refl

end IsFront

/-! ### The strings that are accepted -/

/-- A string starts with a snapshot: a header with the magic number, the version, a zero for register
0 and a length that is not too great, and as many bytes behind it. -/
structure IsStream (data : ByteArray) : Prop where
  magic : slice0 data 0 4 = [0x52, 0x56, 0x53, 0x4e]
  version : readNat data 4 2 = 1
  zero : readNat data 8 8 = 0
  length : readNat data 280 8 ≤ 2 ^ 36
  complete : 288 + readNat data 280 8 ≤ data.size

/-- The number of bytes of the snapshot at the front of a string. -/
def extent (data : ByteArray) : Nat :=
  headerSize + readNat data 280 8

/-- The snapshot at the front of a string. -/
def contents (data : ByteArray) : Snapshot :=
  ⟨⟨registers data, word data 264⟩, word data 272, data.extract headerSize (extent data)⟩

theorem word_eq_zero_iff {data : ByteArray} {start : Nat} :
  word data start = 0 ↔ readNat data start 8 = 0
  := by
  have hlt : readNat data start 8 < 2 ^ 64 := readNat_lt data start 8
  rw [word, ← BitVec.toNat_inj, BitVec.toNat_ofNat, Nat.mod_eq_of_lt hlt]
  rfl

theorem ite_bind_eq_ok {α β : Type} {p : Prop} [Decidable p] {a : α} {e : SnapshotError}
    {f : α → Except SnapshotError β} {b : β} :
  (if p then .ok a else .error e) >>= f = .ok b ↔ p ∧ f a = .ok b
  := by
  split
  case isTrue h => simp only [h, true_and, Except.ok_bind]
  case isFalse h => simp only [h, false_and, Except.error_bind, reduceCtorEq]

/-- A string is read exactly if it starts with a snapshot, and then as that one. -/
theorem read_eq_ok {data : ByteArray} {r : Snapshot × Nat} :
  read data = .ok r ↔ IsStream data ∧ r = (contents data, extent data)
  := by
  simp only [read_eq, number?, ensure, word?_eq, registers?_eq, ite_bind_eq_ok, registers_zero,
    word_eq_zero_iff, Except.ok.injEq]
  constructor
  · rintro ⟨-, hmagic, -, hversion, -, -, hzero, -, -, -, hlength, hcomplete, hr⟩
    exact ⟨⟨hmagic, hversion, hzero, hlength, hcomplete⟩, hr.symm⟩
  · rintro ⟨h, rfl⟩
    have hsize := h.complete
    refine ⟨by omega, h.magic, by omega, h.version, by omega, by omega, h.zero, by omega, by omega,
      by omega, h.length, h.complete, rfl⟩

/-! ### The header, field by field -/

theorem length_flatMap_ofWord (ws : List Word) :
  (ws.flatMap (ofWord 8)).length = 8 * ws.length
  := by
  induction ws with
  | nil => rfl
  | cons w ws ih =>
    rw [List.flatMap_cons, List.length_append, ih, List.length_cons, ofWord, length_littleEndian]
    omega

theorem length_header (s : Snapshot) :
  s.header.length = headerSize
  := by
  simp only [header, List.length_append, length_flatMap_ofWord, ofWord, length_littleEndian, magic,
    headerSize, Vector.length_toList, List.length_cons, List.length_nil]

theorem size_toBytes (s : Snapshot) :
  s.toBytes.size = headerSize + s.memory.size
  := by
  rw [toBytes, ByteArray.size_append, ← s.length_header]
  rfl

/-- The header of a snapshot stands at the front of a string. -/
structure Heads (s : Snapshot) (data : ByteArray) : Prop where
  magic : slice0 data 0 4 = Snapshot.magic
  version : readNat data 4 2 = Snapshot.version
  flags : readNat data 6 2 = 0
  registers : registers data = s.regs.x
  pc : word data 264 = s.regs.pc
  base : word data 272 = s.base
  length : readNat data 280 8 = s.memory.size % 2 ^ 64

theorem has_registers_iff {data : ByteArray} {x : Vector Word 32} :
  Has data 8 (x.toList.flatMap (ofWord 8)) ↔ registers data = x
  := by
  rw [has_flatMap_ofWord_iff]
  simp only [has_ofWord_iff, Vector.length_toList, Vector.getElem_toList]
  constructor
  · intro h
    apply Vector.ext
    intro i hi
    rw [registers, Vector.getElem_map, Vector.getElem_range]
    exact h i hi
  · rintro rfl i hi
    rw [registers, Vector.getElem_map, Vector.getElem_range]
    rfl

/-- The bytes of a header are found where each of its fields is read. -/
theorem has_header_iff {s : Snapshot} {data : ByteArray} :
  Has data 0 s.header ↔ s.Heads data
  := by
  have hword (w : Word) : (ofWord 8 w).length = 8 := length_littleEndian 8 _
  simp only [header, Has.append_iff, List.length_append, length_littleEndian, length_flatMap_ofWord,
    hword, Vector.length_toList, show magic.length = 4 from rfl, Nat.zero_add, Nat.reduceAdd,
    Nat.reduceMul, has_registers_iff, has_ofWord_iff, has_littleEndian_iff]
  constructor
  · rintro ⟨⟨⟨⟨⟨⟨hmagic, hversion⟩, hflags⟩, hregs⟩, hpc⟩, hbase⟩, hlength⟩
    exact ⟨hmagic, hversion, hflags, hregs, hpc, hbase, hlength⟩
  · intro h
    exact ⟨⟨⟨⟨⟨⟨h.magic, h.version⟩, h.flags⟩, h.registers⟩, h.pc⟩, h.base⟩, h.length⟩

theorem at0_toBytes (s : Snapshot) (i : Nat) :
  at0 s.toBytes i =
    if i < headerSize then s.header.getD i 0 else at0 s.memory (i - headerSize)
  := by
  rw [toBytes, at0_append]
  change (if i < s.header.length then _ else at0 s.memory (i - s.header.length)) = _
  rw [length_header, at0_eq_getD, List.getElem?_toArray, List.getD_eq_getElem?_getD]

theorem heads_toBytes (s : Snapshot) :
  s.Heads s.toBytes
  := by
  apply has_header_iff.mp
  apply Has.iff_at0.mpr
  intro i hi
  rw [length_header] at hi
  rw [Nat.zero_add, at0_toBytes, if_pos hi]

/-- A string with the header of a snapshot in front of its RAM is the bytes of the snapshot. -/
theorem Heads.eq_toBytes {s : Snapshot} {data : ByteArray} (h : s.Heads data)
    (size : data.size = headerSize + s.memory.size)
    (memory : ∀ i, i < s.memory.size → at0 data (headerSize + i) = at0 s.memory i) :
  data = s.toBytes
  := by
  apply ext_at0
  · rw [size, size_toBytes]
  · intro i hi
    rw [at0_toBytes]
    split
    case isTrue hlt =>
      have hheader := Has.iff_at0.mp (has_header_iff.mpr h) i (by rwa [length_header])
      rwa [Nat.zero_add] at hheader
    case isFalse hge =>
      have himage := memory (i - headerSize) (by omega)
      rwa [Nat.add_sub_cancel' (Nat.le_of_not_lt hge)] at himage

/-! ### There and back -/

/-- The bytes of a snapshot that can be read are read as the snapshot. -/
theorem read_toBytes {s : Snapshot} (zero : s.regs.x.get 0 = 0) (small : s.memory.size ≤ maxLength) :
  read s.toBytes = .ok (s, s.toBytes.size)
  := by
  have h := s.heads_toBytes
  have hlength : readNat s.toBytes 280 8 = s.memory.size := by
    rw [h.length]
    unfold maxLength at small
    omega
  have hextent : extent s.toBytes = s.toBytes.size := by
    rw [extent, hlength, size_toBytes]
  have hmemory : s.toBytes.extract headerSize (extent s.toBytes) = s.memory := by
    rw [hextent]
    apply ext_at0
    · rw [ByteArray.size_extract, size_toBytes]
      omega
    · intro i hi
      rw [ByteArray.size_extract, size_toBytes] at hi
      rw [at0_extract (Nat.le_refl _), if_pos (by rw [size_toBytes]; omega), at0_toBytes,
        if_neg (by omega), Nat.add_sub_cancel_left]
  apply read_eq_ok.mpr
  constructor
  · constructor
    · exact h.magic
    · exact h.version
    · rw [← word_eq_zero_iff, ← registers_zero, h.registers]
      exact zero
    · rw [hlength]
      exact small
    · rw [hlength, size_toBytes]
      apply Nat.le_refl
  · rw [contents, h.registers, h.pc, h.base, hmemory, hextent]

/-- A string with the flags of the snapshot at its front made zero. -/
def clearFlags (data : ByteArray) : ByteArray :=
  overwrite data 6 [0, 0]

theorem at0_clearFlags {data : ByteArray} (fits : 8 ≤ data.size) (i : Nat) :
  at0 (clearFlags data) i = if 6 ≤ i ∧ i < 8 then 0 else at0 data i
  := by
  have hzero (k : Nat) : [0, 0].getD k (0 : UInt8) = 0 := by
    match k with
    | 0 | 1 | k + 2 => rfl
  rw [clearFlags, at0_overwrite fits, hzero]
  rfl

/-- What is read from a string is written as the bytes that were read, with other flags. -/
theorem toBytes_contents {data : ByteArray} (h : IsStream data) :
  (contents data).toBytes = clearFlags (data.extract 0 (extent data))
  := by
  have hfits : extent data ≤ data.size := h.complete
  have hheader : headerSize ≤ extent data := Nat.le_add_right _ _
  have hflags : 8 ≤ extent data := Nat.le_trans (by decide) hheader
  have hsize : (data.extract 0 (extent data)).size = extent data := by
    rw [ByteArray.size_extract]
    omega
  have hmemory : (contents data).memory.size = readNat data 280 8 := by
    change (data.extract headerSize (extent data)).size = _
    rw [ByteArray.size_extract, Nat.min_eq_left hfits, extent, Nat.add_sub_cancel_left]
  -- away from the flags, the bytes are those of the string
  have hat0 (i : Nat) (hi : i < extent data) (haway : ¬(6 ≤ i ∧ i < 8)) :
      at0 (clearFlags (data.extract 0 (extent data))) i = at0 data i := by
    rw [at0_clearFlags (by rwa [hsize]), if_neg haway, at0_extract hfits, Nat.zero_add, if_pos hi]
  have hslice {start n : Nat} (hn : start + n ≤ headerSize) (haway : start + n ≤ 6 ∨ 8 ≤ start) :
      slice0 (clearFlags (data.extract 0 (extent data))) start n = slice0 data start n := by
    apply slice0_congr
    intro i _ _
    apply hat0
    · omega
    · omega
  have hword {start : Nat} (hn : start + 8 ≤ headerSize) (haway : 8 ≤ start) :
      word (clearFlags (data.extract 0 (extent data))) start = word data start := by
    rw [word, word, readNat, readNat, hslice hn (.inr haway)]
  symm
  apply Heads.eq_toBytes
  · constructor
    · rw [hslice (by decide) (by decide)]
      exact h.magic
    · rw [readNat, hslice (by decide) (by decide)]
      exact h.version
    · simp only [readNat, slice0, at0_clearFlags (hsize.symm ▸ hflags)]
      rfl
    · apply registers_congr
      intro i hi
      apply hword
      · unfold headerSize
        omega
      · omega
    · apply hword <;> decide
    · apply hword <;> decide
    · have hlt : readNat data 280 8 < 2 ^ 64 := readNat_lt data 280 8
      rw [readNat, hslice (by decide) (by decide), hmemory, ← readNat, Nat.mod_eq_of_lt hlt]
  · rw [clearFlags, size_overwrite, hsize, hmemory]
    rfl
  · intro i hi
    rw [hmemory] at hi
    have hin : headerSize + i < extent data := by
      unfold extent
      omega
    rw [hat0 _ hin (by unfold headerSize; omega)]
    change _ = at0 (data.extract headerSize (extent data)) i
    rw [at0_extract hfits, if_pos hin]

/-- The bytes of a snapshot are read as that snapshot whatever follows them, and not at all if they
break off.  A string is read exactly if it starts with a snapshot, and the bytes that were read are
those that the snapshot is written as, with the flags made zero. -/
theorem read_inverts_toBytes :
  (∀ s : Snapshot, s.regs.x.get 0 = 0 → s.memory.size ≤ 2 ^ 36 →
      (∀ rest, read (s.toBytes ++ rest) = .ok (s, s.toBytes.size)) ∧
      ∀ n, n < s.toBytes.size → read (s.toBytes.extract 0 n) = .error .tooShort) ∧
    ∀ data : ByteArray,
      ((∃ r, read data = .ok r) ↔ IsStream data) ∧
      ∀ s n, read data = .ok (s, n) →
        n ≤ data.size ∧ s.toBytes = clearFlags (data.extract 0 n)
  := by
  constructor
  · intro s zero small
    have hread := read_toBytes zero small
    constructor
    · intro rest
      apply (isFront_append s.toBytes rest).lags_read.eq_of_ok hread
    · intro n hn
      rcases (isFront_extract (Nat.le_of_lt hn)).lags_read with hshort | hsame
      · exact hshort
      · rw [hread] at hsame
        obtain ⟨hstream, hpair⟩ := read_eq_ok.mp hsame
        have hextent : s.toBytes.size = extent (s.toBytes.extract 0 n) := congrArg Prod.snd hpair
        have hcomplete : extent (s.toBytes.extract 0 n) ≤ _ := hstream.complete
        rw [← hextent, ByteArray.size_extract] at hcomplete
        omega
  · intro data
    constructor
    · constructor
      · rintro ⟨r, hr⟩
        exact (read_eq_ok.mp hr).1
      · intro h
        use (contents data, extent data)
        exact read_eq_ok.mpr ⟨h, rfl⟩
    · intro s n hread
      obtain ⟨hstream, hpair⟩ := read_eq_ok.mp hread
      cases hpair
      exact ⟨hstream.complete, toBytes_contents hstream⟩

/-- A guest whose RAM is one byte is read back, also with another byte behind it, and not if its last
byte is missing. -/
theorem read_inverts_toBytes_of_one :
  let s : Snapshot := ⟨⟨(Vector.replicate 32 0).set 31 5, 0x1000⟩, 0x1000, ⟨#[7]⟩⟩
  read (s.toBytes ++ ⟨#[1]⟩) = .ok (s, s.toBytes.size) ∧
    read (s.toBytes.extract 0 288) = .error .tooShort
  := by
  intro s
  obtain ⟨hback, hshort⟩ := read_inverts_toBytes.1 s (by decide) (by decide)
  refine ⟨hback ⟨#[1]⟩, hshort 288 ?_⟩
  rw [size_toBytes]
  decide

end CrossHart.Snapshot
