import CrossHart.Bytes
import Mathlib.Algebra.Ring.Nat
import Mathlib.Data.List.Basic

/-!
# Reading back byte strings

What a byte string holds after bytes were replaced in it, and how a run of bytes splits.  A string
`Has` a list of bytes at a position if they are found there one after the other.
-/

namespace CrossHart.Bytes

/-! ### Single bytes -/

theorem at0_eq_getD (bytes : ByteArray) (i : Nat) :
  at0 bytes i = bytes.data[i]?.getD 0
  := by
  by_cases h : i < bytes.size
  · rw [at0, dif_pos h, Array.getElem?_eq_getElem h]
    rfl
  · rw [at0, dif_neg h, Array.getElem?_eq_none (Nat.le_of_not_lt h)]
    rfl

@[simp]
theorem size_put (bytes : ByteArray) (i : Nat) (b : UInt8) :
  (put bytes i b).size = bytes.size
  := by
  unfold put
  split
  · apply Array.size_set
  · rfl

/-- Replacing a byte changes that byte only. -/
theorem at0_put (bytes : ByteArray) (i : Nat) (b : UInt8) (j : Nat) :
  at0 (put bytes i b) j = if i = j ∧ i < bytes.size then b else at0 bytes j
  := by
  unfold put
  split
  case isTrue h =>
    rw [at0_eq_getD, at0_eq_getD, ByteArray.data_set, Array.getElem?_set]
    by_cases hij : i = j
    · subst hij
      simp [h]
    · simp [hij]
  case isFalse h =>
    rw [if_neg (fun hc => h hc.2)]

@[simp]
theorem size_overwrite (bytes : ByteArray) (start : Nat) (new : List UInt8) :
  (overwrite bytes start new).size = bytes.size
  := by
  induction new generalizing bytes start with
  | nil => rfl
  | cons b bs ih => rw [overwrite, ih, size_put]

/-- Replacing a run of bytes that fits changes the bytes of the run only. -/
theorem at0_overwrite {bytes : ByteArray} {start : Nat} {new : List UInt8}
    (fits : start + new.length ≤ bytes.size) (i : Nat) :
  at0 (overwrite bytes start new) i =
    if start ≤ i ∧ i < start + new.length then new.getD (i - start) 0 else at0 bytes i
  := by
  induction new generalizing bytes start with
  | nil =>
    rw [overwrite, if_neg]
    simp only [List.length_nil]
    omega
  | cons b bs ih =>
    rw [List.length_cons] at fits
    rw [overwrite, ih (by rw [size_put]; omega), at0_put, List.length_cons]
    by_cases hi : start = i
    · subst hi
      rw [if_neg (by omega), if_pos (by omega), if_pos (by omega), Nat.sub_self]
      rfl
    · rw [if_neg (c := start = i ∧ _) (fun h => hi h.1)]
      by_cases hin : start + 1 ≤ i ∧ i < start + 1 + bs.length
      · rw [if_pos hin, if_pos (by omega), show i - start = i - (start + 1) + 1 by omega,
          List.getD_cons_succ]
      · rw [if_neg hin, if_neg (by omega)]

@[simp]
theorem size_zeros (n : Nat) :
  (zeros n).size = n
  := by
  rw [← ByteArray.size_data, data_zeros, Array.size_replicate]

@[simp]
theorem size_extend (bytes : ByteArray) (n : Nat) :
  (extend bytes n).size = max bytes.size n
  := by
  unfold extend
  split
  · rw [ByteArray.size_append, size_zeros]
    omega
  · omega

theorem size_blit {bytes new : ByteArray} {start : Nat} (fits : start + new.size ≤ bytes.size) :
  (blit bytes start new).size = bytes.size
  := by
  rw [blit, ByteArray.copySlice, ← ByteArray.size_data]
  simp only [Array.size_append, Array.size_extract, ByteArray.size_data]
  omega

/-- Zero bytes behind a string are not told from its end. -/
@[simp]
theorem at0_extend (bytes : ByteArray) (n i : Nat) :
  at0 (extend bytes n) i = at0 bytes i
  := by
  unfold extend
  split
  · rw [at0_eq_getD, at0_eq_getD, ByteArray.data_append, data_zeros, Array.getElem?_append]
    split
    · rfl
    · rename_i h
      rw [Array.getElem?_eq_none (Nat.le_of_not_lt h), Array.getElem?_replicate]
      split <;> rfl
  · rfl

/-- Strings with the same bytes are equal. -/
theorem ext_at0 {bytes bytes' : ByteArray} (size : bytes.size = bytes'.size)
    (same : ∀ i, i < bytes.size → at0 bytes i = at0 bytes' i) :
  bytes = bytes'
  := by
  apply ByteArray.ext_getElem size
  intro i hi hi'
  have h := same i hi
  rwa [at0, at0, dif_pos hi, dif_pos hi'] at h

theorem at0_append (bytes bytes' : ByteArray) (i : Nat) :
  at0 (bytes ++ bytes') i = if i < bytes.size then at0 bytes i else at0 bytes' (i - bytes.size)
  := by
  simp only [at0_eq_getD, ByteArray.data_append, Array.getElem?_append, ByteArray.size_data]
  split <;> rfl

theorem at0_extract {bytes : ByteArray} {start stop i : Nat} (fits : stop ≤ bytes.size) :
  at0 (bytes.extract start stop) i = if start + i < stop then at0 bytes (start + i) else 0
  := by
  rw [at0_eq_getD, at0_eq_getD, ByteArray.data_extract, Array.getElem?_extract,
    Nat.min_eq_left (show stop ≤ bytes.data.size from fits)]
  split
  · rw [if_pos (by omega)]
  · rw [if_neg (by omega)]
    rfl

/-- Copying a string that fits changes the bytes it is copied to only. -/
theorem at0_blit {bytes new : ByteArray} {start : Nat} (fits : start + new.size ≤ bytes.size) (i : Nat) :
  at0 (blit bytes start new) i =
    if start ≤ i ∧ i < start + new.size then at0 new (i - start) else at0 bytes i
  := by
  have hblit : blit bytes start new =
      bytes.extract 0 start ++ new ++ bytes.extract (start + new.size) bytes.size := by
    rw [blit, ByteArray.copySlice_eq_append]
    simp
  have hfirst : (bytes.extract 0 start).size = start := by
    rw [ByteArray.size_extract]
    omega
  rw [hblit, at0_append, at0_append, at0_extract (by omega), at0_extract (Nat.le_refl _),
    ByteArray.size_append, hfirst, Nat.zero_add]
  by_cases hlow : i < start
  · rw [if_pos (by omega), if_pos hlow, if_pos hlow, if_neg (by omega)]
  by_cases hin : i < start + new.size
  · rw [if_pos hin, if_neg hlow, if_pos (by omega)]
  · have hrest : start + new.size + (i - (start + new.size)) = i := by omega
    have hout : ¬(start ≤ i ∧ i < start + new.size) := fun h => hin h.2
    rw [if_neg hin, if_neg hout, hrest, at0]
    split <;> rfl

/-! ### Runs of bytes -/

@[simp]
theorem length_slice0 (bytes : ByteArray) (start n : Nat) :
  (slice0 bytes start n).length = n
  := by
  induction n generalizing start with
  | zero => rfl
  | succ n ih => rw [slice0, List.length_cons, ih]

theorem getElem?_slice0 {bytes : ByteArray} {start n i : Nat} (h : i < n) :
  (slice0 bytes start n)[i]? = some (at0 bytes (start + i))
  := by
  induction n generalizing start i with
  | zero => omega
  | succ n ih =>
    cases i with
    | zero => rfl
    | succ i =>
      rw [slice0, List.getElem?_cons_succ, ih (by omega)]
      congr 2
      omega

/-- A run of bytes is determined by its bytes. -/
theorem slice0_congr {bytes bytes' : ByteArray} {start n : Nat}
    (h : ∀ i, start ≤ i → i < start + n → at0 bytes i = at0 bytes' i) :
  slice0 bytes start n = slice0 bytes' start n
  := by
  induction n generalizing start with
  | zero => rfl
  | succ n ih =>
    rw [slice0, slice0, h start (by omega) (by omega),
      ih (fun i h₁ h₂ => h i (by omega) (by omega))]

theorem slice0_add (bytes : ByteArray) (start m n : Nat) :
  slice0 bytes start (m + n) = slice0 bytes start m ++ slice0 bytes (start + m) n
  := by
  induction m generalizing start with
  | zero => simp [slice0]
  | succ m ih =>
    rw [Nat.succ_add, slice0, slice0, ih, Nat.add_right_comm start 1 m]
    rfl

/-- A string holds a list of bytes at a position. -/
def Has (bytes : ByteArray) (start : Nat) (l : List UInt8) : Prop :=
  slice0 bytes start l.length = l

namespace Has

variable {bytes bytes' : ByteArray} {start : Nat} {l l' : List UInt8}

theorem nil :
  Has bytes start []
  := rfl

theorem append_iff :
  Has bytes start (l ++ l') ↔ Has bytes start l ∧ Has bytes (start + l.length) l'
  := by
  unfold Has
  rw [List.length_append, slice0_add]
  constructor
  · intro h
    apply List.append_inj h
    apply length_slice0
  · rintro ⟨h, h'⟩
    rw [h, h']

theorem iff_at0 :
  Has bytes start l ↔ ∀ i, i < l.length → at0 bytes (start + i) = l.getD i 0
  := by
  constructor
  · intro h i hi
    have hget : (slice0 bytes start l.length)[i]? = some (at0 bytes (start + i)) :=
      getElem?_slice0 hi
    rw [h] at hget
    rw [List.getD_eq_getElem?_getD, hget]
    rfl
  · intro h
    apply List.ext_getElem?
    intro i
    by_cases hi : i < l.length
    · rw [getElem?_slice0 hi, h i hi, List.getD_eq_getElem?_getD, List.getElem?_eq_getElem hi]
      rfl
    · rw [List.getElem?_eq_none (by rw [length_slice0]; omega),
        List.getElem?_eq_none (by omega)]

/-- What a string holds depends on the bytes in question only. -/
theorem of_append (l l' : List UInt8) :
  Has ⟨(l ++ l').toArray⟩ l.length l'
  := by
  rw [iff_at0]
  intro i _
  rw [at0_eq_getD, List.getElem?_toArray, List.getElem?_append_right (Nat.le_add_right _ _),
    Nat.add_sub_cancel_left, List.getD_eq_getElem?_getD]

theorem congr (h : Has bytes start l)
    (same : ∀ i, start ≤ i → i < start + l.length → at0 bytes' i = at0 bytes i) :
  Has bytes' start l
  := by
  unfold Has
  rw [slice0_congr same]
  apply h

/-- A longer run read from a string starts with what the string holds. -/
theorem slice0_eq (h : Has bytes start l) (n : Nat) :
  slice0 bytes start (l.length + n) = l ++ slice0 bytes (start + l.length) n
  := by
  rw [slice0_add, h]

end Has

/-! ### Little-endian numbers -/

/-- The bytes of a number give back its low part. -/
theorem ofLittleEndian_littleEndian (n v : Nat) :
  ofLittleEndian (littleEndian n v) = v % 256 ^ n
  := by
  induction n generalizing v with
  | zero => rw [littleEndian, ofLittleEndian, Nat.pow_zero, Nat.mod_one]
  | succ n ih =>
    rw [littleEndian, ofLittleEndian, ih, UInt8.toNat_ofNat', Nat.pow_succ 256,
      Nat.mul_comm (256 ^ n), Nat.mod_mul]

theorem ofLittleEndian_lt (l : List UInt8) :
  ofLittleEndian l < 256 ^ l.length
  := by
  induction l with
  | nil => decide
  | cons b bs ih =>
    have hb := b.toNat_lt
    rw [ofLittleEndian, List.length_cons, Nat.pow_succ]
    omega

/-- The number of a list of bytes has these bytes. -/
theorem littleEndian_ofLittleEndian (l : List UInt8) :
  littleEndian l.length (ofLittleEndian l) = l
  := by
  induction l with
  | nil => rfl
  | cons b bs ih =>
    have hb := b.toNat_lt
    have hdiv : (b.toNat + 256 * ofLittleEndian bs) / 256 = ofLittleEndian bs := by omega
    have hlow : UInt8.ofNat (b.toNat + 256 * ofLittleEndian bs) = b := by
      apply UInt8.toNat.inj
      rw [UInt8.toNat_ofNat']
      omega
    rw [ofLittleEndian, List.length_cons, littleEndian, hdiv, ih, hlow]

/-- The bytes of a number are those of its low part. -/
theorem littleEndian_mod (n v : Nat) :
  littleEndian n (v % 256 ^ n) = littleEndian n v
  := by
  have hlow := littleEndian_ofLittleEndian (littleEndian n v)
  rwa [length_littleEndian, ofLittleEndian_littleEndian] at hlow

theorem readNat_lt (bytes : ByteArray) (start n : Nat) :
  readNat bytes start n < 256 ^ n
  := by
  have hlt := ofLittleEndian_lt (slice0 bytes start n)
  rwa [length_slice0] at hlt

/-- A string holds the bytes of a number where the number's low part is read. -/
theorem has_littleEndian_iff {bytes : ByteArray} {start n v : Nat} :
  Has bytes start (littleEndian n v) ↔ readNat bytes start n = v % 256 ^ n
  := by
  unfold Has readNat
  rw [length_littleEndian]
  constructor
  · intro h
    rw [h, ofLittleEndian_littleEndian]
  · intro h
    have hslice := littleEndian_ofLittleEndian (slice0 bytes start n)
    rw [length_slice0, h] at hslice
    rw [← hslice, littleEndian_mod]

theorem has_ofWord_iff {bytes : ByteArray} {start : Nat} {w : Word} :
  Has bytes start (ofWord 8 w) ↔ BitVec.ofNat 64 (readNat bytes start 8) = w
  := by
  have hlt : readNat bytes start 8 < 2 ^ 64 := readNat_lt bytes start 8
  rw [ofWord, has_littleEndian_iff, ← BitVec.toNat_inj, BitVec.toNat_ofNat,
    Nat.mod_eq_of_lt (show w.toNat < 256 ^ 8 from w.isLt), Nat.mod_eq_of_lt hlt]

/-- A string holds words one after the other. -/
theorem has_flatMap_ofWord_iff {bytes : ByteArray} {start : Nat} {ws : List Word} :
  Has bytes start (ws.flatMap (ofWord 8)) ↔
    ∀ i (h : i < ws.length), Has bytes (start + 8 * i) (ofWord 8 ws[i])
  := by
  induction ws generalizing start with
  | nil => simp [Has.nil]
  | cons w ws ih =>
    have hlength : (ofWord 8 w).length = 8 := length_littleEndian 8 _
    rw [List.flatMap_cons, Has.append_iff, ih, hlength]
    constructor
    · rintro ⟨hw, hws⟩ i hi
      cases i with
      | zero => exact hw
      | succ i =>
        rw [show start + 8 * (i + 1) = start + 8 + 8 * i by omega]
        exact hws i (by simpa using hi)
    · intro h
      refine ⟨h 0 (by simp), fun i hi => ?_⟩
      rw [show start + 8 + 8 * i = start + 8 * (i + 1) by omega]
      exact h (i + 1) (by simpa using hi)

end CrossHart.Bytes
