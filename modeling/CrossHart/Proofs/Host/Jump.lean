import CrossHart.Proofs.Host.Assembly

/-!
# Redirecting jumps

What writing to the code buffer leaves in it, and where a jump that was written or redirected
leads.
-/

namespace CrossHart.Host

open Item

/-- The displacement of a jump that reaches its target, as a number. -/
theorem toInt_displacement {jump place : Nat} (reach : Reaches jump place) :
  (displacement (jump + jumpSize) place).toInt = (place : Int) - (jump + jumpSize : Nat)
  := by
  obtain ⟨hlow, hhigh⟩ := of_decide_eq_true reach
  rw [displacement, BitVec.toInt_ofInt]
  apply Int.bmod_eq_of_le
  · simpa using hlow
  · simpa using hhigh

theorem signedOffset_of_lt {n : Nat} (h : n < 0x8000000000000000) :
  signedOffset n = n
  := by
  rw [signedOffset, BitVec.toInt_ofNat']
  apply Int.bmod_eq_of_le <;> omega

theorem displacement_ok {n : Int} (low : -0x8000000000000000 ≤ n) (high : n < 0x8000000000000000) :
  Size.displacement n = .ok n
  := if_pos ⟨low, high⟩

/-- The number in a 32-bit field. -/
theorem ofLittleEndian_field32 (v : BitVec 32) :
  BitVec.ofNat 32 (Bytes.ofLittleEndian (field32 v)) = v
  := by
  rw [field32, Bytes.ofLittleEndian_littleEndian]
  apply BitVec.eq_of_toNat_eq
  rw [BitVec.toNat_ofNat, Nat.mod_mod_of_dvd _ (by decide), Nat.mod_eq_of_lt v.isLt]

/-- The place to which a jump with the given displacement leads, if there is one. -/
def landing (jump : Nat) (disp : BitVec 32) : Option Nat :=
  let place := (jump + jumpSize : Nat) + disp.toInt
  if 0 ≤ place then some place.toNat else none

theorem jumpTarget_jmp (jump : Nat) (disp : BitVec 32) (low : jump < 0x4000000000000000) :
  jumpTarget (Instr.encode (.jmp disp)) jump = .ok (landing jump disp)
  := by
  have hfield := ofLittleEndian_field32 disp
  obtain ⟨a, b, c, d, habcd⟩ : ∃ a b c d, field32 disp = [a, b, c, d] := ⟨_, _, _, _, rfl⟩
  have hlow : -0x80000000 ≤ disp.toInt := BitVec.le_toInt disp
  have hhigh : disp.toInt < 0x80000000 := BitVec.toInt_lt
  rw [habcd] at hfield
  rw [Instr.encode, habcd, jumpTarget, signedOffset_of_lt (by omega)]
  rw [displacement_ok (by omega) (by simp only [jumpSize]; omega), Except.ok_bind, hfield]
  dsimp only
  rw [displacement_ok (by omega) (by simp only [jumpSize]; omega), Except.ok_bind]
  rfl

/-- A jump leads to the place for which it was written. -/
theorem landing_displacement {jump place : Nat} (reach : Reaches jump place) :
  landing jump (displacement (jump + jumpSize) place) = some place
  := by
  have hint := toInt_displacement reach
  rw [landing, hint, show ((jump + jumpSize : Nat) : Int) + (place - (jump + jumpSize : Nat)) = place
    by omega, if_pos (Int.natCast_nonneg place), Int.toNat_natCast]

namespace Buffer

@[simp]
theorem capacity_overwrite (b : Buffer) (start : Nat) (new : List UInt8) :
  (b.overwrite start new).capacity = b.capacity
  := rfl

@[simp]
theorem offset_overwrite (b : Buffer) (start : Nat) (new : List UInt8) :
  (b.overwrite start new).offset = b.offset
  := rfl

@[simp]
theorem mode_overwrite (b : Buffer) (start : Nat) (new : List UInt8) :
  (b.overwrite start new).mode = b.mode
  := rfl

@[simp]
theorem limit_overwrite (b : Buffer) (start : Nat) (new : List UInt8) :
  (b.overwrite start new).limit = b.limit
  := rfl

theorem at0_overwrite (b : Buffer) (start : Nat) (new : List UInt8) (i : Nat) :
  Bytes.at0 (b.overwrite start new).bytes i =
    if start ≤ i ∧ i < start + new.length then new.getD (i - start) 0 else Bytes.at0 b.bytes i
  := by
  rw [overwrite, Bytes.at0_overwrite, Bytes.at0_extend]
  rw [Bytes.size_extend]
  apply Nat.le_max_right

theorem has_overwrite (b : Buffer) (start : Nat) (new : List UInt8) :
  Bytes.Has (b.overwrite start new).bytes start new
  := by
  apply Bytes.Has.iff_at0.mpr
  intro i hi
  rw [at0_overwrite, if_pos (by omega), Nat.add_sub_cancel_left]

theorem size_overwrite (b : Buffer) (start : Nat) (new : List UInt8) :
  (b.overwrite start new).bytes.size = max b.bytes.size (start + new.length)
  := by
  rw [overwrite, Bytes.size_overwrite, Bytes.size_extend]

theorem targetAt_jmp {b : Buffer} {jump : Nat} {disp : BitVec 32}
    (h : Bytes.Has b.bytes jump (Instr.encode (.jmp disp))) (fits : jump + jumpSize ≤ b.capacity)
    (low : b.capacity < 0x4000000000000000) :
  b.targetAt jump = .ok (landing jump disp)
  := by
  have hslice : Bytes.slice0 b.bytes jump (jump + jumpSize - jump) = Instr.encode (.jmp disp) := by
    rw [Nat.add_sub_cancel_left]
    exact h
  rw [targetAt, slice, if_pos ⟨Nat.le_add_right _ _, fits⟩, Except.ok_bind, hslice]
  exact jumpTarget_jmp jump disp (by omega)

/-- The jump at an offset leads where it was written to lead. -/
theorem targetAt_of_has {b : Buffer} {jump place : Nat}
    (h : Bytes.Has b.bytes jump (Instr.encode (.jmp (displacement (jump + jumpSize) place))))
    (reach : Reaches jump place) (fits : jump + jumpSize ≤ b.capacity)
    (low : b.capacity < 0x4000000000000000) :
  b.targetAt jump = .ok (some place)
  := by
  rw [targetAt_jmp h fits low, landing_displacement reach]

/-- A jump is redirected to any place it reaches, and nothing else changes. -/
theorem patchJump_eq {b : Buffer} {jump place : Nat} (fits : jump + jumpSize ≤ b.capacity)
    (low : place < 0x8000000000000000) :
  b.patchJump jump place =
    if fitsDisplacement ((place : Int) - (jump + jumpSize : Nat)) then
      .ok (b.overwrite (jump + 1) (field32 (displacement (jump + jumpSize) place)))
    else .error .badArgument
  := by
  rw [patchJump, signedOffset_of_lt low]
  split
  case isTrue h => rw [if_pos h.2, patch, if_pos (by simp only [jumpSize] at fits; omega)]
  case isFalse h => rw [if_neg fun hc => h ⟨fits, hc⟩]

theorem seek_eq_ok {b b' : Buffer} {offset : Nat} (h : b.seek offset = .ok b') :
  offset ≤ b.capacity ∧ b' = { b with offset }
  := by
  unfold seek at h
  split at h
  case isTrue hle => exact ⟨hle, (Except.ok.inj h).symm⟩
  case isFalse => cases h

theorem reserve_eq_ok {b b' : Buffer} {size : Nat} (h : b.reserve size = .ok b') :
  b.offset + size ≤ b.capacity ∧ b' = { b with limit := b.offset + size }
  := by
  obtain ⟨limit, hsum, h⟩ := Except.bind_eq_ok.mp h
  obtain rfl : limit = b.offset + size := by
    unfold Size.sum Size.exact at hsum
    split at hsum
    · exact (Except.ok.inj hsum).symm
    · cases hsum
  split at h
  case isTrue hle => exact ⟨hle, (Except.ok.inj h).symm⟩
  case isFalse => cases h

/-- A redirected jump differs in its displacement. -/
theorem eq_overwrite_of_patchJump {b b' : Buffer} {jump place : Nat}
    (h : b.patchJump jump place = .ok b') :
  b' = b.overwrite (jump + 1) (field32 (displacement (jump + jumpSize) place))
  := by
  unfold patchJump patch at h
  split at h
  · split at h
    · exact (Except.ok.inj h).symm
    · cases h
  · cases h

end Buffer

end CrossHart.Host
