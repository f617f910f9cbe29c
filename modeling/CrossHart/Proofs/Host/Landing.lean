import CrossHart.Proofs.Host.Emitted

/-!
# Where emitted jumps land

A jump is written with the low half of the distance to its target, so it lands on the target if
that is within reach, and otherwise elsewhere.  Redirecting a jump refuses targets out of reach.
In buffers of at most two gigabytes all places are within reach of each other.
-/

namespace CrossHart.Host

open Item

/-! ### Reach -/

instance (jump place : Nat) : Decidable (Reaches jump place) :=
  inferInstanceAs (Decidable (fitsDisplacement _ = true))

/-- A jump leads to the place within its reach that differs from its target by a multiple of the
number of displacements. -/
theorem landing_eq_some_iff {jump target place : Nat} :
  landing jump (displacement (jump + jumpSize) target) = some place ↔
    Reaches jump place ∧ place % 0x100000000 = target % 0x100000000
  := by
  have hdisp : (displacement (jump + jumpSize) target).toInt =
      Int.bmod ((target : Int) - (jump + jumpSize : Nat)) 0x100000000 := BitVec.toInt_ofInt _
  have hlow : -0x80000000 ≤ (displacement (jump + jumpSize) target).toInt := BitVec.le_toInt _
  have hhigh : (displacement (jump + jumpSize) target).toInt < 0x80000000 := BitVec.toInt_lt
  obtain ⟨k, hk⟩ := Int.dvd_bmod_sub_self
    (x := (target : Int) - (jump + jumpSize : Nat)) (m := 0x100000000)
  rw [← hdisp] at hk
  simp only [landing, Reaches, fitsDisplacement, decide_eq_true_eq, Option.ite_none_right_eq_some,
    Option.some.injEq]
  omega

/-- A jump leads to its target if and only if that is within reach. -/
theorem landing_eq_target_iff {jump target : Nat} :
  landing jump (displacement (jump + jumpSize) target) = some target ↔ Reaches jump target
  := by
  rw [landing_eq_some_iff]
  exact and_iff_left rfl

/-- In a small buffer all places are within reach. -/
theorem reaches_of_small {jump target size : Nat} (small : size ≤ 0x80000000)
    (fits : jump + jumpSize ≤ size) (inside : target ≤ size) :
  Reaches jump target
  := by
  have hsize : jumpSize = 5 := rfl
  apply decide_eq_true
  omega

/-- The displacement of a jump that can be redirected is at a multiple of four. -/
theorem displacement_aligned (offset : Nat) :
  (offset + jumpPadding offset + 1) % 4 = 0
  := by
  unfold jumpPadding Size.roundUp
  omega

namespace Buffer

/-! ### Writing jumps -/

variable {b : Buffer} {target : Nat}

/-- An attempt to write some bytes and a jump.  The jump leads where its displacement says. -/
structure MakesJump (b : Buffer) (front : List UInt8) (target : Nat)
    (result : Except Crash Buffer) : Prop where
  tries : b.Tries (front ++ Instr.encode
    (.jmp (displacement (b.offset + front.length + jumpSize) target))) result
  lands : ∀ b', result = .ok b' → b'.targetAt (b.offset + front.length) =
    .ok (landing (b.offset + front.length)
      (displacement (b.offset + front.length + jumpSize) target))

/-- A buffer within whose limits no offset is near the end of the address space. -/
structure IsLow (b : Buffer) : Prop where
  limit_le : b.limit ≤ b.capacity
  capacity_lt : b.capacity < 0x4000000000000000

theorem Writes.isLow {new : List UInt8} {b' : Buffer} (h : b.Writes new b') (low : b.IsLow) :
  b'.IsLow
  := by
  constructor
  · rw [h.limit, h.capacity]
    exact low.limit_le
  · rw [h.capacity]
    exact low.capacity_lt

theorem emitJump_tries (low : b.IsLow) (inside : target ≤ b.capacity) :
  b.Tries (Instr.encode (.jmp (displacement (b.offset + jumpSize) target))) (b.emitJump target)
  := by
  have hlimit := low.limit_le
  have hcapacity := low.capacity_lt
  refine Tries.bind (b.emit_tries [0xe9]) fun b₁ h₁ => ?_
  have hoffset : b₁.offset + 4 = b.offset + jumpSize := by
    rw [h₁.offset]
    rfl
  have hfits := h₁.fits (by simp)
  rw [signedOffset_of_lt (by omega), displacement_ok (by omega) (by omega), hoffset]
  apply emit_tries

/-- The jump behind other bytes that were written with it. -/
theorem Writes.targetAt {front : List UInt8} {disp : BitVec 32} {b' : Buffer}
    (h : b.Writes (front ++ Instr.encode (.jmp disp)) b') (low : b.IsLow) :
  b'.targetAt (b.offset + front.length) = .ok (landing (b.offset + front.length) disp)
  := by
  have hstop : b'.offset = b.offset + front.length + jumpSize := by
    rw [h.offset, List.length_append, ← Nat.add_assoc]
    exact congrArg _ (Instr.size_jmp disp)
  apply targetAt_jmp (Bytes.Has.append_iff.mp h.has).2
  · rw [← hstop, h.capacity]
    apply Nat.le_trans (h.fits _) low.limit_le
    simp [Instr.encode]
  · apply (h.isLow low).capacity_lt

theorem MakesJump.of_tries {front : List UInt8} {x : Except Crash Buffer} (low : b.IsLow)
    (inside : target ≤ b.capacity) (h : b.Tries front x) :
  b.MakesJump front target (x >>= fun b' => b'.emitJump target)
  := by
  have htries : b.Tries (front ++ Instr.encode
      (.jmp (displacement (b.offset + front.length + jumpSize) target)))
        (x >>= fun b' => b'.emitJump target) := by
    refine h.bind fun b' hwrites => ?_
    rw [← hwrites.offset]
    apply emitJump_tries (hwrites.isLow low)
    rw [hwrites.capacity]
    exact inside
  refine ⟨htries, fun b' hok => ?_⟩
  obtain ⟨b'', hok', hwrites⟩ | ⟨herror, -⟩ := htries
  · obtain rfl := Except.ok.inj (hok.symm.trans hok')
    apply hwrites.targetAt low
  · rw [hok] at herror
    cases herror

theorem emitJump_makesJump (low : b.IsLow) (inside : target ≤ b.capacity) :
  b.MakesJump [] target (b.emitJump target)
  := MakesJump.of_tries low inside (.inl ⟨b, rfl, .nil b⟩)

/-- The offset of a jump that can be redirected, and what is written in front of it. -/
theorem emitSite_eq (b : Buffer) (target : Nat) :
  b.emitSite target = (b.offset + jumpPadding b.offset, ·) <$>
    (b.emitPadding (jumpPadding b.offset) >>= fun b' => b'.emitJump target)
  := by
  unfold emitSite
  obtain ⟨b', hok, hwrites⟩ | ⟨herror, -⟩ := b.emitPadding_tries (jumpPadding b.offset)
  · have hoffset := hwrites.offset
    rw [length_padding] at hoffset
    rw [hok, Except.ok_bind, Except.ok_bind, hoffset]
    rfl
  · rw [herror]
    rfl

/-- Redirecting a jump changes its displacement only. -/
structure Redirects (b : Buffer) (jump target : Nat) (b' : Buffer) : Prop where
  kept : ∀ k, k < jump + 1 ∨ jump + jumpSize ≤ k → Bytes.at0 b'.bytes k = Bytes.at0 b.bytes k
  offset : b'.offset = b.offset
  capacity : b'.capacity = b.capacity
  mode : b'.mode = b.mode
  limit : b'.limit = b.limit
  lands : Bytes.at0 b.bytes jump = 0xe9 → b'.targetAt jump = .ok (some target)

theorem has_jmp_overwrite {jump : Nat} (opcode : Bytes.at0 b.bytes jump = 0xe9) (disp : BitVec 32) :
  Bytes.Has (b.overwrite (jump + 1) (field32 disp)).bytes jump (Instr.encode (.jmp disp))
  := by
  rw [Instr.encode, ← List.singleton_append]
  refine Bytes.Has.append_iff.mpr ⟨Bytes.Has.iff_at0.mpr fun i hi => ?_, has_overwrite _ _ _⟩
  obtain rfl : i = 0 := Nat.lt_one_iff.mp hi
  rw [at0_overwrite, if_neg (by omega)]
  exact opcode

theorem patchJump_redirects {jump : Nat} (low : b.IsLow) (inside : target ≤ b.capacity)
    (fits : jump + jumpSize ≤ b.capacity) (reach : Reaches jump target) :
  ∃ b', b.patchJump jump target = .ok b' ∧ b.Redirects jump target b'
  := by
  have hsize : jumpSize = 5 := rfl
  have hcapacity := low.capacity_lt
  have hreach : fitsDisplacement ((target : Int) - (jump + jumpSize : Nat)) = true := reach
  have hpatch : b.patchJump jump target = _ := patchJump_eq fits (by omega)
  rw [if_pos hreach] at hpatch
  have hkept (k : Nat) (hk : k < jump + 1 ∨ jump + jumpSize ≤ k) :
      Bytes.at0 (b.overwrite (jump + 1) (field32 (displacement (jump + jumpSize) target))).bytes k =
        Bytes.at0 b.bytes k := by
    rw [at0_overwrite, if_neg]
    rw [length_field32]
    omega
  refine ⟨_, hpatch, hkept, offset_overwrite _ _ _, capacity_overwrite _ _ _, mode_overwrite _ _ _,
    limit_overwrite _ _ _, fun hjmp => ?_⟩
  apply targetAt_of_has (has_jmp_overwrite hjmp _) reach
  · rw [capacity_overwrite]
    exact fits
  · rw [capacity_overwrite]
    exact hcapacity

theorem patchJump_refuses {jump : Nat} (low : b.IsLow) (inside : target ≤ b.capacity)
    (refused : ¬ (jump + jumpSize ≤ b.capacity ∧ Reaches jump target)) :
  b.patchJump jump target = .error .badArgument
  := by
  have hcapacity := low.capacity_lt
  rw [patchJump, signedOffset_of_lt (by omega)]
  exact if_neg refused

end Buffer

/-- A jump is written wherever there is room for it, and lands on its target if and only if that is
within reach.  A jump that can be redirected has its displacement at a multiple of four, behind at
most three bytes that do nothing.  Redirecting a jump changes nothing but its displacement, and is
refused if the target is out of reach.  In buffers of at most two gigabytes no place is. -/
theorem jumps_land_within_reach (b : Buffer) (low : b.IsLow) (target : Nat)
    (inside : target ≤ b.capacity) :
  b.MakesJump [] target (b.emitJump target) ∧
  (∀ (f : Frame) (r : ExitReason), f.leave = target →
    b.MakesJump (Instr.encode (.movImm false .rax (BitVec.ofNat 64 r.code))) target
      (f.emitExit b r)) ∧
  (∃ (front : List UInt8) (sizes : List Nat) (result : Except Crash Buffer),
    ReadsAs front (sizes.map .nop) ∧ front.length ≤ 3 ∧ (b.offset + front.length + 1) % 4 = 0 ∧
      b.emitSite target = (b.offset + front.length, ·) <$> result ∧
      b.MakesJump front target result) ∧
  (∀ jump : Nat,
    if jump + jumpSize ≤ b.capacity ∧ Reaches jump target then
      ∃ b', b.patchJump jump target = .ok b' ∧ b.Redirects jump target b'
    else b.patchJump jump target = .error .badArgument) ∧
  (∀ jump : Nat, landing jump (displacement (jump + jumpSize) target) = some target ↔
    Reaches jump target) ∧
  (b.capacity ≤ 0x80000000 → ∀ jump : Nat, jump + jumpSize ≤ b.capacity → Reaches jump target)
  := by
  refine ⟨?_, fun f r hleave => ?_, ?_, fun jump => ?_, fun jump => landing_eq_target_iff,
    fun small jump fits => reaches_of_small small fits inside⟩
  · exact Buffer.emitJump_makesJump low inside
  · subst hleave
    exact .of_tries low inside (b.emit_tries _)
  · obtain ⟨sizes, -, hread⟩ := ReadsAs.padding (jumpPadding b.offset)
    refine ⟨_, sizes, _, hread, ?_, ?_, ?_, .of_tries low inside (b.emitPadding_tries _)⟩
    · rw [length_padding]
      exact Nat.le_of_lt_succ (jumpPadding_lt b.offset)
    · rw [length_padding]
      apply displacement_aligned
    · rw [length_padding]
      apply Buffer.emitSite_eq
  · split
    case isTrue h => exact Buffer.patchJump_redirects low inside h.1 h.2
    case isFalse h => exact Buffer.patchJump_refuses low inside h

/-- A jump back over most of a page. -/
theorem jumps_land_within_reach_of_page :
  Buffer.IsLow { capacity := 4096, offset := 4000 } ∧ 5 ≤ 4096 ∧
  ∃ b', Buffer.emitJump { capacity := 4096, offset := 4000 } 5 = .ok b' ∧
    b'.targetAt 4000 = .ok (some 5)
  := by
  have hlow : Buffer.IsLow { capacity := 4096, offset := 4000 } := ⟨by decide, by decide⟩
  obtain ⟨hmakes, -, -, -, hiff, hsmall⟩ := jumps_land_within_reach _ hlow 5 (by decide)
  obtain ⟨b', hok, -⟩ := hmakes.tries.exists_ok (by decide)
  refine ⟨hlow, by decide, b', hok, (hmakes.lands b' hok).trans (congrArg _ ?_)⟩
  exact (hiff 4000).mpr (hsmall (by decide) 4000 (by decide))

/-- A jump over two gigabytes is written without complaint and leads nowhere. -/
theorem far_jump_misses :
  ∃ b b₁ b₂, Buffer.create 0x80001000 = .ok (some b) ∧ 0x80000005 ≤ b.capacity ∧
    b.beginWrite = .ok b₁ ∧ b₁.emitJump 0x80000005 = .ok b₂ ∧ b₂.targetAt 0 = .ok none
  := by
  have hmakes : Buffer.MakesJump { capacity := 0x80001000, mode := .write } [] 0x80000005
      (Buffer.emitJump { capacity := 0x80001000, mode := .write } 0x80000005) :=
    Buffer.emitJump_makesJump ⟨by decide, by decide⟩ (by decide)
  obtain ⟨b₂, hok, -⟩ := hmakes.tries.exists_ok (by decide)
  refine ⟨_, _, b₂, rfl, by decide, rfl, hok, (hmakes.lands b₂ hok).trans ?_⟩
  decide

end CrossHart.Host
