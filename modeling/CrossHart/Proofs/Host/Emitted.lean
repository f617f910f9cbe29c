import CrossHart.Proofs.Host.Jump
import CrossHart.Proofs.Host.Processor

/-!
# Reading emitted code back

What is written at the offset of a buffer, and the instructions that the processor reads from it.
An instruction is read from its own bytes, whatever follows them, and no byte is left over.  Only
constants are read as other instructions than were asked for, as the shortest way to put one into
a register depends on its value.
-/

namespace CrossHart.Host

/-! ### Reading -/

/-- Bytes that are read as instructions one after the other, whatever follows each of them. -/
inductive ReadsAs : List UInt8 → List Instr → Prop where
  | nil : ReadsAs [] []
  | cons {front rest : List UInt8} {i : Instr} {is : List Instr}
      (read : ∀ s, Instr.decode? (front ++ s) = some (i, front.length)) (next : ReadsAs rest is) :
      ReadsAs (front ++ rest) (i :: is)

theorem ReadsAs.encode {i : Instr} (readable : i.IsReadable) :
  ReadsAs i.encode [i.normal]
  := by
  rw [← List.append_nil i.encode]
  exact .cons (i.decode?_encode readable) .nil

/-- Padding consists of instructions that do nothing, of as many bytes in all. -/
theorem ReadsAs.padding (n : Nat) :
  ∃ sizes : List Nat, sizes.sum = n ∧ ReadsAs (padding n) (sizes.map .nop)
  := by
  induction n using Nat.strongRecOn with
  | ind n ih =>
    have hnop {m : Nat} (pos : 0 < m) (le : m ≤ 8) (s : List UInt8) :
        Instr.decode? (nopBytes m ++ s) = some (.nop m, (nopBytes m).length) :=
      (Instr.nop m).decode?_encode ⟨pos, le⟩ s
    rw [Host.padding]
    split
    case isTrue hzero => exact ⟨[], hzero.symm, .nil⟩
    case isFalse hpos =>
      split
      case isTrue hle =>
        refine ⟨[n], List.sum_singleton, ?_⟩
        rw [← List.append_nil (nopBytes n)]
        exact .cons (hnop (by omega) hle) .nil
      case isFalse hgt =>
        obtain ⟨sizes, hsum, hread⟩ := ih (n - 8) (by omega)
        refine ⟨8 :: sizes, ?_, .cons (hnop (by decide) (by decide)) hread⟩
        rw [List.sum_cons, hsum]
        omega

/-! ### Writing -/

namespace Buffer

/-- Bytes are written at the offset of a buffer, within its limit, and nothing else changes. -/
structure Writes (b : Buffer) (new : List UInt8) (b' : Buffer) : Prop where
  has : Bytes.Has b'.bytes b.offset new
  kept : ∀ k, k < b.offset ∨ b'.offset ≤ k → Bytes.at0 b'.bytes k = Bytes.at0 b.bytes k
  offset : b'.offset = b.offset + new.length
  fits : new ≠ [] → b'.offset ≤ b.limit
  capacity : b'.capacity = b.capacity
  mode : b'.mode = b.mode
  limit : b'.limit = b.limit

theorem Writes.nil (b : Buffer) :
  b.Writes [] b
  := ⟨Bytes.Has.nil, fun _ _ => rfl, rfl, fun hne => absurd rfl hne, rfl, rfl, rfl⟩

theorem Writes.append {b b₁ b₂ : Buffer} {new new' : List UInt8} (h : b.Writes new b₁)
    (h' : b₁.Writes new' b₂) :
  b.Writes (new ++ new') b₂
  := by
  have hoffset := h.offset
  have hoffset' := h'.offset
  refine ⟨Bytes.Has.append_iff.mpr ⟨h.has.congr fun k _ hk => ?_, ?_⟩, fun k hk => ?_, ?_,
    fun hne => ?_, h'.capacity.trans h.capacity, h'.mode.trans h.mode, h'.limit.trans h.limit⟩
  · exact h'.kept k (by omega)
  · rw [← hoffset]
    exact h'.has
  · rw [h'.kept k (by omega), h.kept k (by omega)]
  · rw [hoffset', hoffset, List.length_append, Nat.add_assoc]
  · by_cases hnil : new' = []
    · subst hnil
      rw [List.append_nil] at hne
      exact Nat.le_trans (Nat.le_of_eq hoffset') (h.fits hne)
    · rw [← h.limit]
      exact h'.fits hnil

/-- An attempt to write bytes at the offset of a buffer, which fails only for lack of room. -/
def Tries (b : Buffer) (new : List UInt8) (result : Except Crash Buffer) : Prop :=
  (∃ b', result = .ok b' ∧ b.Writes new b') ∨
    result = .error (.breach .bufferOverflow) ∧ b.limit < b.offset + new.length

theorem Tries.exists_ok {b : Buffer} {new : List UInt8} {x : Except Crash Buffer}
    (h : b.Tries new x) (room : b.offset + new.length ≤ b.limit) :
  ∃ b', x = .ok b' ∧ b.Writes new b'
  := h.resolve_right fun ⟨_, hfull⟩ => absurd room (Nat.not_le_of_lt hfull)

/-- One write after the other. -/
theorem Tries.bind {b : Buffer} {new new' : List UInt8} {x : Except Crash Buffer}
    {f : Buffer → Except Crash Buffer} (h : b.Tries new x)
    (next : ∀ b', b.Writes new b' → b'.Tries new' (f b')) :
  b.Tries (new ++ new') (x >>= f)
  := by
  have hlength : (new ++ new').length = new.length + new'.length := List.length_append
  obtain ⟨b', rfl, hwrites⟩ | ⟨rfl, hfull⟩ := h
  · rw [Except.ok_bind]
    obtain ⟨b'', hok, hwrites'⟩ | ⟨herror, hfull⟩ := next b' hwrites
    · exact .inl ⟨b'', hok, hwrites.append hwrites'⟩
    · rw [hwrites.offset, hwrites.limit] at hfull
      exact .inr ⟨herror, by omega⟩
  · exact .inr ⟨rfl, by omega⟩

theorem emit_tries (b : Buffer) (new : List UInt8) :
  b.Tries new (b.emit new)
  := by
  unfold emit
  split
  case isTrue hroom =>
    refine .inl ⟨_, rfl, has_overwrite _ _ _, fun k hk => ?_, rfl, fun _ => hroom, rfl, rfl, rfl⟩
    rw [offset_overwrite] at hk
    dsimp only at hk
    rw [at0_overwrite, if_neg (by omega)]
  case isFalse hfull => exact .inr ⟨rfl, Nat.lt_of_not_le hfull⟩

theorem emitPadding_tries (b : Buffer) (n : Nat) :
  b.Tries (padding n) (b.emitPadding n)
  := by
  unfold emitPadding
  split
  case isTrue hzero =>
    rw [hzero, padding_eq_nopBytes (by decide)]
    exact .inl ⟨b, rfl, .nil b⟩
  case isFalse =>
    split
    case isTrue => apply emit_tries
    case isFalse hfull =>
      refine .inr ⟨rfl, ?_⟩
      rw [length_padding]
      exact Nat.lt_of_not_le hfull

/-- A write that succeeds, and whose bytes are read as the given instructions. -/
def Adds (b : Buffer) (is : List Instr) (result : Except Crash Buffer) : Prop :=
  ∃ new b', result = .ok b' ∧ b.Writes new b' ∧ ReadsAs new is

theorem adds_emitInstr {b : Buffer} {i : Instr} (readable : i.IsReadable)
    (room : b.offset + i.size ≤ b.limit) :
  b.Adds [i.normal] (b.emitInstr i)
  := by
  obtain ⟨b', hemit, hwrites⟩ := (b.emit_tries i.encode).exists_ok room
  exact ⟨_, b', hemit, hwrites, .encode readable⟩

theorem adds_emitPadding {b : Buffer} {n : Nat} (room : b.offset + n ≤ b.limit) :
  ∃ sizes : List Nat, sizes.sum = n ∧ b.Adds (sizes.map .nop) (b.emitPadding n)
  := by
  rw [← length_padding n] at room
  obtain ⟨sizes, hsum, hread⟩ := ReadsAs.padding n
  obtain ⟨b', hemit, hwrites⟩ := (b.emitPadding_tries n).exists_ok room
  exact ⟨sizes, hsum, _, b', hemit, hwrites, hread⟩

end Buffer

/-- The instructions that are read as themselves: all but constants, which have several forms, and
those that do nothing, which are written as padding. -/
def Instr.IsLiteral : Instr → Prop
  | .movImm _ _ _ => False
  | .nop _ => False
  | _ => True

theorem Instr.IsLiteral.isReadable {i : Instr} (literal : i.IsLiteral) :
  i.IsReadable
  := by cases i <;> trivial

theorem Instr.IsLiteral.normal_eq {i : Instr} (literal : i.IsLiteral) :
  i.normal = i
  := by
  cases i with
  | movImm wide dst value => cases literal
  | _ => rfl

/-- Instructions are read as what was asked for, from exactly the bytes that were written.  A
constant is read as an instruction that puts it into all of the register, without its upper half if
it was asked for with 32 bits.  Padding is read as instructions that do nothing, of the length asked
for. -/
theorem emitted_code_reads_back (b : Buffer) :
  (∀ i : Instr, i.IsLiteral → b.offset + i.size ≤ b.limit → b.Adds [i] (b.emitInstr i)) ∧
  (∀ (wide : Bool) (r : Reg) (value : Word),
    b.offset + (Instr.movImm wide r value).size ≤ b.limit →
    ∃ i, b.Adds [i] (b.emitInstr (.movImm wide r value)) ∧
      ∀ (env : Environment) (p : Processor), ∃ flags,
        Processor.execute env i p = .ok ((p.setReg r
          (BitVec.ofNat 64 (if wide then value.toNat else value.toNat % 0x100000000))).withFlags
            flags)) ∧
  (∀ n : Nat, b.offset + n ≤ b.limit →
    ∃ sizes : List Nat, sizes.sum = n ∧ b.Adds (sizes.map .nop) (b.emitPadding n))
  := by
  refine ⟨fun i literal room => ?_, fun wide r value room => ?_, fun n room => ?_⟩
  · have hadds := Buffer.adds_emitInstr literal.isReadable room
    rw [literal.normal_eq] at hadds
    exact hadds
  · refine ⟨_, Buffer.adds_emitInstr trivial room, fun env p => ?_⟩
    have hvalue : BitVec.ofNat 64 (if wide then value.toNat else value.toNat % 0x100000000) =
        if wide then value else (value.setWidth 32).setWidth 64 := by
      cases wide with
      | true => apply BitVec.ofNat_toNat
      | false =>
        apply BitVec.eq_of_toNat_eq
        simp
    rw [hvalue]
    apply Processor.execute_movImm
  · apply Buffer.adds_emitPadding room

/-- A page on which a counter is written whose base needs an offset even if it is zero, a constant
whose upper half is left out, and padding of three instructions. -/
theorem emitted_code_reads_back_of_page :
  0 + (Instr.arithMem .sub true .r13 0 0x80).size ≤ 4096 ∧
  Buffer.Adds { capacity := 4096 } [.arithMem .sub true .r13 0 0x80]
    (Buffer.emitInstr { capacity := 4096 } (.arithMem .sub true .r13 0 0x80)) ∧
  (∃ i, Buffer.Adds { capacity := 4096 } [i]
      (Buffer.emitInstr { capacity := 4096 } (.movImm false .r12 0x900000001)) ∧
    ∀ (env : Environment) (p : Processor), ∃ flags,
      Processor.execute env i p = .ok ((p.setReg .r12 1).withFlags flags)) ∧
  ∃ sizes : List Nat, sizes.sum = 19 ∧
    Buffer.Adds { capacity := 4096 } (sizes.map .nop) (Buffer.emitPadding { capacity := 4096 } 19)
  := by
  obtain ⟨hliteral, hconstant, hpadding⟩ := emitted_code_reads_back { capacity := 4096 }
  refine ⟨by decide, hliteral _ trivial (by decide), ?_, hpadding 19 (by decide)⟩
  exact hconstant false .r12 0x900000001 (by decide)

end CrossHart.Host
