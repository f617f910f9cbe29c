import CrossHart.Host.Instr
import Mathlib.Tactic.Common

/-!
# Sizes of host instructions

How many bytes an instruction takes at most, by its form.
-/

namespace CrossHart.Host

theorem Opcode.length_bytes_le (o : Opcode) (r rm : Nat) :
  (o.bytes r rm).length ≤ if o.escaped then 3 else 2
  := by
  simp only [Opcode.bytes, List.length_append, List.length_singleton]
  split <;> split <;> simp

theorem length_onRegs_le (o : Opcode) (r rm : Reg) :
  (onRegs o r rm).length ≤ if o.escaped then 4 else 3
  := by
  have h := o.length_bytes_le r.code rm.code
  rw [onRegs, List.length_append, List.length_singleton]
  split at h
  case isTrue hescaped =>
    rw [if_pos hescaped]
    omega
  case isFalse hescaped =>
    rw [if_neg hescaped]
    omega

theorem length_onReg_le (o : Opcode) (digit : Nat) (rm : Reg) :
  (onReg o digit rm).length ≤ if o.escaped then 4 else 3
  := by
  have h := o.length_bytes_le digit rm.code
  rw [onReg, List.length_append, List.length_singleton]
  split at h
  case isTrue hescaped =>
    rw [if_pos hescaped]
    omega
  case isFalse hescaped =>
    rw [if_neg hescaped]
    omega

@[simp]
theorem length_field32 (v : BitVec 32) :
  (field32 v).length = 4
  := Bytes.length_littleEndian _ _

@[simp]
theorem length_field8 (v : BitVec 32) :
  (field8 v).length = 1
  := Bytes.length_littleEndian _ _

/-- A base whose low bits are not those of `rsp` needs no second operand byte. -/
theorem length_memoryOperand_le (r : Nat) (base : Reg) (off : BitVec 32) :
  (memoryOperand r base off).length ≤ if base.low3 = 4 then 6 else 5
  := by
  simp only [memoryOperand, List.length_cons, List.length_append]
  generalize (if off = 0 ∧ base.low3 ≠ 5 then 0 else if fitsByte off then 1 else 2) = mode
  by_cases hbase : base.low3 = 4
  · rw [if_pos hbase, if_pos hbase]
    rcases mode with _ | _ | mode <;> simp [length_field8, length_field32]
  · rw [if_neg hbase, if_neg hbase]
    rcases mode with _ | _ | mode <;> simp [length_field8, length_field32]

theorem length_onMemory_le (o : Opcode) (r : Nat) (base : Reg) (off : BitVec 32)
    (plain : o.escaped = false) :
  (onMemory o r base off).length ≤ if base.low3 = 4 then 8 else 7
  := by
  have hbytes := o.length_bytes_le r base.code
  have hoperand := length_memoryOperand_le r base off
  rw [plain] at hbytes
  rw [onMemory, List.length_append]
  split at hoperand <;> simp_all <;> omega

namespace Instr

/-- A bound for the number of bytes of an instruction. -/
def maxSize : Instr → Nat
  | arith .. | shiftCl .. | mul .. | imul .. | test .. | mov .. | movslq .. | jmpReg _
  | callReg _ => 3
  | imulLow .. | setcc .. | shift .. => 4
  | arithImm .. => 7
  | arithMem _ _ base _ _ | storeImm _ base _ _ => if base.low3 = 4 then 12 else 11
  | movImm wide _ _ => if wide then 10 else 6
  | load _ _ base _ | store _ _ base _ => if base.low3 = 4 then 8 else 7
  | jmp _ => 5
  | jcc .. => 7
  | push _ | pop _ => 2
  | ret => 1
  | nop _ => 8

theorem length_withImm_le (imm : BitVec 32) (encode : Opcode → List UInt8) (wide : Bool) {n : Nat}
    (h : ∀ byte, (encode { byte, wide }).length ≤ n) :
  (withImm imm encode wide).length ≤ n + 4
  := by
  unfold withImm
  split
  · have := h 0x83
    simp only [List.length_append, length_field8]
    omega
  · have := h 0x81
    simp only [List.length_append, length_field32]
    omega

theorem length_encodeMovImm_le (wide : Bool) (dst : Reg) (value : Word) :
  (encodeMovImm wide dst value).length ≤ if wide then 10 else 6
  := by
  have hshort := Opcode.length_bytes_le { byte := 0xb8 + dst.low3 } 0 dst.code
  have hlong := Opcode.length_bytes_le { byte := 0xb8 + dst.low3, wide := true } 0 dst.code
  have hregs := length_onRegs_le { byte := 0x31 } dst dst
  have hreg := length_onReg_le { byte := 0xc7, wide := true } 0 dst
  simp only [Bool.false_eq_true, if_false] at hshort hlong hregs hreg
  unfold encodeMovImm
  split
  · split <;> omega
  split
  · rw [List.length_append, length_field32]
    split <;> omega
  rename_i hwide
  have hwide : wide = true := by simpa using (not_or.mp hwide).1
  rw [hwide, if_pos rfl]
  split
  · rw [List.length_append, length_field32]
    omega
  · have hword : (Bytes.ofWord 8 value).length = 8 := Bytes.length_littleEndian _ _
    rw [List.length_append, hword]
    omega

theorem size_le_maxSize (i : Instr) :
  i.size ≤ i.maxSize
  := by
  cases i with
  | arith op wide dst src => apply length_onRegs_le
  | arithImm op wide dst imm =>
    exact length_withImm_le imm (onReg · op.code dst) wide (n := 3) fun byte =>
      length_onReg_le { byte, wide } op.code dst
  | arithMem op wide base off imm =>
    have hlen := length_withImm_le imm (onMemory · op.code base off) wide fun byte =>
      length_onMemory_le { byte, wide } op.code base off rfl
    simp only [size, encode, maxSize]
    split at hlen <;> simp_all
  | shift op wide dst amount =>
    simp only [size, encode, maxSize]
    split
    · apply Nat.le_succ_of_le
      apply length_onReg_le
    · have := length_onReg_le { byte := 0xc1, wide } op.code dst
      rw [List.length_append, List.length_singleton]
      simp only [Bool.false_eq_true, if_false] at this
      omega
  | shiftCl op wide dst => apply length_onReg_le
  | mul wide src => apply length_onReg_le
  | imul wide src => apply length_onReg_le
  | imulLow wide dst src => apply length_onRegs_le
  | test wide a b => apply length_onRegs_le
  | setcc c dst => apply length_onReg_le
  | mov wide dst src => apply length_onRegs_le
  | movImm wide dst value => apply length_encodeMovImm_le
  | movslq dst src => apply length_onRegs_le
  | load wide dst base off => exact length_onMemory_le _ _ _ _ rfl
  | store wide src base off => exact length_onMemory_le _ _ _ _ rfl
  | storeImm wide base off imm =>
    have hlen := length_onMemory_le { byte := 0xc7, wide } 0 base off rfl
    simp only [size, encode, maxSize, List.length_append, length_field32]
    split at hlen <;> simp_all
  | jmp disp => simp [size, encode, maxSize, length_field32]
  | jcc c disp =>
    have hlen := Opcode.length_bytes_le { byte := 0x80 + c.code, escaped := true } 0 0
    simp only [size, encode, maxSize, List.length_append, length_field32]
    simp only [if_true] at hlen
    omega
  | jmpReg r => apply length_onReg_le
  | callReg r => apply length_onReg_le
  | push r => apply Opcode.length_bytes_le
  | pop r => apply Opcode.length_bytes_le
  | ret => apply Nat.le_refl
  | nop size =>
    simp only [Instr.size, encode, maxSize]
    unfold nopBytes
    split <;> simp

/-- No instruction is longer than twelve bytes. -/
theorem size_le (i : Instr) :
  i.size ≤ 12
  := by
  apply Nat.le_trans i.size_le_maxSize
  cases i <;> simp only [maxSize] <;> first | omega | (split <;> omega)

end Instr

end CrossHart.Host
