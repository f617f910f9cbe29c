import CrossHart.Isa.Op

/-!
# Host registers, conditions and operations

The host is an x86-64 processor.  Its sixteen general registers have numbers of four bits; the
high bit goes into a prefix byte and the low three bits into the operand byte.
-/

namespace CrossHart.Host

/-- The general registers of the host. -/
inductive Reg where
  | rax | rcx | rdx | rbx | rsp | rbp | rsi | rdi
  | r8 | r9 | r10 | r11 | r12 | r13 | r14 | r15
  deriving DecidableEq, Inhabited, Repr

namespace Reg

/-- The registers, in the order of their numbers. -/
def all : List Reg :=
  [rax, rcx, rdx, rbx, rsp, rbp, rsi, rdi, r8, r9, r10, r11, r12, r13, r14, r15]

/-- The number of a register. -/
def code : Reg → Fin 16
  | rax => 0 | rcx => 1 | rdx => 2 | rbx => 3 | rsp => 4 | rbp => 5 | rsi => 6 | rdi => 7
  | r8 => 8 | r9 => 9 | r10 => 10 | r11 => 11 | r12 => 12 | r13 => 13 | r14 => 14 | r15 => 15

/-- The register whose number has the given low four bits. -/
def ofCode (n : Nat) : Reg :=
  match n % 16 with
  | 0 => rax | 1 => rcx | 2 => rdx | 3 => rbx | 4 => rsp | 5 => rbp | 6 => rsi | 7 => rdi
  | 8 => r8 | 9 => r9 | 10 => r10 | 11 => r11 | 12 => r12 | 13 => r13 | 14 => r14 | _ => r15

/-- A register is found by its number. -/
@[simp]
theorem ofCode_code (r : Reg) :
  ofCode r.code = r
  := by cases r <;> rfl

/-- The low three bits of the number of a register. -/
def low3 (r : Reg) : Nat :=
  r.code % 8

/-- Whether the number of a register has its high bit set. -/
def isHigh (r : Reg) : Bool :=
  8 ≤ r.code.val

/-- The registers that compiled code uses within one guest instruction only. -/
def isScratch : Reg → Bool
  | rax | rcx | rdx | rsi | rdi => true
  | _ => false

end Reg

/-- A set of host registers, one bit for each. -/
abbrev RegSet := BitVec 16

namespace RegSet

/-- Whether a set has a register. -/
def has (s : RegSet) (r : Reg) : Bool :=
  s.getLsbD r.code

/-- The set with a register. -/
def insert (s : RegSet) (r : Reg) : RegSet :=
  s ||| 1#16 <<< r.code.val

/-- The set without a register. -/
def erase (s : RegSet) (r : Reg) : RegSet :=
  s &&& ~~~(1#16 <<< r.code.val)

end RegSet

/-! ### Operations -/

/-- The arithmetic operations of the host. -/
inductive Arith where
  | add | or | and | sub | xor | cmp
  deriving DecidableEq, Inhabited, Repr

namespace Arith

/-- The arithmetic operations, in the order of their numbers. -/
def all : List Arith := [add, or, and, sub, xor, cmp]

/-- The number of an operation in an encoding. -/
def code : Arith → Nat
  | add => 0 | or => 1 | and => 4 | sub => 5 | xor => 6 | cmp => 7

/-- The operation with a number.  Additions and subtractions with carry have none. -/
def ofCode? : Nat → Option Arith
  | 0 => some add | 1 => some or | 4 => some and | 5 => some sub | 6 => some xor | 7 => some cmp
  | _ => none

@[simp]
theorem ofCode?_code (op : Arith) :
  ofCode? op.code = some op
  := by cases op <;> rfl

end Arith

/-- The shifts of the host. -/
inductive Shift where
  | shl | shr | sar
  deriving DecidableEq, Inhabited, Repr

namespace Shift

/-- The shifts, in the order of their numbers. -/
def all : List Shift := [shl, shr, sar]

/-- The number of a shift in an encoding. -/
def code : Shift → Nat
  | shl => 4 | shr => 5 | sar => 7

/-- The shift with a number.  Rotations have none. -/
def ofCode? : Nat → Option Shift
  | 4 => some shl | 5 => some shr | 7 => some sar
  | _ => none

@[simp]
theorem ofCode?_code (op : Shift) :
  ofCode? op.code = some op
  := by cases op <;> rfl

end Shift

/-- The conditions of the host, on the flags that the last operation left. -/
inductive Cond where
  | jo | jno | jb | jae | je | jne | jbe | ja | js | jns | jp | jnp | jl | jge | jle | jg
  deriving DecidableEq, Inhabited, Repr

namespace Cond

/-- The conditions, in the order of their numbers. -/
def all : List Cond :=
  [jo, jno, jb, jae, je, jne, jbe, ja, js, jns, jp, jnp, jl, jge, jle, jg]

/-- The number of a condition. -/
def code : Cond → Nat
  | jo => 0 | jno => 1 | jb => 2 | jae => 3 | je => 4 | jne => 5 | jbe => 6 | ja => 7
  | js => 8 | jns => 9 | jp => 10 | jnp => 11 | jl => 12 | jge => 13 | jle => 14 | jg => 15

/-- The condition with a number. -/
def ofCode (n : Nat) : Cond :=
  match n % 16 with
  | 0 => jo | 1 => jno | 2 => jb | 3 => jae | 4 => je | 5 => jne | 6 => jbe | 7 => ja
  | 8 => js | 9 => jns | 10 => jp | 11 => jnp | 12 => jl | 13 => jge | 14 => jle | _ => jg

@[simp]
theorem ofCode_code (c : Cond) :
  ofCode c.code = c
  := by cases c <;> rfl

/-- The condition for a guest branch, after a comparison of its operands. -/
def ofBranch : Isa.BranchOp → Cond
  | .beq => je
  | .bne => jne
  | .blt => jl
  | .bge => jge
  | .bltu => jb
  | .bgeu => jae

end Cond

end CrossHart.Host
