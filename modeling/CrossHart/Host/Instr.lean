import CrossHart.Bytes
import CrossHart.Host.Reg

/-!
# Host instructions

The instructions of the host that compiled code consists of, and their bytes.  `wide` says whether
an instruction is on 64 or on 32 bits.  Among several encodings of an instruction the shortest is
taken.
-/

namespace CrossHart.Host

/-- A host instruction. -/
inductive Instr where
  | arith (op : Arith) (wide : Bool) (dst src : Reg)
  | arithImm (op : Arith) (wide : Bool) (dst : Reg) (imm : BitVec 32)
  | arithMem (op : Arith) (wide : Bool) (base : Reg) (off imm : BitVec 32)
  | shift (op : Shift) (wide : Bool) (dst : Reg) (amount : BitVec 8)
  /-- A shift by the low byte of `rcx`. -/
  | shiftCl (op : Shift) (wide : Bool) (dst : Reg)
  /-- The unsigned product of `rax` and a register, in `rdx` and `rax`. -/
  | mul (wide : Bool) (src : Reg)
  /-- The signed product of `rax` and a register, in `rdx` and `rax`. -/
  | imul (wide : Bool) (src : Reg)
  /-- The low half of a product. -/
  | imulLow (wide : Bool) (dst src : Reg)
  | test (wide : Bool) (a b : Reg)
  /-- Zero or one in the low byte of a register. -/
  | setcc (c : Cond) (dst : Reg)
  | mov (wide : Bool) (dst src : Reg)
  | movImm (wide : Bool) (dst : Reg) (value : Word)
  /-- The low half of a register, extended with its sign. -/
  | movslq (dst src : Reg)
  | load (wide : Bool) (dst base : Reg) (off : BitVec 32)
  | store (wide : Bool) (src base : Reg) (off : BitVec 32)
  | storeImm (wide : Bool) (base : Reg) (off imm : BitVec 32)
  /-- A jump relative to the next instruction. -/
  | jmp (disp : BitVec 32)
  | jcc (c : Cond) (disp : BitVec 32)
  | jmpReg (r : Reg)
  | callReg (r : Reg)
  | push (r : Reg)
  | pop (r : Reg)
  | ret
  /-- Nothing, in a number of bytes. -/
  | nop (size : Nat)
  deriving DecidableEq, Repr

/-! ### Opcodes and operands -/

/-- An opcode, with what its prefixes have to say. -/
structure Opcode where
  /-- The opcode byte. -/
  byte : Nat
  /-- Whether the opcode is in the second table. -/
  escaped : Bool := false
  /-- Whether the operands have 64 bits. -/
  wide : Bool := false
  /-- Whether the operand is a byte register. -/
  byteOperand : Bool := false
  deriving DecidableEq, Repr

namespace Opcode

/-- The opcode of a number: its byte, and three flags at bits 8, 12 and 14. -/
def ofNat (n : Nat) : Opcode where
  byte := n % 256
  escaped := n.testBit 8
  wide := n.testBit 12
  byteOperand := n.testBit 14

/-- The prefix that carries the operand width and the high bits of two register numbers. -/
def rex (wide r rm : Bool) : Nat :=
  (if wide then 8 else 0) + (if r then 4 else 0) + (if rm then 1 else 0)

/-- Prefixes and opcode, for operands with the given register numbers.  Without a prefix the byte
registers 4 to 7 would be other ones. -/
def bytes (o : Opcode) (r rm : Nat) : List UInt8 :=
  let rex := rex o.wide (8 ≤ r) (8 ≤ rm)
  (if rex ≠ 0 ∨ (o.byteOperand ∧ 4 ≤ rm) then [UInt8.ofNat (0x40 + rex)] else []) ++
    (if o.escaped then [0x0f] else []) ++ [UInt8.ofNat o.byte]

end Opcode

/-- The operand byte. -/
def operandByte (mode r rm : Nat) : UInt8 :=
  UInt8.ofNat (64 * mode + 8 * (r % 8) + rm % 8)

/-- The bytes of a 32-bit field. -/
def field32 (v : BitVec 32) : List UInt8 :=
  Bytes.littleEndian 4 v.toNat

/-- The byte of an 8-bit field. -/
def field8 (v : BitVec 32) : List UInt8 :=
  Bytes.littleEndian 1 v.toNat

/-- Whether a number is the sign extension of its low byte. -/
def fitsByte (v : BitVec 32) : Bool :=
  (v.setWidth 8).signExtend 32 == v

/-- An instruction on two registers. -/
def onRegs (o : Opcode) (r rm : Reg) : List UInt8 :=
  o.bytes r.code rm.code ++ [operandByte 3 r.code rm.code]

/-- An instruction on one register, with a number that completes the opcode. -/
def onReg (o : Opcode) (digit : Nat) (rm : Reg) : List UInt8 :=
  o.bytes digit rm.code ++ [operandByte 3 digit rm.code]

/-- The operand `off(base)`.  Some bases need a second operand byte, and some always an offset. -/
def memoryOperand (r : Nat) (base : Reg) (off : BitVec 32) : List UInt8 :=
  let mode := if off = 0 ∧ base.low3 ≠ 5 then 0 else if fitsByte off then 1 else 2
  operandByte mode r base.low3 ::
    ((if base.low3 = 4 then [0x24] else []) ++
      match mode with
      | 0 => []
      | 1 => field8 off
      | _ => field32 off)

/-- An instruction on a register and memory, or on memory alone with a number that completes the
opcode. -/
def onMemory (o : Opcode) (r : Nat) (base : Reg) (off : BitVec 32) : List UInt8 :=
  o.bytes r base.code ++ memoryOperand r base off

/-- The shortest instructions that do nothing, by size. -/
def nopBytes : Nat → List UInt8
  | 1 => [0x90]
  | 2 => [0x66, 0x90]
  | 3 => [0x0f, 0x1f, 0x00]
  | 4 => [0x0f, 0x1f, 0x40, 0x00]
  | 5 => [0x0f, 0x1f, 0x44, 0x00, 0x00]
  | 6 => [0x66, 0x0f, 0x1f, 0x44, 0x00, 0x00]
  | 7 => [0x0f, 0x1f, 0x80, 0x00, 0x00, 0x00, 0x00]
  | 8 => [0x0f, 0x1f, 0x84, 0x00, 0x00, 0x00, 0x00, 0x00]
  | _ => []

/-- Bytes that do nothing, of a given number. -/
def padding (n : Nat) : List UInt8 :=
  if n = 0 then []
  else if n ≤ 8 then nopBytes n
  else nopBytes 8 ++ padding (n - 8)
termination_by n

/-! ### Instructions -/

namespace Instr

/-- The bytes of an instruction with an immediate, which takes one byte where it fits. -/
def withImm (imm : BitVec 32) (encode : Opcode → List UInt8) (wide : Bool) : List UInt8 :=
  if fitsByte imm then encode { byte := 0x83, wide } ++ field8 imm
  else encode { byte := 0x81, wide } ++ field32 imm

/-- The bytes of the instruction that puts a constant into a register.  Zero is made by `xor`,
which changes the flags. -/
def encodeMovImm (wide : Bool) (dst : Reg) (value : Word) : List UInt8 :=
  if value = 0 then onRegs { byte := 0x31 } dst dst
  else if !wide ∨ value.toNat < 0x100000000 then
    Opcode.bytes { byte := 0xb8 + dst.low3 } 0 dst.code ++ field32 (value.setWidth 32)
  else if (value.setWidth 32).signExtend 64 = value then
    onReg { byte := 0xc7, wide := true } 0 dst ++ field32 (value.setWidth 32)
  else
    Opcode.bytes { byte := 0xb8 + dst.low3, wide := true } 0 dst.code ++ Bytes.ofWord 8 value

/-- The bytes of an instruction. -/
def encode : Instr → List UInt8
  | arith op wide dst src => onRegs { byte := 0x03 + 8 * op.code, wide } dst src
  | arithImm op wide dst imm => withImm imm (onReg · op.code dst) wide
  | arithMem op wide base off imm => withImm imm (onMemory · op.code base off) wide
  | shift op wide dst amount =>
    if amount = 1 then onReg { byte := 0xd1, wide } op.code dst
    else onReg { byte := 0xc1, wide } op.code dst ++ [UInt8.ofNat amount.toNat]
  | shiftCl op wide dst => onReg { byte := 0xd3, wide } op.code dst
  | mul wide src => onReg { byte := 0xf7, wide } 4 src
  | imul wide src => onReg { byte := 0xf7, wide } 5 src
  | imulLow wide dst src => onRegs { byte := 0xaf, escaped := true, wide } dst src
  | test wide a b => onRegs { byte := 0x85, wide } a b
  | setcc c dst => onReg { byte := 0x90 + c.code, escaped := true, byteOperand := true } 0 dst
  | mov wide dst src => onRegs { byte := 0x89, wide } src dst
  | movImm wide dst value => encodeMovImm wide dst value
  | movslq dst src => onRegs { byte := 0x63, wide := true } dst src
  | load wide dst base off => onMemory { byte := 0x8b, wide } dst.code base off
  | store wide src base off => onMemory { byte := 0x89, wide } src.code base off
  | storeImm wide base off imm => onMemory { byte := 0xc7, wide } 0 base off ++ field32 imm
  | jmp disp => 0xe9 :: field32 disp
  | jcc c disp => Opcode.bytes { byte := 0x80 + c.code, escaped := true } 0 0 ++ field32 disp
  | jmpReg r => onReg { byte := 0xff } 4 r
  | callReg r => onReg { byte := 0xff } 2 r
  | push r => Opcode.bytes { byte := 0x50 + r.low3 } 0 r.code
  | pop r => Opcode.bytes { byte := 0x58 + r.low3 } 0 r.code
  | ret => [0xc3]
  | nop size => nopBytes size

/-- The bytes of a sequence of instructions. -/
def encodeAll (is : List Instr) : List UInt8 :=
  is.flatMap encode

/-- The number of bytes of an instruction. -/
def size (i : Instr) : Nat :=
  i.encode.length

end Instr

end CrossHart.Host
