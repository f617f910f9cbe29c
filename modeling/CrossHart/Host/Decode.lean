import CrossHart.Host.Instr

/-!
# Reading host instructions

The instruction at the front of a byte string, by the tables of the processor: prefixes, one or
two opcode bytes, the operand byte with what it asks for, and the immediate.  An instruction that
has several encodings is read from each of them.  Instructions that compiled code does not use
are not read.
-/

namespace CrossHart.Host

/-- A reader of a value from the front of a byte string, which also gives the rest. -/
abbrev Reader (α : Type) := StateT (List UInt8) Option α

namespace Reader

/-- The next byte, as a number. -/
def byte : Reader Nat
  | [] => none
  | b :: rest => some (b.toNat, rest)

/-- The next `n` bytes, as a little-endian number. -/
def bytes (n : Nat) : Reader Nat := fun s =>
  if n ≤ s.length then some (Bytes.ofLittleEndian (s.take n), s.drop n) else none

/-- A 32-bit field. -/
def field32 : Reader (BitVec 32) := do
  return BitVec.ofNat 32 (← bytes 4)

/-- An 8-bit field, extended with its sign. -/
def field8 : Reader (BitVec 32) := do
  return (BitVec.ofNat 8 (← byte)).signExtend 32

end Reader

/-- What the prefixes of an instruction say: whether there are any, the operand width, and the high
bits of the register numbers. -/
structure Prefixes where
  present : Bool := false
  wide : Bool := false
  r : Bool := false
  index : Bool := false
  rm : Bool := false
  deriving DecidableEq, Repr

/-- The prefix byte with the given value, if it is one. -/
def Prefixes.ofByte? (b : Nat) : Option Prefixes :=
  if b / 16 = 4 then
    some ⟨true, b.testBit 3, b.testBit 2, b.testBit 1, b.testBit 0⟩
  else none

/-- The register with a low part from an operand byte and a high bit from a prefix. -/
def regOf (high : Bool) (low : Nat) : Reg :=
  .ofCode (low % 8 + if high then 8 else 0)

/-- An operand: a register or memory. -/
inductive Operand where
  | reg (r : Reg)
  | memory (base : Reg) (off : BitVec 32)
  deriving DecidableEq, Repr

/-- The offset of a memory operand. -/
def readOffset : (mode : Nat) → Reader (BitVec 32)
  | 0 => pure 0
  | 1 => Reader.field8
  | _ => Reader.field32

/-- The base register of a memory operand: the low part in the operand byte, or in a second byte
that could also name an index. -/
def readBase (p : Prefixes) (mode rm : Nat) : Reader Reg :=
  if rm = 4 then do
    let second ← Reader.byte
    if second / 8 % 8 = 4 ∧ !p.index ∧ ¬ (mode = 0 ∧ second % 8 = 5) then
      return regOf p.rm (second % 8)
    else failure
  else if mode = 0 ∧ rm = 5 then failure
  else return regOf p.rm rm

/-- The operand byte and what it asks for: the number in its middle, and the operand. -/
def readOperand (p : Prefixes) : Reader (Nat × Operand) := do
  let b ← Reader.byte
  let mode := b / 64
  let middle := b / 8 % 8
  if mode = 3 then return (middle, .reg (regOf p.rm (b % 8)))
  else
    let base ← readBase p mode (b % 8)
    let off ← readOffset mode
    return (middle, .memory base off)

/-- An operand byte that names two registers. -/
def readRegs (p : Prefixes) : Reader (Reg × Reg) := do
  match ← readOperand p with
  | (r, .reg rm) => return (regOf p.r r, rm)
  | _ => failure

/-- An operand byte that names a register and completes the opcode. -/
def readReg (p : Prefixes) : Reader (Nat × Reg) := do
  match ← readOperand p with
  | (digit, .reg rm) => return (digit, rm)
  | _ => failure

/-- An arithmetic instruction with an immediate. -/
def readArithImm (p : Prefixes) (imm : Reader (BitVec 32)) : Reader Instr := do
  let (digit, operand) ← readOperand p
  let op ← StateT.lift (Arith.ofCode? digit)
  let v ← imm
  match operand with
  | .reg r => return .arithImm op p.wide r v
  | .memory base off => return .arithMem op p.wide base off v

/-- A shift by a given amount. -/
def readShift (p : Prefixes) (amount : Reader (BitVec 8)) : Reader Instr := do
  let (digit, r) ← readReg p
  let op ← StateT.lift (Shift.ofCode? digit)
  return .shift op p.wide r (← amount)

/-- A move between a register and an operand. -/
def readMove (p : Prefixes) (toOperand : Bool) : Reader Instr := do
  let (r, operand) ← readOperand p
  let r := regOf p.r r
  match operand, toOperand with
  | .reg rm, true => return .mov p.wide rm r
  | .reg rm, false => return .mov p.wide r rm
  | .memory base off, true => return .store p.wide r base off
  | .memory base off, false => return .load p.wide r base off

/-- A move of a 32-bit immediate, extended with its sign if the operand is wider. -/
def readMoveImm (p : Prefixes) : Reader Instr := do
  let (digit, operand) ← readOperand p
  if digit ≠ 0 then failure
  let v ← Reader.field32
  match operand with
  | .reg r => return .movImm p.wide r (if p.wide then v.signExtend 64 else v.setWidth 64)
  | .memory base off => return .storeImm p.wide base off v

/-- The rest of an instruction whose opcode is in the first table. -/
def readFirst (p : Prefixes) (size : Nat) (opcode : Nat) : Reader Instr :=
  if opcode < 0x40 ∧ opcode % 8 = 3 then do
    let (r, rm) ← readRegs p
    return .arith (← StateT.lift (Arith.ofCode? (opcode / 8))) p.wide r rm
  else if opcode < 0x40 ∧ opcode % 8 = 1 then do
    let (r, rm) ← readRegs p
    return .arith (← StateT.lift (Arith.ofCode? (opcode / 8))) p.wide rm r
  else if opcode / 8 = 0x50 / 8 then return .push (regOf p.rm opcode)
  else if opcode / 8 = 0x58 / 8 then return .pop (regOf p.rm opcode)
  else if opcode / 8 = 0xb8 / 8 then
    if p.wide then do
      return .movImm true (regOf p.rm opcode) (BitVec.ofNat 64 (← Reader.bytes 8))
    else do
      return .movImm false (regOf p.rm opcode) (BitVec.ofNat 64 (← Reader.bytes 4))
  else
    match opcode with
    | 0x63 => do
      let (r, rm) ← readRegs p
      if p.wide then return .movslq r rm else failure
    | 0x81 => readArithImm p Reader.field32
    | 0x83 => readArithImm p Reader.field8
    | 0x85 => do
      let (r, rm) ← readRegs p
      return .test p.wide r rm
    | 0x89 => readMove p true
    | 0x8b => readMove p false
    | 0x90 => if p.rm then failure else return .nop (size + 1)
    | 0xc1 => readShift p do return BitVec.ofNat 8 (← Reader.byte)
    | 0xc3 => return .ret
    | 0xc7 => readMoveImm p
    | 0xd1 => readShift p (pure 1)
    | 0xd3 => do
      let (digit, r) ← readReg p
      return .shiftCl (← StateT.lift (Shift.ofCode? digit)) p.wide r
    | 0xe9 => do return .jmp (← Reader.field32)
    | 0xf7 => do
      match ← readReg p with
      | (4, r) => return .mul p.wide r
      | (5, r) => return .imul p.wide r
      | _ => failure
    | 0xff => do
      match ← readReg p with
      | (2, r) => return .callReg r
      | (4, r) => return .jmpReg r
      | _ => failure
    | _ => failure

/-- The length of the operand byte of an instruction that does nothing, and of what it asks for.  In
the mode without an offset, a base of number 5 stands for one of four bytes. -/
def nopOperandSize (s : List UInt8) : Option Nat :=
  match s with
  | [] => none
  | b :: rest =>
    let mode := b.toNat / 64
    let second := if b.toNat % 8 = 4 then 1 else 0
    let base := if b.toNat % 8 = 4 then (rest.headD 0).toNat % 8 else b.toNat % 8
    match mode with
    | 0 => some (1 + second + if base = 5 then 4 else 0)
    | 1 => some (2 + second)
    | 2 => some (5 + second)
    | _ => none

/-- The rest of an instruction whose opcode is in the second table. -/
def readSecond (p : Prefixes) (size : Nat) (opcode : Nat) : Reader Instr :=
  if opcode / 16 = 8 then do return .jcc (.ofCode opcode) (← Reader.field32)
  else if opcode / 16 = 9 then do
    let (_, r) ← readReg p
    if p.present ∨ r.code.val < 4 then return .setcc (.ofCode opcode) r else failure
  else
    match opcode with
    | 0x1f => fun s =>
      match nopOperandSize s with
      | some n => if n ≤ s.length then some (.nop (size + 2 + n), s.drop n) else none
      | none => none
    | 0xaf => do
      let (r, rm) ← readRegs p
      return .imulLow p.wide r rm
    | _ => failure

/-- An instruction after its prefixes, which have the given number of bytes. -/
def readOpcode (p : Prefixes) (size : Nat) : Reader Instr := do
  let opcode ← Reader.byte
  if opcode = 0x0f then
    let opcode ← Reader.byte
    readSecond p size opcode
  else readFirst p size opcode

/-- An instruction that does nothing, after the prefix for operands of 16 bits. -/
def readShort : Reader Instr := do
  match ← readOpcode {} 1 with
  | .nop n => return .nop n
  | _ => failure

/-- The instruction at the front of a byte string. -/
def readInstr : Reader Instr
  | [] => none
  | b :: rest =>
    if b = 0x66 then readShort rest
    else
      match Prefixes.ofByte? b.toNat with
      | some p => readOpcode p 1 rest
      | none => readOpcode {} 0 (b :: rest)

/-- The instruction at the front of a byte string, and its length. -/
def Instr.decode? (s : List UInt8) : Option (Instr × Nat) :=
  match readInstr s with
  | some (i, rest) => some (i, s.length - rest.length)
  | none => none

end CrossHart.Host
