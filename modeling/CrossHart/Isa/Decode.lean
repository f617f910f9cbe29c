import CrossHart.Isa.Decode.Integer
import CrossHart.Isa.Decode.Float
import CrossHart.Isa.Decode.Compressed
import CrossHart.Text.Hex

/-!
# Decoding

An encoding that ends in `11` is full-width; any other one is compressed, and only its low half
counts.  Decoding gives the instruction and its width, or says which bits mean nothing.
-/

namespace CrossHart.Isa

/-- The instruction of a full-width encoding. -/
def Encoding.decode? (w : Encoding) : Option Instr :=
  match w.opcode with
  | 0x37#7 => some (.lui w.rd w.immU)
  | 0x17#7 => some (.auipc w.rd w.immU)
  | 0x6f#7 => some (.jal w.rd w.immJ)
  | 0x67#7 => if w.funct3 = 0 then some (.jalr w.rd w.rs1 w.immI) else none
  | 0x63#7 => w.branch?
  | 0x03#7 => w.load?
  | 0x23#7 => w.store?
  | 0x13#7 => w.opImm?
  | 0x1b#7 => w.opImm32?
  | 0x33#7 => w.op?
  | 0x3b#7 => w.op32?
  | 0x2f#7 => w.amo?
  | 0x0f#7 => w.fence?
  | 0x73#7 => w.system?
  | 0x07#7 => w.fpLoad?
  | 0x27#7 => w.fpStore?
  | 0x43#7 => w.fpFma? .madd
  | 0x47#7 => w.fpFma? .msub
  | 0x4b#7 => w.fpFma? .nmsub
  | 0x4f#7 => w.fpFma? .nmadd
  | 0x53#7 => w.fpOp?
  | _ => none

/-- Bits that are no instruction, and where they were met. -/
structure DecodeError where
  word : BitVec 32
  pc : Word
  deriving DecidableEq, Repr

/-- The text of a decoding error. -/
def DecodeError.message (e : DecodeError) : String :=
  "invalid instruction 0x" ++ Text.hexPadded 8 e.word.toNat ++ " at pc " ++ Text.hex0x e.pc.toNat

/-- The low half of a word. -/
def Encoding.low (w : Encoding) : Half :=
  w.setWidth 16

/-- Whether the encoding that starts with a half-word is full-width. -/
def Half.isFull (h : Half) : Bool :=
  h.field 0 2 == 0b11#2

/-- The width in bytes of the encoding that starts with a half-word. -/
def Half.width (h : Half) : Nat :=
  if h.isFull then 4 else 2

/-- The instruction of an encoding met at an address, and its width in bytes. -/
def decode (w : Encoding) (pc : Word) : Except DecodeError (Instr × Nat) :=
  if w.low.isFull then
    match w.decode? with
    | some i => .ok (i, 4)
    | none => .error ⟨w, pc⟩
  else
    match w.low.decode? with
    | some i => .ok (i, 2)
    | none => .error ⟨w.low.setWidth 32, pc⟩

end CrossHart.Isa
