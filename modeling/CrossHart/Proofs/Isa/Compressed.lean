import CrossHart.Proofs.Isa.Encoding

/-!
# Compressed instructions

The tables of the compressed instructions, from the side of the assembler: what the instructions are,
which operands they take, how their operands are laid out over a half-word, and which full
instruction each of them stands for.  Together with the half-words that are reserved, the encodings
of compressed instructions are all the half-words that do not start a full-width encoding, and
decoding agrees with these tables.
-/

namespace CrossHart.Isa

open Instr (Fits)

/-! ### The tables -/

/-- What a compressed load or store moves: a double-precision number, a word or a double word. -/
inductive Item where
  | float | word | double
  deriving DecidableEq, Repr

namespace Item

/-- The minor opcode of an item, without the bit that tells stores from loads. -/
def code : Item → BitVec 2
  | float => 0b01
  | word => 0b10
  | double => 0b11

/-- The number of zero bits at the end of an item's offset. -/
def scale : Item → Nat
  | word => 2
  | float | double => 3

/-- The load of an item. -/
def load (rd rs1 : Nat) (imm : Word) : Item → Instr
  | float => .fpLoad .d rd rs1 imm
  | word => .load .lw rd rs1 imm
  | double => .load .ld rd rs1 imm

/-- The store of an item. -/
def store (rs1 rs2 : Nat) (imm : Word) : Item → Instr
  | float => .fpStore .d rs1 rs2 imm
  | word => .store .sw rs1 rs2 imm
  | double => .store .sd rs1 rs2 imm

end Item

/-- The compressed arithmetic on two registers. -/
inductive ShortOp where
  | sub | xor | or | and | subw | addw
  deriving DecidableEq, Repr

namespace ShortOp

/-- The minor opcode of an operation, from the upper and the middle bits. -/
def funct : ShortOp → BitVec 3 × BitVec 2
  | sub => (0b011, 0b00)
  | xor => (0b011, 0b01)
  | or => (0b011, 0b10)
  | and => (0b011, 0b11)
  | subw => (0b111, 0b00)
  | addw => (0b111, 0b01)

/-- The full operation. -/
def expand (rd rs2 : Nat) : ShortOp → Instr
  | sub => .op .sub rd rd rs2
  | xor => .op .xor rd rd rs2
  | or => .op .or rd rd rs2
  | and => .op .and rd rd rs2
  | subw => .op32 .sub rd rd rs2
  | addw => .op32 .add rd rd rs2

end ShortOp

/-- A compressed instruction.  Immediates are words, extended to 64 bits as in a full instruction. -/
inductive Compressed where
  | addi4spn (rd : Nat) (imm : Word)
  | load (item : Item) (rd rs1 : Nat) (imm : Word)
  | store (item : Item) (rs1 rs2 : Nat) (imm : Word)
  | addi (rd : Nat) (imm : Word)
  | addiw (rd : Nat) (imm : Word)
  | li (rd : Nat) (imm : Word)
  | addi16sp (imm : Word)
  | lui (rd : Nat) (imm : Word)
  | srli (rd : Nat) (amount : Word)
  | srai (rd : Nat) (amount : Word)
  | andi (rd : Nat) (imm : Word)
  | arith (op : ShortOp) (rd rs2 : Nat)
  | j (imm : Word)
  | beqz (rs1 : Nat) (imm : Word)
  | bnez (rs1 : Nat) (imm : Word)
  | slli (rd : Nat) (amount : Word)
  | loadStack (item : Item) (rd : Nat) (imm : Word)
  | jr (rs1 : Nat)
  | mv (rd rs2 : Nat)
  | ebreak
  | jalr (rs1 : Nat)
  | add (rd rs2 : Nat)
  | storeStack (item : Item) (rs2 : Nat) (imm : Word)
  deriving DecidableEq, Repr

/-- Whether a register is among those with a short field. -/
def IsShort (r : Nat) : Prop :=
  8 ≤ r ∧ r < 16

/-- An offset of `n` bits, without a sign, that is a multiple of `2 ^ k`. -/
def IsOffset (n k : Nat) (imm : Word) : Prop :=
  imm.toNat < 2 ^ n ∧ imm.extractLsb' 0 k = 0#k

/-- A displacement of `n` bits, with a sign, that is a multiple of `2 ^ k`. -/
def IsDisplacement (n k : Nat) (imm : Word) : Prop :=
  Fits n imm ∧ imm.extractLsb' 0 k = 0#k

namespace Compressed

/-- The instruction that a compressed one stands for. -/
def expand : Compressed → Instr
  | addi4spn rd imm => .opImm .add rd 2 imm
  | load item rd rs1 imm => item.load rd rs1 imm
  | store item rs1 rs2 imm => item.store rs1 rs2 imm
  | addi rd imm => .opImm .add rd rd imm
  | addiw rd imm => .opImm32 .add rd rd imm
  | li rd imm => .opImm .add rd 0 imm
  | addi16sp imm => .opImm .add 2 2 imm
  | lui rd imm => .lui rd imm
  | srli rd amount => .opImm .srl rd rd amount
  | srai rd amount => .opImm .sra rd rd amount
  | andi rd imm => .opImm .and rd rd imm
  | arith op rd rs2 => op.expand rd rs2
  | j imm => .jal 0 imm
  | beqz rs1 imm => .branch .beq rs1 0 imm
  | bnez rs1 imm => .branch .bne rs1 0 imm
  | slli rd amount => .opImm .sll rd rd amount
  | loadStack item rd imm => item.load rd 2 imm
  | jr rs1 => .jalr 0 rs1 0
  | mv rd rs2 => .op .add rd 0 rs2
  | ebreak => .ebreak
  | jalr rs1 => .jalr 1 rs1 0
  | add rd rs2 => .op .add rd rd rs2
  | storeStack item rs2 imm => item.store 2 rs2 imm

/-- Whether the operands of a compressed instruction have a place in its format, and do not make it a
reserved one. -/
def WellFormed : Compressed → Prop
  | addi4spn rd imm => IsShort rd ∧ IsOffset 10 2 imm ∧ imm ≠ 0
  | load item rd rs1 imm => IsShort rd ∧ IsShort rs1 ∧ IsOffset (5 + item.scale) item.scale imm
  | store item rs1 rs2 imm => IsShort rs1 ∧ IsShort rs2 ∧ IsOffset (5 + item.scale) item.scale imm
  | addi rd imm | li rd imm => rd < 32 ∧ Fits 6 imm
  | addiw rd imm => rd < 32 ∧ rd ≠ 0 ∧ Fits 6 imm
  | addi16sp imm => IsDisplacement 10 4 imm ∧ imm ≠ 0
  | lui rd imm => rd < 32 ∧ rd ≠ 2 ∧ IsDisplacement 18 12 imm ∧ imm ≠ 0
  | srli rd amount | srai rd amount => IsShort rd ∧ amount.toNat < 64
  | andi rd imm => IsShort rd ∧ Fits 6 imm
  | arith _ rd rs2 => IsShort rd ∧ IsShort rs2
  | j imm => IsDisplacement 12 1 imm
  | beqz rs1 imm | bnez rs1 imm => IsShort rs1 ∧ IsDisplacement 9 1 imm
  | slli rd amount => rd < 32 ∧ amount.toNat < 64
  | loadStack item rd imm =>
    rd < 32 ∧ (item ≠ .float → rd ≠ 0) ∧ IsOffset (6 + item.scale) item.scale imm
  | jr rs1 | jalr rs1 => rs1 < 32 ∧ rs1 ≠ 0
  | mv rd rs2 | add rd rs2 => rd < 32 ∧ rs2 < 32 ∧ rs2 ≠ 0
  | ebreak => True
  | storeStack item rs2 imm => rs2 < 32 ∧ IsOffset (6 + item.scale) item.scale imm

end Compressed

/-! ### The formats -/

namespace Half

/-- The format with two registers. -/
def ofCR (funct4 : BitVec 4) (rd rs2 : Nat) (op : BitVec 2) : Half :=
  funct4 ++ BitVec.ofNat 5 rd ++ BitVec.ofNat 5 rs2 ++ op

/-- The format with a register between the bits of an immediate. -/
def ofCI (funct3 : BitVec 3) (hi : BitVec 1) (rd : Nat) (lo : BitVec 5) (op : BitVec 2) : Half :=
  funct3 ++ hi ++ BitVec.ofNat 5 rd ++ lo ++ op

/-- The format of stores to the stack. -/
def ofCSS (funct3 : BitVec 3) (imm : BitVec 6) (rs2 : Nat) (op : BitVec 2) : Half :=
  funct3 ++ imm ++ BitVec.ofNat 5 rs2 ++ op

/-- The format with a wide immediate and a short register. -/
def ofCIW (funct3 : BitVec 3) (imm : BitVec 8) (rd : Nat) (op : BitVec 2) : Half :=
  funct3 ++ imm ++ BitVec.ofNat 3 (rd - 8) ++ op

/-- The format with two short registers. -/
def ofCL (funct3 : BitVec 3) (hi : BitVec 3) (mid : Nat) (lo : BitVec 2) (low : Nat)
    (op : BitVec 2) : Half :=
  funct3 ++ hi ++ BitVec.ofNat 3 (mid - 8) ++ lo ++ BitVec.ofNat 3 (low - 8) ++ op

/-- The format with a short register between the bits of an immediate. -/
def ofCB (funct3 : BitVec 3) (hi : BitVec 3) (mid : Nat) (lo : BitVec 5) (op : BitVec 2) : Half :=
  funct3 ++ hi ++ BitVec.ofNat 3 (mid - 8) ++ lo ++ op

/-- The format of jumps. -/
def ofCJ (funct3 : BitVec 3) (imm : BitVec 11) (op : BitVec 2) : Half :=
  funct3 ++ imm ++ op

end Half

namespace Item

/-- The middle bits of an offset from a register. -/
def offsetBits (imm : Word) : Item → BitVec 2
  | word => imm.extractLsb' 2 1 ++ imm.extractLsb' 6 1
  | float | double => imm.extractLsb' 6 2

/-- The low bits of the offset of a load from the stack. -/
def loadBits (imm : Word) : Item → BitVec 5
  | word => imm.extractLsb' 2 3 ++ imm.extractLsb' 6 2
  | float | double => imm.extractLsb' 3 2 ++ imm.extractLsb' 6 3

/-- The bits of the offset of a store to the stack. -/
def storeBits (imm : Word) : Item → BitVec 6
  | word => imm.extractLsb' 2 4 ++ imm.extractLsb' 6 2
  | float | double => imm.extractLsb' 3 3 ++ imm.extractLsb' 6 3

end Item

open Half in
/-- The encoding of a compressed instruction. -/
def Compressed.encode : Compressed → Half
  | addi4spn rd imm =>
    ofCIW 0b000 (imm.extractLsb' 4 2 ++ imm.extractLsb' 6 4 ++ imm.extractLsb' 2 1 ++
      imm.extractLsb' 3 1) rd 0b00
  | load item rd rs1 imm =>
    ofCL (0#1 ++ item.code) (imm.extractLsb' 3 3) rs1 (item.offsetBits imm) rd 0b00
  | store item rs1 rs2 imm =>
    ofCL (1#1 ++ item.code) (imm.extractLsb' 3 3) rs1 (item.offsetBits imm) rs2 0b00
  | addi rd imm => ofCI 0b000 (imm.extractLsb' 5 1) rd (imm.extractLsb' 0 5) 0b01
  | addiw rd imm => ofCI 0b001 (imm.extractLsb' 5 1) rd (imm.extractLsb' 0 5) 0b01
  | li rd imm => ofCI 0b010 (imm.extractLsb' 5 1) rd (imm.extractLsb' 0 5) 0b01
  | addi16sp imm =>
    ofCI 0b011 (imm.extractLsb' 9 1) 2 (imm.extractLsb' 4 1 ++ imm.extractLsb' 6 1 ++
      imm.extractLsb' 7 2 ++ imm.extractLsb' 5 1) 0b01
  | lui rd imm => ofCI 0b011 (imm.extractLsb' 17 1) rd (imm.extractLsb' 12 5) 0b01
  | srli rd amount =>
    ofCB 0b100 (amount.extractLsb' 5 1 ++ 0b00#2) rd (amount.extractLsb' 0 5) 0b01
  | srai rd amount =>
    ofCB 0b100 (amount.extractLsb' 5 1 ++ 0b01#2) rd (amount.extractLsb' 0 5) 0b01
  | andi rd imm => ofCB 0b100 (imm.extractLsb' 5 1 ++ 0b10#2) rd (imm.extractLsb' 0 5) 0b01
  | arith op rd rs2 => ofCL 0b100 op.funct.1 rd op.funct.2 rs2 0b01
  | j imm =>
    ofCJ 0b101 (imm.extractLsb' 11 1 ++ imm.extractLsb' 4 1 ++ imm.extractLsb' 8 2 ++
      imm.extractLsb' 10 1 ++ imm.extractLsb' 6 1 ++ imm.extractLsb' 7 1 ++ imm.extractLsb' 1 3 ++
      imm.extractLsb' 5 1) 0b01
  | beqz rs1 imm =>
    ofCB 0b110 (imm.extractLsb' 8 1 ++ imm.extractLsb' 3 2) rs1
      (imm.extractLsb' 6 2 ++ imm.extractLsb' 1 2 ++ imm.extractLsb' 5 1) 0b01
  | bnez rs1 imm =>
    ofCB 0b111 (imm.extractLsb' 8 1 ++ imm.extractLsb' 3 2) rs1
      (imm.extractLsb' 6 2 ++ imm.extractLsb' 1 2 ++ imm.extractLsb' 5 1) 0b01
  | slli rd amount => ofCI 0b000 (amount.extractLsb' 5 1) rd (amount.extractLsb' 0 5) 0b10
  | loadStack item rd imm =>
    ofCI (0#1 ++ item.code) (imm.extractLsb' 5 1) rd (item.loadBits imm) 0b10
  | jr rs1 => ofCR 0b1000 rs1 0 0b10
  | mv rd rs2 => ofCR 0b1000 rd rs2 0b10
  | ebreak => ofCR 0b1001 0 0 0b10
  | jalr rs1 => ofCR 0b1001 rs1 0 0b10
  | add rd rs2 => ofCR 0b1001 rd rs2 0b10
  | storeStack item rs2 imm => ofCSS (1#1 ++ item.code) (item.storeBits imm) rs2 0b10

/-- The half-words that neither start a full-width encoding nor stand for an instruction. -/
inductive Half.Reserved (h : Half) : Prop where
  /-- No offset from the stack pointer; among these is the half-word of zeros. -/
  | addi4spn (quadrant : h.field 0 2 = 0b00) (funct3 : h.funct3 = 0b000) (imm : h.field 5 8 = 0)
  | quadrant0 (quadrant : h.field 0 2 = 0b00) (funct3 : h.funct3 = 0b100)
  | addiw (quadrant : h.field 0 2 = 0b01) (funct3 : h.funct3 = 0b001) (rd : h.rd = 0)
  /-- No amount, be it for the stack pointer or for another register. -/
  | upper (quadrant : h.field 0 2 = 0b01) (funct3 : h.funct3 = 0b011) (hi : h.field 12 1 = 0)
      (lo : h.field 2 5 = 0)
  | arith (quadrant : h.field 0 2 = 0b01) (funct6 : h.field 10 6 = 0b100111)
      (funct2 : h.field 6 1 = 1)
  /-- A word or double word from the stack to register 0. -/
  | loadStack (quadrant : h.field 0 2 = 0b10) (funct3 : h.funct3 = 0b010 ∨ h.funct3 = 0b011)
      (rd : h.rd = 0)
  /-- A jump to the address in register 0. -/
  | jr (quadrant : h.field 0 2 = 0b10) (funct4 : h.field 12 4 = 0b1000) (rs1 : h.rd = 0)
      (rs2 : h.rs2 = 0)

/-! ### Fields of the formats -/

namespace Half

variable {h : Half} {funct3 : BitVec 3} {op : BitVec 2}

theorem shortLow_eq_iff {r : Nat} (short : IsShort r) :
  h.shortLow = r ↔ h.field 2 3 = BitVec.ofNat 3 (r - 8)
  := by
  obtain ⟨hlo, hhi⟩ := short
  rw [shortLow, ← toNat_eq_iff (by omega)]
  omega

theorem shortMid_eq_iff {r : Nat} (short : IsShort r) :
  h.shortMid = r ↔ h.field 7 3 = BitVec.ofNat 3 (r - 8)
  := by
  obtain ⟨hlo, hhi⟩ := short
  rw [shortMid, ← toNat_eq_iff (by omega)]
  omega

theorem rd_eq_iff {r : Nat} (hr : r < 32) :
  h.rd = r ↔ h.field 7 5 = BitVec.ofNat 5 r
  := toNat_eq_iff hr

theorem rs2_eq_iff {r : Nat} (hr : r < 32) :
  h.rs2 = r ↔ h.field 2 5 = BitVec.ofNat 5 r
  := toNat_eq_iff hr

theorem eq_ofCR_iff {funct4 : BitVec 4} {rd rs2 : Nat} (hrd : rd < 32) (hrs2 : rs2 < 32) :
  h = ofCR funct4 rd rs2 op ↔
    h.field 0 2 = op ∧ h.field 12 4 = funct4 ∧ h.rd = rd ∧ h.rs2 = rs2
  := by
  rw [ofCR, eq_append_iff (n := 14) (m := 2), field_eq_append_iff (n := 9) (m := 5),
    field_eq_append_iff (n := 4) (m := 5), rd_eq_iff hrd, rs2_eq_iff hrs2]
  constructor
  · rintro ⟨⟨⟨h4, hd⟩, h2⟩, ho⟩
    exact ⟨ho, h4, hd, h2⟩
  · rintro ⟨ho, h4, hd, h2⟩
    exact ⟨⟨⟨h4, hd⟩, h2⟩, ho⟩

theorem eq_ofCI_iff {hi : BitVec 1} {lo : BitVec 5} {rd : Nat} (hrd : rd < 32) :
  h = ofCI funct3 hi rd lo op ↔
    h.field 0 2 = op ∧ h.funct3 = funct3 ∧ h.field 12 1 = hi ∧ h.rd = rd ∧ h.field 2 5 = lo
  := by
  rw [ofCI, eq_append_iff (n := 14) (m := 2), field_eq_append_iff (n := 9) (m := 5),
    field_eq_append_iff (n := 4) (m := 5), field_eq_append_iff (n := 3) (m := 1), rd_eq_iff hrd]
  constructor
  · rintro ⟨⟨⟨⟨h3, hhi⟩, hd⟩, hlo⟩, ho⟩
    exact ⟨ho, h3, hhi, hd, hlo⟩
  · rintro ⟨ho, h3, hhi, hd, hlo⟩
    exact ⟨⟨⟨⟨h3, hhi⟩, hd⟩, hlo⟩, ho⟩

theorem eq_ofCSS_iff {imm : BitVec 6} {rs2 : Nat} (hrs2 : rs2 < 32) :
  h = ofCSS funct3 imm rs2 op ↔
    h.field 0 2 = op ∧ h.funct3 = funct3 ∧ h.field 7 6 = imm ∧ h.rs2 = rs2
  := by
  rw [ofCSS, eq_append_iff (n := 14) (m := 2), field_eq_append_iff (n := 9) (m := 5),
    field_eq_append_iff (n := 3) (m := 6), rs2_eq_iff hrs2]
  constructor
  · rintro ⟨⟨⟨h3, himm⟩, h2⟩, ho⟩
    exact ⟨ho, h3, himm, h2⟩
  · rintro ⟨ho, h3, himm, h2⟩
    exact ⟨⟨⟨h3, himm⟩, h2⟩, ho⟩

theorem eq_ofCIW_iff {imm : BitVec 8} {rd : Nat} (short : IsShort rd) :
  h = ofCIW funct3 imm rd op ↔
    h.field 0 2 = op ∧ h.funct3 = funct3 ∧ h.field 5 8 = imm ∧ h.shortLow = rd
  := by
  rw [ofCIW, eq_append_iff (n := 14) (m := 2), field_eq_append_iff (n := 11) (m := 3),
    field_eq_append_iff (n := 3) (m := 8), shortLow_eq_iff short]
  constructor
  · rintro ⟨⟨⟨h3, himm⟩, hd⟩, ho⟩
    exact ⟨ho, h3, himm, hd⟩
  · rintro ⟨ho, h3, himm, hd⟩
    exact ⟨⟨⟨h3, himm⟩, hd⟩, ho⟩

theorem eq_ofCL_iff {hi : BitVec 3} {lo : BitVec 2} {mid low : Nat} (hmid : IsShort mid)
    (hlow : IsShort low) :
  h = ofCL funct3 hi mid lo low op ↔
    h.field 0 2 = op ∧ h.funct3 = funct3 ∧ h.field 10 3 = hi ∧ h.shortMid = mid ∧
      h.field 5 2 = lo ∧ h.shortLow = low
  := by
  rw [ofCL, eq_append_iff (n := 14) (m := 2), field_eq_append_iff (n := 11) (m := 3),
    field_eq_append_iff (n := 9) (m := 2), field_eq_append_iff (n := 6) (m := 3),
    field_eq_append_iff (n := 3) (m := 3), shortMid_eq_iff hmid, shortLow_eq_iff hlow]
  constructor
  · rintro ⟨⟨⟨⟨⟨h3, hhi⟩, hm⟩, hlo⟩, hl⟩, ho⟩
    exact ⟨ho, h3, hhi, hm, hlo, hl⟩
  · rintro ⟨ho, h3, hhi, hm, hlo, hl⟩
    exact ⟨⟨⟨⟨⟨h3, hhi⟩, hm⟩, hlo⟩, hl⟩, ho⟩

theorem eq_ofCB_iff {hi : BitVec 3} {lo : BitVec 5} {mid : Nat} (hmid : IsShort mid) :
  h = ofCB funct3 hi mid lo op ↔
    h.field 0 2 = op ∧ h.funct3 = funct3 ∧ h.field 10 3 = hi ∧ h.shortMid = mid ∧ h.field 2 5 = lo
  := by
  rw [ofCB, eq_append_iff (n := 14) (m := 2), field_eq_append_iff (n := 9) (m := 5),
    field_eq_append_iff (n := 6) (m := 3), field_eq_append_iff (n := 3) (m := 3),
    shortMid_eq_iff hmid]
  constructor
  · rintro ⟨⟨⟨⟨h3, hhi⟩, hm⟩, hlo⟩, ho⟩
    exact ⟨ho, h3, hhi, hm, hlo⟩
  · rintro ⟨ho, h3, hhi, hm, hlo⟩
    exact ⟨⟨⟨⟨h3, hhi⟩, hm⟩, hlo⟩, ho⟩

theorem eq_ofCJ_iff {imm : BitVec 11} :
  h = ofCJ funct3 imm op ↔ h.field 0 2 = op ∧ h.funct3 = funct3 ∧ h.field 2 11 = imm
  := by
  rw [ofCJ, eq_append_iff (n := 14) (m := 2), field_eq_append_iff (n := 3) (m := 11)]
  constructor
  · rintro ⟨⟨h3, himm⟩, ho⟩
    exact ⟨ho, h3, himm⟩
  · rintro ⟨ho, h3, himm⟩
    exact ⟨⟨h3, himm⟩, ho⟩

/-! ### Immediates -/

theorem imm6_eq_iff {imm : Word} (fits : Fits 6 imm) :
  h.imm6 = imm ↔ h.field 12 1 = imm.extractLsb' 5 1 ∧ h.field 2 5 = imm.extractLsb' 0 5
  := by
  rw [imm6, signExtend_eq_iff (by decide) fits, small, append_eq_field_iff (n := 1) (m := 5)]

theorem amount_eq_iff {imm : Word} (fits : imm.toNat < 64) :
  h.amount = imm ↔ h.field 12 1 = imm.extractLsb' 5 1 ∧ h.field 2 5 = imm.extractLsb' 0 5
  := by
  rw [amount, setWidth_eq_iff (by decide) fits, small, append_eq_field_iff (n := 1) (m := 5)]

theorem stackAddress_eq_iff {imm : Word} (offset : IsOffset 10 2 imm) :
  h.stackAddress.setWidth 64 = imm ↔
    h.field 5 8 = imm.extractLsb' 4 2 ++ imm.extractLsb' 6 4 ++ imm.extractLsb' 2 1 ++
      imm.extractLsb' 3 1
  := by
  rw [setWidth_eq_iff (by decide) offset.1, stackAddress, append_eq_field_iff (n := 8) (m := 2),
    append_eq_field_iff (n := 7) (m := 1), append_eq_field_iff (n := 6) (m := 1),
    append_eq_field_iff (n := 4) (m := 2), field_eq_append_iff (n := 7) (m := 1),
    field_eq_append_iff (n := 6) (m := 1), field_eq_append_iff (n := 2) (m := 4), offset.2]
  constructor
  · rintro ⟨⟨⟨⟨h6, h4⟩, h3⟩, h2⟩, -⟩
    exact ⟨⟨⟨h4, h6⟩, h2⟩, h3⟩
  · rintro ⟨⟨⟨h4, h6⟩, h2⟩, h3⟩
    exact ⟨⟨⟨⟨h6, h4⟩, h3⟩, h2⟩, rfl⟩

theorem stackMove_eq_iff {imm : Word} (displacement : IsDisplacement 10 4 imm) :
  h.stackMove.signExtend 64 = imm ↔
    h.field 12 1 = imm.extractLsb' 9 1 ∧
      h.field 2 5 = imm.extractLsb' 4 1 ++ imm.extractLsb' 6 1 ++ imm.extractLsb' 7 2 ++
        imm.extractLsb' 5 1
  := by
  rw [signExtend_eq_iff (by decide) displacement.1, stackMove,
    append_eq_field_iff (n := 6) (m := 4), append_eq_field_iff (n := 5) (m := 1),
    append_eq_field_iff (n := 4) (m := 1), append_eq_field_iff (n := 3) (m := 1),
    append_eq_field_iff (n := 1) (m := 2), field_eq_append_iff (n := 4) (m := 1),
    field_eq_append_iff (n := 2) (m := 2), field_eq_append_iff (n := 1) (m := 1), displacement.2]
  constructor
  · rintro ⟨⟨⟨⟨⟨h9, h7⟩, h6⟩, h5⟩, h4⟩, -⟩
    exact ⟨h9, ⟨⟨h4, h6⟩, h7⟩, h5⟩
  · rintro ⟨h9, ⟨⟨h4, h6⟩, h7⟩, h5⟩
    exact ⟨⟨⟨⟨⟨h9, h7⟩, h6⟩, h5⟩, h4⟩, rfl⟩

theorem imm6_shiftLeft (h : Half) :
  h.imm6 <<< 12 = (h.small ++ 0#12).signExtend 64
  := by
  apply BitVec.eq_of_getLsbD_eq
  intro i hi
  rw [imm6, BitVec.getLsbD_shiftLeft, BitVec.getLsbD_signExtend, BitVec.getLsbD_signExtend,
    BitVec.getLsbD_append, BitVec.msb_append]
  grind

theorem upper_eq_iff {imm : Word} (displacement : IsDisplacement 18 12 imm) :
  h.imm6 <<< 12 = imm ↔ h.field 12 1 = imm.extractLsb' 17 1 ∧ h.field 2 5 = imm.extractLsb' 12 5
  := by
  rw [imm6_shiftLeft, signExtend_eq_iff (by decide) displacement.1,
    append_eq_field_iff (n := 6) (m := 12), small, append_eq_field_iff (n := 1) (m := 5),
    displacement.2]
  exact and_iff_left rfl

theorem offsetJ_eq_iff {imm : Word} (displacement : IsDisplacement 12 1 imm) :
  h.offsetJ = imm ↔
    h.field 2 11 = imm.extractLsb' 11 1 ++ imm.extractLsb' 4 1 ++ imm.extractLsb' 8 2 ++
      imm.extractLsb' 10 1 ++ imm.extractLsb' 6 1 ++ imm.extractLsb' 7 1 ++ imm.extractLsb' 1 3 ++
      imm.extractLsb' 5 1
  := by
  rw [offsetJ, signExtend_eq_iff (by decide) displacement.1, append_eq_field_iff (n := 11) (m := 1),
    append_eq_field_iff (n := 8) (m := 3), append_eq_field_iff (n := 7) (m := 1),
    append_eq_field_iff (n := 6) (m := 1), append_eq_field_iff (n := 5) (m := 1),
    append_eq_field_iff (n := 4) (m := 1), append_eq_field_iff (n := 2) (m := 2),
    append_eq_field_iff (n := 1) (m := 1), field_eq_append_iff (n := 10) (m := 1),
    field_eq_append_iff (n := 7) (m := 3), field_eq_append_iff (n := 6) (m := 1),
    field_eq_append_iff (n := 5) (m := 1), field_eq_append_iff (n := 4) (m := 1),
    field_eq_append_iff (n := 2) (m := 2), field_eq_append_iff (n := 1) (m := 1), displacement.2]
  constructor
  · rintro ⟨⟨⟨⟨⟨⟨⟨⟨h11, h10⟩, h8⟩, h7⟩, h6⟩, h5⟩, h4⟩, h1⟩, -⟩
    exact ⟨⟨⟨⟨⟨⟨⟨h11, h4⟩, h8⟩, h10⟩, h6⟩, h7⟩, h1⟩, h5⟩
  · rintro ⟨⟨⟨⟨⟨⟨⟨h11, h4⟩, h8⟩, h10⟩, h6⟩, h7⟩, h1⟩, h5⟩
    exact ⟨⟨⟨⟨⟨⟨⟨⟨h11, h10⟩, h8⟩, h7⟩, h6⟩, h5⟩, h4⟩, h1⟩, rfl⟩

theorem offsetB_eq_iff {imm : Word} (displacement : IsDisplacement 9 1 imm) :
  h.offsetB = imm ↔
    h.field 10 3 = imm.extractLsb' 8 1 ++ imm.extractLsb' 3 2 ∧
      h.field 2 5 = imm.extractLsb' 6 2 ++ imm.extractLsb' 1 2 ++ imm.extractLsb' 5 1
  := by
  rw [offsetB, signExtend_eq_iff (by decide) displacement.1, append_eq_field_iff (n := 8) (m := 1),
    append_eq_field_iff (n := 6) (m := 2), append_eq_field_iff (n := 4) (m := 2),
    append_eq_field_iff (n := 3) (m := 1), append_eq_field_iff (n := 1) (m := 2),
    field_eq_append_iff (n := 1) (m := 2), field_eq_append_iff (n := 4) (m := 1),
    field_eq_append_iff (n := 2) (m := 2), displacement.2]
  constructor
  · rintro ⟨⟨⟨⟨⟨h8, h6⟩, h5⟩, h3⟩, h1⟩, -⟩
    exact ⟨⟨h8, h3⟩, ⟨h6, h1⟩, h5⟩
  · rintro ⟨⟨h8, h3⟩, ⟨h6, h1⟩, h5⟩
    exact ⟨⟨⟨⟨⟨h8, h6⟩, h5⟩, h3⟩, h1⟩, rfl⟩

end Half

namespace Item

variable {h : Half} {imm : Word}

/-- The offset of a load or store of an item. -/
def offset (h : Half) : Item → Word
  | word => h.offsetW
  | float | double => h.offsetD

/-- The offset of an item loaded from the stack. -/
def stackLoad (h : Half) : Item → Word
  | word => h.stackLoadW
  | float | double => h.stackLoadD

/-- The offset of an item stored to the stack. -/
def stackStore (h : Half) : Item → Word
  | word => h.stackStoreW
  | float | double => h.stackStoreD

theorem offset_eq_iff {item : Item} (offset : IsOffset (5 + item.scale) item.scale imm) :
  item.offset h = imm ↔
    h.field 10 3 = imm.extractLsb' 3 3 ∧ h.field 5 2 = item.offsetBits imm
  := by
  cases item with
  | word =>
    rw [Item.offset, Half.offsetW, setWidth_eq_iff (n := 7) (by decide) offset.1,
      append_eq_field_iff (n := 5) (m := 2), append_eq_field_iff (n := 4) (m := 1),
      append_eq_field_iff (n := 1) (m := 3), offsetBits, field_eq_append_iff (n := 1) (m := 1)]
    constructor
    · rintro ⟨⟨⟨h6, h3⟩, h2⟩, -⟩
      exact ⟨h3, h2, h6⟩
    · rintro ⟨h3, h2, h6⟩
      exact ⟨⟨⟨h6, h3⟩, h2⟩, offset.2.symm⟩
  | float | double =>
    rw [Item.offset, Half.offsetD, setWidth_eq_iff (n := 8) (by decide) offset.1,
      append_eq_field_iff (n := 5) (m := 3), append_eq_field_iff (n := 2) (m := 3)]
    constructor
    · rintro ⟨⟨h6, h3⟩, -⟩
      exact ⟨h3, h6⟩
    · rintro ⟨h3, h6⟩
      exact ⟨⟨h6, h3⟩, offset.2.symm⟩

theorem stackLoad_eq_iff {item : Item} (offset : IsOffset (6 + item.scale) item.scale imm) :
  item.stackLoad h = imm ↔
    h.field 12 1 = imm.extractLsb' 5 1 ∧ h.field 2 5 = item.loadBits imm
  := by
  cases item with
  | word =>
    rw [stackLoad, Half.stackLoadW, setWidth_eq_iff (n := 8) (by decide) offset.1,
      append_eq_field_iff (n := 6) (m := 2), append_eq_field_iff (n := 3) (m := 3),
      append_eq_field_iff (n := 2) (m := 1), loadBits, field_eq_append_iff (n := 3) (m := 2)]
    constructor
    · rintro ⟨⟨⟨h6, h5⟩, h2⟩, -⟩
      exact ⟨h5, h2, h6⟩
    · rintro ⟨h5, h2, h6⟩
      exact ⟨⟨⟨h6, h5⟩, h2⟩, offset.2.symm⟩
  | float | double =>
    rw [stackLoad, Half.stackLoadD, setWidth_eq_iff (n := 9) (by decide) offset.1,
      append_eq_field_iff (n := 6) (m := 3), append_eq_field_iff (n := 4) (m := 2),
      append_eq_field_iff (n := 3) (m := 1), loadBits, field_eq_append_iff (n := 2) (m := 3)]
    constructor
    · rintro ⟨⟨⟨h6, h5⟩, h3⟩, -⟩
      exact ⟨h5, h3, h6⟩
    · rintro ⟨h5, h3, h6⟩
      exact ⟨⟨⟨h6, h5⟩, h3⟩, offset.2.symm⟩

theorem stackStore_eq_iff {item : Item} (offset : IsOffset (6 + item.scale) item.scale imm) :
  item.stackStore h = imm ↔ h.field 7 6 = item.storeBits imm
  := by
  cases item with
  | word =>
    rw [stackStore, Half.stackStoreW, setWidth_eq_iff (n := 8) (by decide) offset.1,
      append_eq_field_iff (n := 6) (m := 2), append_eq_field_iff (n := 2) (m := 4), storeBits,
      field_eq_append_iff (n := 4) (m := 2)]
    constructor
    · rintro ⟨⟨h6, h2⟩, -⟩
      exact ⟨h2, h6⟩
    · rintro ⟨h2, h6⟩
      exact ⟨⟨h6, h2⟩, offset.2.symm⟩
  | float | double =>
    rw [stackStore, Half.stackStoreD, setWidth_eq_iff (n := 9) (by decide) offset.1,
      append_eq_field_iff (n := 6) (m := 3), append_eq_field_iff (n := 3) (m := 3), storeBits,
      field_eq_append_iff (n := 3) (m := 3)]
    constructor
    · rintro ⟨⟨h6, h3⟩, -⟩
      exact ⟨h3, h6⟩
    · rintro ⟨h3, h6⟩
      exact ⟨⟨h6, h3⟩, offset.2.symm⟩

end Item

/-! ### Fields are operands -/

theorem isOffset_setWidth {n k : Nat} (v : BitVec n) (small : n + k ≤ 64) :
  IsOffset (n + k) k ((v ++ 0#k).setWidth 64)
  := by
  have hlt : ((v ++ 0#k).setWidth 64).toNat < 2 ^ (n + k) := by
    rw [BitVec.toNat_setWidth_of_le small]
    exact (v ++ 0#k).isLt
  refine ⟨hlt, ?_⟩
  exact (append_eq_field_iff.mp ((setWidth_eq_iff small hlt).mp rfl)).2.symm

theorem isDisplacement_signExtend {n k : Nat} (v : BitVec n) (small : n + k ≤ 64) :
  IsDisplacement (n + k) k ((v ++ 0#k).signExtend 64)
  := ⟨Instr.fits_signExtend _ (Nat.le_refl _), low_signExtend_append v small⟩

namespace Half

theorem isShort_shortLow (h : Half) : IsShort h.shortLow := by
  have := (h.field 2 3).isLt
  unfold shortLow
  constructor <;> omega

theorem isShort_shortMid (h : Half) : IsShort h.shortMid := by
  have := (h.field 7 3).isLt
  unfold shortMid
  constructor <;> omega

end Half

namespace Item

theorem isOffset_offset (h : Half) (item : Item) :
  IsOffset (5 + item.scale) item.scale (item.offset h)
  := by
  cases item <;> exact isOffset_setWidth (n := 5) _ (by decide)

theorem isOffset_stackLoad (h : Half) (item : Item) :
  IsOffset (6 + item.scale) item.scale (item.stackLoad h)
  := by
  cases item <;> exact isOffset_setWidth (n := 6) _ (by decide)

theorem isOffset_stackStore (h : Half) (item : Item) :
  IsOffset (6 + item.scale) item.scale (item.stackStore h)
  := by
  cases item <;> exact isOffset_setWidth (n := 6) _ (by decide)

end Item

end CrossHart.Isa
