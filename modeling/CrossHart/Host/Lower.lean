import CrossHart.Block
import CrossHart.Host.Assembly
import CrossHart.Host.Assignment

/-!
# Compiling blocks

A block is compiled instruction by instruction.  Its code first charges the budget for the whole
block and leaves if the budget does not cover it.  Arithmetic is carried out in place; memory and
rare instructions go through services, after which the code leaves if the service failed, with
what was charged for instructions not carried out given back.  An exit to a known address is a
jump that can later be redirected to the block at that address; until then it leads to a stub at
the end of the code, which leaves with that address.
-/

namespace CrossHart.Host

open Isa

/-- The addresses of the services. -/
structure Services where
  load : Word
  store : Word
  arith : Word
  interpret : Word
  deriving DecidableEq, Repr

/-- The services of an engine: addresses of more than 32 bits. -/
def Services.standard : Services where
  load := 0x111111111111
  store := 0x222222222222
  arith := 0x333333333333
  interpret := 0x444444444444

/-- The way out after a service call that failed. -/
structure FaultExit where
  pc : Word
  /-- The number of instructions charged but not carried out. -/
  refund : Nat
  deriving DecidableEq, Repr

/-- The code of a block as far as it is made. -/
structure Draft where
  assignment : Assignment := {}
  /-- The items so far, the last one first. -/
  items : List Item := []
  /-- The number of service calls that can fail. -/
  faultCount : Nat := 0
  /-- Their ways out, the last one first. -/
  faults : List FaultExit := []
  /-- The number of exits to known addresses. -/
  exitCount : Nat := 0
  /-- Their addresses, the last one first. -/
  exits : List Word := []

/-- Steps of compiling a block.  A crash leaves what was made before it. -/
abbrev Compile := ExceptT Crash (StateM Draft)

namespace Compile

/-- An item. -/
def item (i : Item) : Compile Unit :=
  modify fun d => { d with items := i :: d.items }

/-- An instruction. -/
def instr (i : Instr) : Compile Unit :=
  item (.instr i)

/-- Several instructions. -/
def instrs (is : List Instr) : Compile Unit :=
  is.forM instr

/-- A computation that does not depend on the draft. -/
def ofExcept {α : Type} (x : Except Crash α) : Compile α :=
  ExceptT.mk (pure x)

/-- An operation on the assignment that gives a register. -/
def assign (f : Assignment → Except Crash (Reg × List Instr × Assignment)) : Compile Reg := do
  let (r, code, assignment) ← ofExcept (f (← get).assignment)
  modify fun d => { d with assignment }
  instrs code
  return r

/-- Writing back all guest registers. -/
def sync : Compile Unit := do
  let (code, assignment) := (← get).assignment.sync
  modify fun d => { d with assignment }
  instrs code

/-- The host register with the value of a guest register.  Zero is put into a scratch register. -/
def read (guest : Nat) (scratch : Reg) : Compile Reg :=
  if guest = 0 then do
    instr (.movImm false scratch 0)
    return scratch
  else assign (·.use guest)

/-- The value of a guest register in a given host register. -/
def readInto (guest : Nat) (dst : Reg) : Compile Unit := do
  let r ← read guest dst
  if r ≠ dst then instr (.mov true dst r)

/-- A guest register set from a host register. -/
def writeFrom (guest : Nat) (src : Reg) : Compile Unit :=
  if guest = 0 then pure ()
  else do
    let r ← assign (·.define guest)
    if r ≠ src then instr (.mov true r src)

/-- A guest register set to a constant. -/
def writeImm (guest : Nat) (v : Word) : Compile Unit :=
  if guest = 0 then pure ()
  else do
    let r ← assign (·.define guest)
    instr (.movImm true r v)

/-- The sum of a guest register and a constant in a host register. -/
def addressIn (dst : Reg) (guest : Nat) (imm : Word) : Compile Unit := do
  readInto guest dst
  if imm ≠ 0 then instr (.arithImm .add true dst (imm.setWidth 32))

/-- The program counter set to a constant. -/
def setPc (pc : Word) : Compile Unit :=
  if pc.toNat < 0x80000000 then instr (.storeImm true stateReg pcOffset (pc.setWidth 32))
  else do
    instr (.movImm true .rax pc)
    instr (.store true .rax stateReg pcOffset)

/-- Leaving compiled code for a reason. -/
def leave (r : ExitReason) : Compile Unit := do
  instr (.movImm false .rax (BitVec.ofNat 64 r.code))
  item .leave

/-- Leaving compiled code at an address. -/
def leaveAt (pc : Word) (r : ExitReason) : Compile Unit := do
  sync
  setPc pc
  leave r

/-- An exit to a known address. -/
def exitTo (pc : Word) : Compile Unit := do
  let n := (← get).exitCount
  item (.exit n)
  modify fun d => { d with exitCount := n + 1, exits := pc :: d.exits }

/-- The call of a service. -/
def call (addr : Word) : Compile Unit := do
  instr (.mov true .rdi stateReg)
  instr (.movImm true .rax addr)
  instr (.callReg .rax)

/-- The number of instructions of a block that are charged but not carried out, if `done` of `count`
are.  Both are counted with 32 bits. -/
def unretired (count done : Nat) : Except Crash Nat :=
  let charged := count % 0x100000000
  let retired := done % 0x100000000
  if retired ≤ charged then .ok (charged - retired) else .error .overflow

/-- Leaving if the service called before failed.  `refund` instructions were charged but not
carried out. -/
def checkFault (pc : Word) (refund : Except Crash Nat) : Compile Unit := do
  instr (.test true .rdx .rdx)
  let refund ← ofExcept refund
  let n := (← get).faultCount
  item (.branch .jne (.fault n))
  modify fun d => { d with faultCount := n + 1, faults := ⟨pc, refund⟩ :: d.faults }

/-! ### Instructions -/

/-- The second operand of an arithmetic instruction. -/
inductive Source where
  | reg (r : Nat)
  | imm (v : Word)
  deriving DecidableEq, Repr

/-- The host's operation for a guest operation in two registers. -/
def arithOp : AluOp → Arith
  | .sub => .sub
  | .xor => .xor
  | .or => .or
  | .and => .and
  | _ => .add

/-- The host's shift for a guest shift. -/
def shiftOp : AluOp → Shift
  | .srl => .shr
  | .sra => .sar
  | _ => .shl

/-- An instruction carried out by the service for single steps, which works on the register
file. -/
def interpreted (s : Services) (refund : Except Crash Nat) (d : Located) : Compile Unit := do
  sync
  instr (.movImm false .rsi (d.raw.setWidth 64))
  instr (.movImm true .rdx d.pc)
  instr (.movImm false .rcx (BitVec.ofNat 64 (← ofExcept refund)))
  call s.interpret
  let assignment ← ofExcept (← get).assignment.invalidate
  modify fun d => { d with assignment }
  checkFault d.pc refund

/-- The sign extension of a 32-bit result. -/
def extendIf (low : Bool) : Compile Unit :=
  if low then instr (.movslq .rax .rax) else pure ()

/-- A comparison, leaving zero or one in `rax`. -/
def compare (op : AluOp) (rs1 : Nat) (b : Source) : Compile Unit := do
  let a ← read rs1 .rdx
  match b with
  | .reg rs2 =>
    let r ← read rs2 .rcx
    instr (.movImm false .rax 0)
    instr (.arith .cmp true a r)
  | .imm v =>
    instr (.movImm false .rax 0)
    instr (.arithImm .cmp true a (v.setWidth 32))
  instr (.setcc (if op = .slt then .jl else .jb) .rax)

/-- The code that leaves the result of an arithmetic operation in `rax`, if it has one of its own.
`low` says whether the operation is on 32 bits. -/
def arithCode? (s : Services) (op : AluOp) (rs1 : Nat) (b : Source) (low : Bool) :
    Option (Compile Unit) :=
  match op, b with
  | .slt, _ | .sltu, _ => some (compare op rs1 b)
  | .mulhsu, .reg rs2 | .div, .reg rs2 | .divu, .reg rs2 | .rem, .reg rs2 | .remu, .reg rs2 =>
    some do
      readInto rs1 .rdx
      readInto rs2 .rcx
      instr (.movImm false .rsi (BitVec.ofNat 64 (op.code + if low then 256 else 0)))
      call s.arith
  | .add, .imm v | .xor, .imm v | .or, .imm v | .and, .imm v =>
    some do
      readInto rs1 .rax
      if v ≠ 0 ∨ op = .and then instr (.arithImm (arithOp op) (!low) .rax (v.setWidth 32))
      extendIf low
  | .sll, .imm v | .srl, .imm v | .sra, .imm v =>
    some do
      readInto rs1 .rax
      let amount := v.toNat % if low then 32 else 64
      if amount ≠ 0 then instr (.shift (shiftOp op) (!low) .rax (BitVec.ofNat 8 amount))
      extendIf low
  | .sll, .reg rs2 | .srl, .reg rs2 | .sra, .reg rs2 =>
    some do
      readInto rs1 .rax
      readInto rs2 .rcx
      instr (.shiftCl (shiftOp op) (!low) .rax)
      extendIf low
  | .add, .reg rs2 | .sub, .reg rs2 | .xor, .reg rs2 | .or, .reg rs2 | .and, .reg rs2 =>
    some do
      readInto rs1 .rax
      let r ← read rs2 .rcx
      instr (.arith (arithOp op) (!low) .rax r)
      extendIf low
  | .mul, .reg rs2 =>
    some do
      readInto rs1 .rax
      let r ← read rs2 .rcx
      instr (.imulLow (!low) .rax r)
      extendIf low
  | .mulh, .reg rs2 =>
    if low then none
    else some do
      readInto rs1 .rax
      let r ← read rs2 .rcx
      instr (.imul true r)
      instr (.mov true .rax .rdx)
  | .mulhu, .reg rs2 =>
    if low then none
    else some do
      readInto rs1 .rax
      let r ← read rs2 .rcx
      instr (.mul true r)
      instr (.mov true .rax .rdx)
  | _, _ => none

/-- An arithmetic instruction. -/
def arith (s : Services) (refund : Except Crash Nat) (d : Located) (op : AluOp) (rd rs1 : Nat)
    (b : Source) (low : Bool) : Compile Unit :=
  if rd = 0 then pure ()
  else
    match arithCode? s op rs1 b low with
    | some code => do
      code
      writeFrom rd .rax
    | none => interpreted s refund d

/-- An instruction, with the number of instructions of its block from it on. -/
def located (s : Services) (refund : Except Crash Nat) (d : Located) : Compile Unit :=
  match d.instr with
  | .lui rd imm => writeImm rd imm
  | .auipc rd imm => writeImm rd (d.pc + imm)
  | .jal rd imm => do
    writeImm rd d.next
    sync
    exitTo (d.pc + imm)
  | .jalr rd rs1 imm => do
    addressIn .rax rs1 imm
    instr (.arithImm .and true .rax (-2))
    writeImm rd d.next
    sync
    instr (.store true .rax stateReg pcOffset)
    leave .indirect
  | .branch op rs1 rs2 imm => do
    let a ← read rs1 .rax
    let b ← read rs2 .rcx
    sync
    instr (.arith .cmp true a b)
    let n := (← get).exitCount + 1
    item (.branch (.ofBranch op) (.taken n))
    exitTo d.next
    item (.place (.taken n))
    exitTo (d.pc + imm)
  | .load op rd rs1 imm => do
    addressIn .rsi rs1 imm
    sync
    instr (.movImm false .rdx (BitVec.ofNat 64 op.code))
    call s.load
    checkFault d.pc refund
    writeFrom rd .rax
  | .store op rs1 rs2 imm => do
    readInto rs2 .rdx
    addressIn .rsi rs1 imm
    sync
    instr (.movImm false .rcx (BitVec.ofNat 64 op.size))
    call s.store
    checkFault d.pc refund
  | .opImm op rd rs1 imm => arith s refund d op rd rs1 (.imm imm) false
  | .opImm32 op rd rs1 imm => arith s refund d op rd rs1 (.imm imm) true
  | .op op rd rs1 rs2 => arith s refund d op rd rs1 (.reg rs2) false
  | .op32 op rd rs1 rs2 => arith s refund d op rd rs1 (.reg rs2) true
  | .fence _ _ => pure ()
  | .fenceI => leaveAt d.next .fenceI
  | .ecall => leaveAt d.pc .ecall
  | .ebreak => leaveAt d.pc .ebreak
  | .amo .. | .csr .. | .fpLoad .. | .fpStore .. | .fpFma .. | .fpOp .. =>
    interpreted s refund d

/-! ### Blocks -/

/-- A change of the budget by a number of instructions. -/
def changeBudget (op : Arith) (n : Nat) : Compile Unit :=
  instr (.arithMem op true stateReg budgetOffset (BitVec.ofNat 32 n))

/-- The instructions of a block of `count` that come behind the first `done`. -/
def body (s : Services) (count : Nat) : List Located → Nat → Compile Unit
  | [], _ => pure ()
  | d :: rest, done => do
    modify fun draft => { draft with assignment := draft.assignment.beginInstr }
    located s (unretired count done) d
    body s count rest (done + 1)

/-- The ways out after service calls that failed, the `n`-th first. -/
def faultExits : List FaultExit → Nat → Compile Unit
  | [], _ => pure ()
  | f :: rest, n => do
    item (.place (.fault n))
    if 0 < f.refund then changeBudget .add f.refund
    setPc f.pc
    leave .exception
    faultExits rest (n + 1)

/-- The stubs of exits, the `n`-th first. -/
def stubs : List Word → Nat → Compile Unit
  | [], _ => pure ()
  | pc :: rest, n => do
    item (.place (.stub n))
    setPc pc
    leave .chain
    stubs rest (n + 1)

/-- The whole code of a block. -/
def block (s : Services) (b : Block) : Compile Unit := do
  changeBudget .sub b.count
  item (.branch .jl .budget)
  body s b.count b.insns 0
  if b.ending = .limit then
    sync
    exitTo b.endPc
  item (.place .budget)
  changeBudget .add b.count
  setPc b.pc
  leave .budget
  faultExits (← get).faults.reverse 0
  stubs (← get).exits.reverse 0

end Compile

/-- The items of a block's code. -/
def Draft.code (d : Draft) : List Item := d.items.reverse

/-- The addresses of the exits, in order. -/
def Draft.targets (d : Draft) : List Word := d.exits.reverse

/-- The draft of a block's code, up to where compiling it crashes. -/
def lower (s : Services) (b : Block) : Except Crash Unit × Draft :=
  (Compile.block s b).run.run {}

/-- A bound for the number of bytes of a block's code. -/
def codeBound (b : Block) : Nat :=
  b.count * 256 + 256

/-! ### Emission -/

/-- The jump of an exit to a known address, and the stub it leads to at first. -/
structure Site where
  target : Word
  jump : Nat
  stub : Nat
  deriving DecidableEq, Repr

/-- Where the code around all blocks is: the way in, the way back, and the first offset for
blocks. -/
structure Frame where
  entry : Nat := 0
  leave : Nat := 0
  start : Nat := 0
  deriving DecidableEq, Repr

namespace Frame

/-- The registers to be saved around compiled code. -/
def saved : List Reg := [.rbp, .rbx, .r12, .r13, .r14, .r15]

/-- The number of bytes by which the stack is moved, so that it is aligned at calls. -/
def stackRoom : BitVec 32 := 136

/-- The way in: registers are saved, the state of the hart and the entry of a block are taken from
the arguments. -/
def entryCode : List Instr :=
  saved.map .push ++
    [.mov true stateReg .rdi, .arithImm .sub true .rsp stackRoom, .jmpReg .rsi]

/-- The way back: registers are restored. -/
def leaveCode : List Instr :=
  [.arithImm .add true .rsp stackRoom] ++ saved.reverse.map .pop ++ [.ret]

/-- Writing the way in. -/
def emitEntry (f : Frame) (b : Buffer) : Except Crash (Frame × Buffer) := do
  let entry := b.offset
  return ({ f with entry }, ← b.emitAll entryCode)

/-- Writing the way back. -/
def emitLeave (f : Frame) (b : Buffer) : Except Crash (Frame × Buffer) := do
  let leave := b.offset
  let b ← b.emitAll leaveCode
  return ({ f with leave, start := Size.roundUp b.offset 16 }, b)

/-- Writing both. -/
def emit (b : Buffer) : Except Crash (Frame × Buffer) := do
  let (f, b) ← emitEntry {} b
  f.emitLeave b

/-- Writing the code that leaves for a reason. -/
def emitExit (f : Frame) (b : Buffer) (r : ExitReason) : Except Crash Buffer := do
  let b ← b.emitInstr (.movImm false .rax (BitVec.ofNat 64 r.code))
  b.emitJump f.leave

end Frame

/-- The sites of exits with the given addresses, jumps and labels, the `n`-th first. -/
def sitesOf (ls : Labels) : List Word → List Nat → Nat → Except Crash (List Site)
  | target :: targets, jump :: jumps, n => do
    let stub ← ls.placeOf (.stub n)
    return ⟨target, jump, stub⟩ :: (← sitesOf ls targets jumps (n + 1))
  | _, _, _ => return []

/-- Writing the code of a block at the current offset, which is its entry.  Also the sites of its
exits.  Code is written as it is made: that there is no room for it is noticed before an
instruction behind it that cannot be compiled. -/
def emitBlock (f : Frame) (s : Services) (block : Block) (b : Buffer) :
    Except Crash (List Site × Buffer) :=
  let (outcome, draft) := lower s block
  let start := b.offset
  match outcome with
  | .error c =>
    .error (if Item.stop start draft.code ≤ b.limit then c else .breach .bufferOverflow)
  | .ok () => do
    let (code, ls) ← Item.assemble f.leave start draft.code
    let b ← b.emit code
    return (← sitesOf ls draft.targets (Item.exitOffsets start draft.code []) 0, b)

end CrossHart.Host
