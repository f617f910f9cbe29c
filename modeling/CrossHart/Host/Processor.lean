import CrossHart.Hart.Service
import CrossHart.Host.Decode
import CrossHart.Host.Flags
import CrossHart.Host.Lower

/-!
# The host processor

Compiled code is bytes in a buffer; this module says what a processor does with them.  The
processor reads the instruction at its position and carries it out.  Of the host's memory, code
only touches the state of the hart, and the only functions it calls are the services.  It is
entered at a block and ends when it jumps back to the engine, with a reason in `rax`.
-/

namespace CrossHart.Host

/-- What the processor is connected to. -/
structure Environment where
  /-- The address of the state of the hart. -/
  state : Word
  services : Services
  /-- What a called function leaves in the registers that it need not keep. -/
  leftover : Reg → Word := fun _ => 0

/-- The environment of code that calls the services of an engine on a platform. -/
def Environment.ofPlatform (platform : Platform) (services : Services) : Environment where
  state := platform.state
  services
  leftover := platform.leftover

/-- An environment with the services of an engine. -/
def Environment.standard : Environment :=
  .ofPlatform .standard .standard

/-- The processor and the guest it works on. -/
structure Processor where
  regs : Vector Word 16
  /-- The flags, where they are known. -/
  flags : Option Flags := none
  /-- The offset of the next instruction in the code buffer. -/
  position : Nat
  guest : Guest

namespace Processor

/-- The value of a register. -/
def reg (p : Processor) (r : Reg) : Word :=
  p.regs[r.code]

/-- The processor after a write to a register. -/
def setReg (p : Processor) (r : Reg) (v : Word) : Processor :=
  { p with regs := p.regs.set r.code v }

/-- The processor after a result of 64 or 32 bits; the latter clears the other half. -/
def setResult (p : Processor) (wide : Bool) (r : Reg) (v : Word) : Processor :=
  p.setReg r (if wide then v else (v.setWidth 32).setWidth 64)

/-! ### The state of the hart in memory -/

/-- The offset of an address in the state of the hart. -/
def stateOffset (env : Environment) (p : Processor) (base : Reg) (off : BitVec 32) : Nat :=
  (p.reg base + off.signExtend 64 - env.state).toNat

/-- The word at an offset of the state of a hart. -/
def readState (h : Hart) (off : Nat) : Except Crash Word :=
  if off % 8 ≠ 0 then .error .hostFault
  else if hr : off / 8 < 32 then .ok h.regs.x[off / 8]
  else if off = 256 then .ok h.regs.pc
  else if off = 264 then .ok h.budget
  else .error .hostFault

/-- The state of a hart with a word replaced. -/
def writeState (h : Hart) (off : Nat) (v : Word) : Except Crash Hart :=
  if off % 8 ≠ 0 then .error .hostFault
  else if hr : off / 8 < 32 then
    .ok { h with regs := { h.regs with x := h.regs.x.set (off / 8) v } }
  else if off = 256 then .ok { h with regs := { h.regs with pc := v } }
  else if off = 264 then .ok { h with budget := v }
  else .error .hostFault

/-- Reading a word of memory. -/
def readMemory (env : Environment) (p : Processor) (base : Reg) (off : BitVec 32) :
    Except Crash Word :=
  readState p.guest.hart (p.stateOffset env base off)

/-- Writing a word of memory. -/
def writeMemory (env : Environment) (p : Processor) (base : Reg) (off : BitVec 32) (v : Word) :
    Except Crash Processor :=
  let at' := p.stateOffset env base off
  match p with
  | ⟨regs, flags, position, hart, memory⟩ => do
    return ⟨regs, flags, position, ← writeState hart at' v, memory⟩

/-! ### Arithmetic -/

/-- An arithmetic operation on two words, of 64 or 32 bits. -/
def arith (op : Arith) (wide : Bool) (a b : Word) : Option Word × Flags :=
  if wide then op.eval a b
  else
    let (result, flags) := op.eval (a.setWidth 32) (b.setWidth 32)
    (result.map (·.setWidth 64), flags)

/-- A shift of a word, of 64 or 32 bits. -/
def shifted (op : Shift) (wide : Bool) (a : Word) (amount : Nat) : Word :=
  if wide then op.eval a amount else (op.eval (a.setWidth 32) amount).setWidth 64

/-- The processor after an arithmetic operation on a register. -/
def arithReg (p : Processor) (op : Arith) (wide : Bool) (dst : Reg) (b : Word) : Processor :=
  let (result, flags) := arith op wide (p.reg dst) b
  let p := { p with flags := some flags }
  match result with
  | some v => p.setResult wide dst v
  | none => p

/-- The upper and lower half of a product. -/
def product (signed wide : Bool) (a b : Word) : Word × Word :=
  if wide then
    let x : BitVec 128 := if signed then a.signExtend 128 else a.setWidth 128
    let y : BitVec 128 := if signed then b.signExtend 128 else b.setWidth 128
    ((x * y).extractLsb' 64 64, (x * y).setWidth 64)
  else
    let x : Word := if signed then (a.setWidth 32).signExtend 64 else (a.setWidth 32).setWidth 64
    let y : Word := if signed then (b.setWidth 32).signExtend 64 else (b.setWidth 32).setWidth 64
    ((x * y) >>> 32, (x * y))

/-- The processor after a product of `rax` and a register. -/
def multiply (p : Processor) (signed wide : Bool) (src : Reg) : Processor :=
  let (upper, lower) := product signed wide (p.reg .rax) (p.reg src)
  { (p.setResult wide .rdx upper).setResult wide .rax lower with flags := none }

/-! ### Calls -/

/-- The registers that a called function need not keep, apart from those with its results. -/
def volatile : List Reg := [.rcx, .rsi, .rdi, .r8, .r9, .r10, .r11]

/-- The result of the service at an address. -/
def serve (env : Environment) (p : Processor) (addr : Word) :
    Except Crash (Hart.Reply × Processor) :=
  let a := p.reg .rsi
  let b := p.reg .rdx
  let c := p.reg .rcx
  if p.reg .rdi ≠ env.state then .error .hostFault
  else
    match p with
    | ⟨regs, flags, position, guest⟩ => do
      let (reply, guest) ←
        if addr = env.services.load then Hart.Service.load a b guest
        else if addr = env.services.store then Hart.Service.store a b c guest
        else if addr = env.services.arith then Hart.Service.arith a b c guest
        else if addr = env.services.interpret then Hart.Service.interpret a b c guest
        else throw .hostFault
      return (reply, ⟨regs, flags, position, guest⟩)

/-- The processor after a call. -/
def call (env : Environment) (p : Processor) (addr : Word) : Except Crash Processor := do
  let (reply, p) ← p.serve env addr
  let p := volatile.foldl (fun p r => p.setReg r (env.leftover r)) p
  return { (p.setReg .rax reply.value).setReg .rdx (Word.ofBool reply.failed) with flags := none }

/-! ### Instructions -/

/-- The processor after a jump relative to its position. -/
def jump (p : Processor) (disp : BitVec 32) : Processor :=
  { p with position := ((p.position : Int) + disp.toInt).toNat }

/-- The flags, where they are known. -/
def knownFlags (p : Processor) : Except Crash Flags :=
  match p.flags with
  | some f => .ok f
  | none => .error .hostFault

/-- The processor after an instruction; its position is already behind it. -/
def execute (env : Environment) (i : Instr) (p : Processor) : Except Crash Processor :=
  match i with
  | .arith op wide dst src => .ok (p.arithReg op wide dst (p.reg src))
  | .arithImm op wide dst imm => .ok (p.arithReg op wide dst (imm.signExtend 64))
  | .arithMem op wide base off imm =>
    if wide then do
      let (result, flags) := arith op true (← p.readMemory env base off) (imm.signExtend 64)
      let p := { p with flags := some flags }
      match result with
      | some v => p.writeMemory env base off v
      | none => return p
    else .error .hostFault
  | .shift op wide dst amount =>
    .ok { p.setResult wide dst (shifted op wide (p.reg dst) amount.toNat) with flags := none }
  | .shiftCl op wide dst =>
    .ok { p.setResult wide dst (shifted op wide (p.reg dst) ((p.reg .rcx).toNat % 256)) with
      flags := none }
  | .mul wide src => .ok (p.multiply false wide src)
  | .imul wide src => .ok (p.multiply true wide src)
  | .imulLow wide dst src =>
    .ok { p.setResult wide dst (p.reg dst * p.reg src) with flags := none }
  | .test wide a b =>
    let v := p.reg a &&& p.reg b
    .ok { p with flags := some (if wide then .ofBits v else .ofBits (v.setWidth 32)) }
  | .setcc c dst => do
    let f ← p.knownFlags
    let low := Word.ofBool (c.holds f)
    return p.setReg dst (p.reg dst &&& ~~~0xff ||| low)
  | .mov wide dst src => .ok (p.setResult wide dst (p.reg src))
  | .movImm wide dst value => .ok (p.setResult wide dst value)
  | .movslq dst src => .ok (p.setReg dst (((p.reg src).setWidth 32).signExtend 64))
  | .load wide dst base off =>
    if wide then do return p.setReg dst (← p.readMemory env base off) else .error .hostFault
  | .store wide src base off =>
    if wide then p.writeMemory env base off (p.reg src) else .error .hostFault
  | .storeImm wide base off imm =>
    if wide then p.writeMemory env base off (imm.signExtend 64) else .error .hostFault
  | .jmp disp => .ok (p.jump disp)
  | .jcc c disp => do return if c.holds (← p.knownFlags) then p.jump disp else p
  | .callReg r => p.call env (p.reg r)
  | .nop _ => .ok p
  | .jmpReg _ | .push _ | .pop _ | .ret => .error .hostFault

/-- The greatest number of bytes of an instruction. -/
def longest : Nat := 15

/-- The processor after the instruction at its position. -/
def step (env : Environment) (code : ByteArray) (p : Processor) : Except Crash Processor :=
  match Instr.decode? (Bytes.slice0 code p.position longest) with
  | none => .error .hostFault
  | some (i, size) => execute env i { p with position := p.position + size }

/-- The processor once it is back at the engine, after at most `fuel` instructions. -/
def run (env : Environment) (code : ByteArray) (leave : Nat) :
    (fuel : Nat) → Processor → Except Crash Processor
  | 0, _ => .error .hostFault
  | fuel + 1, p =>
    if p.position = leave then .ok p
    else
      match p.step env code with
      | .error crash => .error crash
      | .ok p => run env code leave fuel p

/-- The processor at the entry of a block. -/
def atEntry (env : Environment) (guest : Guest) (entry : Nat) : Processor where
  regs := (Vector.replicate 16 0).set stateReg.code env.state
  position := entry
  guest

/-- Running compiled code from the entry of a block until it is back at the engine.  Also the
number of the reason.  Every block charges the budget, so the number of instructions is bounded
by that of the code for each unit of the budget. -/
def enter (env : Environment) (f : Frame) (b : Buffer) (entry : Nat) (guest : Guest) :
    Except Crash (Nat × Guest) := do
  let b ← b.executable
  let fuel := (guest.hart.budget.toNat + 2) * (b.bytes.size + 1)
  let p ← run env b.bytes f.leave fuel (atEntry env guest entry)
  return ((p.reg .rax).toNat, p.guest)

end Processor

end CrossHart.Host
