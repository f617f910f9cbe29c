import CrossHart.Host.Instr

/-!
# Register assignment

Compiled code keeps guest registers in five host registers while a block runs.  An assignment says
which guest register is where, which of them are newer than the register file in memory, and when
each was used last.  It starts empty with every block: a guest register is loaded when it is first
read, and written back when its host register is needed or the register file has to be current.

Each operation gives the code it needs, in front of whatever uses its result.
-/

namespace CrossHart.Host

/-- The number of host registers that hold guest registers. -/
abbrev slotCount : Nat := 5

/-- The host register of a slot.  A called function keeps these. -/
def slotReg : Fin slotCount → Reg
  | 0 => .rbx
  | 1 => .r12
  | 2 => .r13
  | 3 => .r14
  | 4 => .r15

/-- The slots, in order. -/
def slots : List (Fin slotCount) := List.finRange slotCount

/-- The host register that points to the state of the hart. -/
def stateReg : Reg := .rbp

/-- The offset of a guest register in the state of the hart. -/
def regOffset (guest : Nat) : BitVec 32 :=
  BitVec.ofNat 32 (8 * guest)

/-- The offset of the program counter in the state of the hart. -/
def pcOffset : BitVec 32 := 256

/-- The offset of the budget in the state of the hart. -/
def budgetOffset : BitVec 32 := 264

/-- What a host register holds. -/
structure Slot where
  guest : Option Nat := none
  /-- Whether the value is newer than the one in the register file. -/
  dirty : Bool := false
  lastUse : Nat := 0
  deriving DecidableEq, Repr

/-- Where a guest register is. -/
inductive Place where
  /-- In the register file, at an offset. -/
  | memory (off : BitVec 32)
  | reg (r : Reg)
  deriving DecidableEq, Repr

/-- An assignment of guest registers to host registers. -/
structure Assignment where
  slots : Vector Slot slotCount := Vector.replicate _ {}
  /-- The slot of each guest register. -/
  homes : Vector (Option (Fin slotCount)) 32 := Vector.replicate _ none
  /-- The slots that the current instruction uses. -/
  pinned : Vector Bool slotCount := Vector.replicate _ false
  /-- The number of instructions so far. -/
  clock : Nat := 0
  deriving DecidableEq

namespace Assignment

/-- The slot of a guest register, if it has one. -/
def home (a : Assignment) (guest : Nat) : Except Crash (Option (Fin slotCount)) :=
  if h : guest < 32 then .ok a.homes[guest] else .error .outOfBounds

/-- The assignment with another slot for a guest register. -/
def setHome (a : Assignment) (guest : Nat) (s : Option (Fin slotCount)) : Assignment :=
  if h : guest < 32 then { a with homes := a.homes.set guest s } else a

/-- Where a guest register is. -/
def get (a : Assignment) (guest : Nat) : Except Crash Place := do
  match ← a.home guest with
  | some s => return .reg (slotReg s)
  | none => return .memory (regOffset guest)

/-- Whether a guest register is newer than the one in the register file. -/
def isDirty (a : Assignment) (guest : Nat) : Except Crash Bool := do
  match ← a.home guest with
  | some s => return a.slots[s].dirty
  | none => return false

/-- The start of a guest instruction: no slot is in use. -/
def beginInstr (a : Assignment) : Assignment :=
  { a with pinned := Vector.replicate _ false, clock := a.clock + 1 }

/-- The code that writes a slot back to the register file. -/
def writeBack (s : Fin slotCount) (guest : Nat) : Instr :=
  .store true (slotReg s) stateReg (regOffset guest)

/-- Emptying a slot. -/
def spill (a : Assignment) (s : Fin slotCount) : List Instr × Assignment :=
  let slot := a.slots[s]
  let a := { a with slots := a.slots.set s {} }
  match slot.guest with
  | none => ([], a)
  | some g => (if slot.dirty then [writeBack s g] else [], a.setHome g none)

/-- A slot in use by the current instruction. -/
def touch (a : Assignment) (s : Fin slotCount) : Assignment :=
  { a with
    pinned := a.pinned.set s true
    slots := a.slots.set s { a.slots[s] with lastUse := a.clock } }

/-- The first slot that holds nothing. -/
def freeSlot? (a : Assignment) : Option (Fin slotCount) :=
  Host.slots.find? fun s => a.slots[s].guest.isNone

/-- Of the slots that the current instruction does not use, the first that was used least
recently. -/
def victim? (a : Assignment) : Option (Fin slotCount) :=
  (Host.slots.filter fun s => !a.pinned[s]).foldl
    (fun best s =>
      match best with
      | none => some s
      | some b => if a.slots[s].lastUse < a.slots[b].lastUse then some s else some b)
    none

/-- A slot for a guest register that has none. -/
def allocate (a : Assignment) (guest : Nat) :
    Except Crash (Fin slotCount × List Instr × Assignment) := do
  let (s, code, a) ←
    match a.freeSlot? with
    | some s => pure (s, [], a)
    | none =>
      match a.victim? with
      | some s => pure (s, a.spill s)
      | none => throw (.breach .allPinned)
  let a :=
    { a with
      slots := a.slots.set s { guest := some guest, lastUse := a.clock }
      pinned := a.pinned.set s true }
  return (s, code, a.setHome guest (some s))

/-- A host register with the value of a guest register. -/
def use (a : Assignment) (guest : Nat) : Except Crash (Reg × List Instr × Assignment) := do
  if guest = 0 then throw .badArgument
  match ← a.home guest with
  | some s => return (slotReg s, [], a.touch s)
  | none =>
    let (s, code, a) ← a.allocate guest
    return (slotReg s, code ++ [.load true (slotReg s) stateReg (regOffset guest)], a)

/-- A host register for a new value of a guest register. -/
def define (a : Assignment) (guest : Nat) : Except Crash (Reg × List Instr × Assignment) := do
  if guest = 0 then throw .badArgument
  let (s, code, a) ←
    match ← a.home guest with
    | some s => pure (s, [], a.touch s)
    | none => a.allocate guest
  return (slotReg s, code, { a with slots := a.slots.set s { a.slots[s] with dirty := true } })

/-- Writing back every slot that is newer than the register file. -/
def sync (a : Assignment) : List Instr × Assignment :=
  (Host.slots.filterMap fun s =>
      match a.slots[s].guest with
      | some g => if a.slots[s].dirty then some (writeBack s g) else none
      | none => none,
    { a with
      slots := a.slots.map fun slot =>
        if slot.guest.isSome then { slot with dirty := false } else slot })

/-- Forgetting every slot.  None may be newer than the register file. -/
def invalidate (a : Assignment) : Except Crash Assignment :=
  if a.slots.any (·.dirty) then .error .badArgument else .ok { clock := a.clock }

/-- Writing back and forgetting every slot. -/
def flush (a : Assignment) : Except Crash (List Instr × Assignment) := do
  let (code, a) := a.sync
  return (code, ← a.invalidate)

/-- The slot of a host register. -/
def slotOf? (r : Reg) : Option (Fin slotCount) :=
  Host.slots.find? fun s => slotReg s = r

/-- Binding a guest register to a host register that holds its new value.  What the host register
held before goes to the register file. -/
def setReg (a : Assignment) (guest : Nat) (r : Reg) : Except Crash (List Instr × Assignment) := do
  if guest = 0 then return ([], a)
  match slotOf? r with
  | none => throw (.breach .reservedRegister)
  | some s =>
    let a :=
      match ← a.home guest with
      | some old => if old = s then a else { a with slots := a.slots.set old {} }
      | none => a
    let (code, a) := if a.slots[s].guest = some guest then ([], a) else a.spill s
    let a :=
      { a with
        slots := a.slots.set s { guest := some guest, dirty := true, lastUse := a.clock }
        pinned := a.pinned.set s true }
    return (code, a.setHome guest (some s))

/-- Moving a guest register to the register file. -/
def setMemory (a : Assignment) (guest : Nat) : Except Crash (List Instr × Assignment) := do
  if guest = 0 then return ([], a)
  match ← a.home guest with
  | some s => return a.spill s
  | none => return ([], a)

end Assignment

end CrossHart.Host
