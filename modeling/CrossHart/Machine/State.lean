import CrossHart.Machine.Config
import CrossHart.Machine.Snapshot
import CrossHart.Machine.Stats

/-!
# Machines

A machine is one guest and all that is needed to run it.  This module builds machines and changes
them from the outside: images are loaded, devices mapped, pages and code invalidated, snapshots
taken and restored.
-/

namespace CrossHart

open Memory Cache

/-- The reasons for which a machine is not built or changed. -/
inductive MachineError where
  /-- The host has no room for the code cache. -/
  | cacheSetup
  | map (e : MapError)
  | imageOutOfRange (addr : Word) (len : Nat)
  | snapshot (e : SnapshotError)
  | snapshotBase (expected found : Word)
  deriving DecidableEq, Repr

namespace MachineError

/-- What the host says when it has no room. -/
def noRoom : String := "Cannot allocate memory (os error 12)"

/-- The text of a machine error. -/
def message : MachineError → String
  | cacheSetup => "code cache setup failed: " ++ noRoom
  | map e => e.message
  | imageOutOfRange addr len =>
    "image of " ++ len.repr ++ " bytes at " ++ Text.hex0x addr.toNat ++
      " does not fit guest RAM"
  | snapshot e => e.message
  | snapshotBase expected found =>
    "snapshot memory base " ++ Text.hex0x found.toNat ++ " differs from guest RAM base " ++
      Text.hex0x expected.toNat

end MachineError

/-- A machine. -/
structure Machine where
  guest : Guest
  /-- There is none if every instruction is interpreted. -/
  cache : Option CodeCache
  config : Config
  /-- The number of times a block was not compiled. -/
  failures : Nat := 0
  /-- The number of times compiled code was entered. -/
  entries : Nat := 0
  /-- The number of instructions that were interpreted one by one. -/
  interpreted : Nat := 0

/-- The result of an operation on a machine that can fail, and the machine after it. -/
abbrev Machine.Change (α : Type) := Machine → Except Crash (Except MachineError α × Machine)

namespace Machine

/-- A machine with empty RAM. -/
def create (config : Config) (policy : Policy) (services : Host.Services := .standard)
    (platform : Host.Platform := .standard) : Except Crash (Except MachineError Machine) := do
  let space ← Space.create config.base (BitVec.ofNat 64 config.memorySize)
  let guest : Guest := { memory := { space, policy } }
  match config.mode with
  | .interpret => return .ok { guest, cache := none, config }
  | .jit =>
    match ← CodeCache.create config.cacheSize config.eviction services platform with
    | none => return .error .cacheSetup
    | some cache => return .ok { guest, cache := some cache, config }

/-- The machine with its memory changed. -/
def mapMemory (m : Machine) (f : Memory → Memory) : Machine :=
  match m with
  | ⟨⟨hart, memory⟩, cache, config, failures, entries, interpreted⟩ =>
    ⟨⟨hart, f memory⟩, cache, config, failures, entries, interpreted⟩

/-- The machine with its registers changed. -/
def mapRegs (m : Machine) (f : Registers → Registers) : Machine :=
  match m with
  | ⟨⟨hart, memory⟩, cache, config, failures, entries, interpreted⟩ =>
    ⟨⟨{ hart with regs := f hart.regs }, memory⟩, cache, config, failures, entries, interpreted⟩

/-- The RAM of a machine. -/
def ram (m : Machine) : ByteArray :=
  m.guest.memory.space.ram

/-- The first address of RAM. -/
def base (m : Machine) : Word :=
  m.guest.memory.space.base

/-- An action on the memory of a machine. -/
def onMemory {ε α : Type} (a : Action Memory ε α) (m : Machine) :
    Except Crash (Except ε α × Machine) :=
  match m with
  | ⟨⟨hart, memory⟩, cache, config, failures, entries, interpreted⟩ =>
    match a.on memory with
    | .error crash => .error crash
    | .ok (result, memory) =>
      .ok (result, ⟨⟨hart, memory⟩, cache, config, failures, entries, interpreted⟩)

/-! ### Invalidation -/

/-- The machine without code compiled from `[start, start + len)`. -/
def invalidateCode (m : Machine) (start len : Word) : Except Crash Machine :=
  match m.cache with
  | none => return m
  | some c => do
    let (_, c) ← c.invalidate start len
    return { m with cache := some c }

/-- The machine without compiled code. -/
def flushCode (m : Machine) : Machine :=
  { m with cache := m.cache.map (·.flush) }

/-- The machine without what it kept of the policy's answers. -/
def flushLookaside (m : Machine) : Machine :=
  m.mapMemory fun ⟨lookaside, space, policy⟩ => ⟨lookaside.flush, space, policy⟩

/-- The machine without compiled code and without what it kept of the policy's answers. -/
def flush (m : Machine) : Machine :=
  m.flushLookaside.flushCode

/-- The machine after a page changed its backing or rights. -/
def invalidatePage (m : Machine) (page : Word) : Except Crash Machine :=
  let m := m.mapMemory fun ⟨lookaside, space, policy⟩ => ⟨lookaside.invalidate page, space, policy⟩
  if page.toNat * pageSize < Word.count then
    m.invalidateCode (page <<< 12) (BitVec.ofNat 64 pageSize)
  else return m

/-! ### Memory -/

/-- Whether as many bytes from an address on are in RAM. -/
def inRam (space : Space) (addr : Word) (size : Nat) : Bool :=
  space.base.ule addr && (addr - space.base).toNat + size ≤ space.ram.size

/-- The address space with bytes copied into RAM, where they fit. -/
def copyIn (addr : Word) (data : ByteArray) : Space → Space
  | ⟨ram, base, regions⟩ => ⟨Bytes.blit ram (addr - base).toNat data, base, regions⟩

/-- Copying bytes into RAM, whatever the policy says.  Code compiled from them is discarded. -/
def load (addr : Word) (data : ByteArray) : Change Unit := fun m =>
  if inRam m.guest.memory.space addr data.size then do
    let m := m.mapMemory fun ⟨lookaside, space, policy⟩ =>
      ⟨lookaside, copyIn addr data space, policy⟩
    return (.ok (), ← m.invalidateCode addr (BitVec.ofNat 64 data.size))
  else .ok (.error (.imageOutOfRange addr data.size), m)

/-- Mapping a device. -/
def map (base len : Word) (device : Device) : Change Unit := fun m => do
  match ← m.guest.memory.space.map base len device with
  | .error e => return (.error (.map e), m)
  | .ok space =>
    let m := m.mapMemory fun ⟨lookaside, _, policy⟩ => ⟨lookaside, space, policy⟩
    return (.ok (), m.flushLookaside)

/-! ### Snapshots -/

/-- The snapshot of a machine. -/
def snapshot (m : Machine) : Snapshot where
  regs := m.guest.hart.regs
  base := m.base
  memory := m.ram

/-- Restoring a snapshot with the same first address of RAM.  RAM behind it is cleared; compiled
code, what was kept of the policy's answers, and the reservation are gone. -/
def restore (s : Snapshot) : Change Unit := fun m =>
  if s.base ≠ m.base then .ok (.error (.snapshotBase m.base s.base), m)
  else if m.ram.size < s.memory.size then
    .ok (.error (.snapshot (.sizeMismatch s.memory.size m.ram.size)), m)
  else
    let size := m.ram.size
    let m := m.mapMemory fun ⟨lookaside, space, policy⟩ =>
      ⟨lookaside, { space with ram := Bytes.extend s.memory size }, policy⟩
    let hart := { m.guest.hart with
      regs := { s.regs with x := s.regs.x.set 0 0 (Nat.zero_lt_succ _) }
      reservation := noReservation }
    .ok (.ok (), flush { m with guest := { m.guest with hart } })

/-! ### Statistics -/

/-- The counters of a machine. -/
def stats (m : Machine) : Stats where
  retired := m.guest.hart.instret.toNat
  failures := m.failures
  entries := m.entries
  interpreted := m.interpreted
  hits := m.guest.memory.lookaside.hits
  misses := m.guest.memory.lookaside.misses
  compiled := (m.cache.map (·.compiled)).getD 0
  evictions := (m.cache.map (·.evicted)).getD 0
  flushes := (m.cache.map (·.flushes)).getD 0
  links := (m.cache.map (·.table.links)).getD 0
  unlinks := (m.cache.map (·.table.unlinks)).getD 0

end Machine

end CrossHart
