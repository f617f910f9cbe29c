import CrossHart.Memory.Lookaside

/-!
# Guest memory

Every load, store and fetch of the guest goes through the lookaside table.  An access may be
misaligned; one that leaves its page is carried out byte by byte, with each byte checked.
-/

namespace CrossHart

/-- Guest memory: the address space, its policy, and what is kept of the policy's answers. -/
structure Memory where
  lookaside : Memory.Lookaside := {}
  space : Memory.Space
  policy : Memory.Policy

namespace Memory

/-- The backing of an address for an access. -/
def locate (addr : Word) (access : Access) : Action Memory Fault Backing :=
  .of fun ⟨lookaside, space, policy⟩ =>
    match lookaside.locate space policy addr access with
    | .error crash => .error crash
    | .ok (result, lookaside, policy) => .ok (result, ⟨lookaside, space, policy⟩)

/-- Reading from a backing. -/
def readAt (b : Backing) (size : Nat) : Action Memory Fault Word :=
  .of fun ⟨lookaside, space, policy⟩ =>
    match space.read b size with
    | .error crash => .error crash
    | .ok (value, space) => .ok (.ok value, ⟨lookaside, space, policy⟩)

/-- Writing to a backing. -/
def writeAt (b : Backing) (size : Nat) (value : Word) : Action Memory Fault Unit :=
  .of fun ⟨lookaside, space, policy⟩ =>
    match space.write b size value with
    | .error crash => .error crash
    | .ok space => .ok (.ok (), ⟨lookaside, space, policy⟩)

/-- The bits of a word before which its `i`-th byte starts. -/
def byteShift (i : Nat) : Except Crash Nat :=
  if i < 8 then .ok (8 * i) else .error .overflow

/-- Reading bytes `i` to `i + n` of an access, on top of those read before. -/
def readEach (addr : Word) (access : Access) : (n i : Nat) → Word → Action Memory Fault Word
  | 0, _, value => pure value
  | n + 1, i, value => do
    let b ← locate (addr + BitVec.ofNat 64 i) access
    let byte ← readAt b 1
    let shift ← Action.lift (byteShift i)
    readEach addr access n (i + 1) (value ||| byte <<< shift)

/-- Writing bytes `i` to `i + n` of a value. -/
def writeEach (addr : Word) (value : Word) : (n i : Nat) → Action Memory Fault Unit
  | 0, _ => pure ()
  | n + 1, i => do
    let b ← locate (addr + BitVec.ofNat 64 i) .write
    let shift ← Action.lift (byteShift i)
    writeAt b 1 (value >>> shift)
    writeEach addr value n (i + 1)

/-- Reading `size` bytes for an access. -/
def read (addr : Word) (size : Nat) (access : Access) : Action Memory Fault Word :=
  if straddles addr size then readEach addr access size 0 0
  else do
    let b ← locate addr access
    readAt b size

/-- Loading `size` bytes. -/
def load (addr : Word) (size : Nat) : Action Memory Fault Word :=
  read addr size .read

/-- Storing the low `size` bytes of a value.  A store that leaves its page checks both pages
before it writes a byte. -/
def store (addr : Word) (size : Nat) (value : Word) : Action Memory Fault Unit :=
  if straddles addr size then do
    discard <| locate addr .write
    discard <| locate (addr + BitVec.ofNat 64 (size - 1)) .write
    writeEach addr value size 0
  else do
    let b ← locate addr .write
    writeAt b size value

/-- Fetching a half-word for execution. -/
def fetch (pc : Word) : Action Memory Fault (BitVec 16) := do
  let value ← read pc 2 .execute
  return value.setWidth 16

/-! ### Byte strings in guest memory -/

/-- Loading `n` bytes, one after the other, behind those loaded before. -/
def loadBytes (addr : Word) : Nat → ByteArray → Action Memory Fault ByteArray
  | 0, bytes => pure bytes
  | n + 1, bytes => do
    let b ← load addr 1
    loadBytes (addr + 1) n (bytes.push (UInt8.ofNat b.toNat))

/-- Loading `n` bytes into a new buffer, which cannot take half of the host's addresses. -/
def loadBuffer (addr : Word) (n : Nat) : Action Memory Fault ByteArray :=
  if n < 0x8000000000000000 then loadBytes addr n .empty else .lift (.error .overflow)

/-- Storing bytes, one after the other. -/
def storeBytes (addr : Word) : List UInt8 → Action Memory Fault Unit
  | [] => pure ()
  | b :: rest => do
    store addr 1 (BitVec.ofNat 64 b.toNat)
    storeBytes (addr + 1) rest

/-- Loading bytes up to a zero byte, but at most `n`, behind those loaded before. -/
def loadString (addr : Word) : Nat → ByteArray → Action Memory Fault ByteArray
  | 0, bytes => pure bytes
  | n + 1, bytes => do
    let b ← load addr 1
    if b.setWidth 8 = 0#8 then return bytes
    else loadString (addr + 1) n (bytes.push (UInt8.ofNat b.toNat))

end Memory

end CrossHart
