import CrossHart.Word

/-!
# Byte strings

Numbers in guest memory, in host code and in files are little-endian.  `littleEndian n v` are the
low `n` bytes of `v`, least significant first, and `ofLittleEndian` reads a number back.
-/

namespace CrossHart.Bytes

/-- The low `n` bytes of a number, least significant first. -/
def littleEndian : Nat → Nat → List UInt8
  | 0, _ => []
  | n + 1, v => UInt8.ofNat v :: littleEndian n (v / 256)

/-- The number whose bytes are given, least significant first. -/
def ofLittleEndian : List UInt8 → Nat
  | [] => 0
  | b :: bs => b.toNat + 256 * ofLittleEndian bs

@[simp]
theorem length_littleEndian (n v : Nat) :
  (littleEndian n v).length = n
  := by
  induction n generalizing v with
  | zero => rfl
  | succ n ih => simp [littleEndian, ih]

/-- Zero bytes that are put behind a string at once. -/
def zeroChunk : ByteArray := ⟨Array.replicate 4096 0⟩

/-- The string with `n` chunks of zero bytes behind it. -/
def addChunks : Nat → ByteArray → ByteArray
  | 0, bytes => bytes
  | n + 1, bytes => addChunks n (bytes ++ zeroChunk)

/-- A string of `n` zero bytes. -/
def zeros (n : Nat) : ByteArray :=
  addChunks (n / 4096) (.emptyWithCapacity n) ++ ⟨Array.replicate (n % 4096) 0⟩

theorem data_addChunks (n : Nat) (bytes : ByteArray) :
  (addChunks n bytes).data = bytes.data ++ Array.replicate (4096 * n) 0
  := by
  induction n generalizing bytes with
  | zero => simp [addChunks]
  | succ n ih =>
    rw [addChunks, ih, ByteArray.data_append, zeroChunk, Array.append_assoc,
      Array.replicate_append_replicate, Nat.mul_succ, Nat.add_comm 4096]

/-- The bytes of `zeros` are zero. -/
@[simp]
theorem data_zeros (n : Nat) :
  (zeros n).data = Array.replicate n 0
  := by
  rw [zeros, ByteArray.data_append, data_addChunks]
  show #[] ++ _ ++ Array.replicate (n % 4096) 0 = _
  rw [Array.empty_append, Array.replicate_append_replicate, Nat.div_add_mod]

/-- The byte at a position, zero past the end. -/
def at0 (bytes : ByteArray) (i : Nat) : UInt8 :=
  if h : i < bytes.size then bytes[i] else 0

/-- The bytes in `[start, start + n)`, zero past the end. -/
def slice0 (bytes : ByteArray) (start : Nat) : Nat → List UInt8
  | 0 => []
  | n + 1 => at0 bytes start :: slice0 bytes (start + 1) n

/-- The string with one byte replaced, unchanged past the end. -/
def put (bytes : ByteArray) (i : Nat) (b : UInt8) : ByteArray :=
  if h : i < bytes.size then bytes.set i b h else bytes

/-- The string with the bytes from `start` on replaced by `new`, as far as it reaches. -/
def overwrite (bytes : ByteArray) (start : Nat) : List UInt8 → ByteArray
  | [] => bytes
  | b :: bs => overwrite (put bytes start b) (start + 1) bs

/-- The string with the bytes from `start` on replaced by those of another one, which fits in. -/
def blit (bytes : ByteArray) (start : Nat) (new : ByteArray) : ByteArray :=
  new.copySlice 0 bytes start new.size

/-- The string made at least `n` long with zero bytes. -/
def extend (bytes : ByteArray) (n : Nat) : ByteArray :=
  if bytes.size < n then bytes ++ zeros (n - bytes.size) else bytes

/-- The little-endian number of `n` bytes at a position, zero past the end. -/
def readNat (bytes : ByteArray) (start n : Nat) : Nat :=
  ofLittleEndian (slice0 bytes start n)

/-- The bytes in `[start, start + n)`, all of which have to be there. -/
def sliceWithin (bytes : ByteArray) (start n : Nat) : Except Crash (List UInt8) := do
  let stop ← Size.sum start n
  if stop ≤ bytes.size then return slice0 bytes start n else throw .outOfBounds

/-- The little-endian number of `n` bytes at a position, all of which have to be there. -/
def numberWithin (bytes : ByteArray) (start n : Nat) : Except Crash Nat := do
  return ofLittleEndian (← sliceWithin bytes start n)

/-- The string of the bytes in `[start, start + n)`, all of which have to be there. -/
def partWithin (bytes : ByteArray) (start n : Nat) : Except Crash ByteArray := do
  let stop ← Size.sum start n
  if stop ≤ bytes.size then return bytes.extract start stop else throw .outOfBounds

/-- The low `n` bytes of a word. -/
def ofWord (n : Nat) (w : Word) : List UInt8 :=
  littleEndian n w.toNat

end CrossHart.Bytes
