import CrossHart.Machine.Run
import CrossHart.Userland.Load

/-!
# System calls

The few system calls that simple programs need: writing to open files, moving the end of the heap,
and exiting.  Some others are accepted and do nothing.
-/

namespace CrossHart.Userland

/-- Bytes that a file of the host accepted. -/
structure Delivery where
  fd : BitVec 32
  data : ByteArray

/-- The open files of the host.  What they answer may depend on everything written before. -/
structure Files where
  /-- The number of bytes a file accepts of those offered, or the number of an error. -/
  accept : List Delivery → BitVec 32 → ByteArray → Except Nat Nat
  /-- What was accepted so far, the newest first. -/
  delivered : List Delivery := []

namespace Files

/-- The number of the error for a file that is not open for writing. -/
def badFile : Nat := 9

/-- Offering bytes to a file.  Also the number of bytes accepted, or the negated number of an
error. -/
def write (f : Files) (fd : BitVec 32) (data : ByteArray) : Int × Files :=
  match f.accept f.delivered fd data with
  | .error e => (-(e : Int), f)
  | .ok n =>
    let n := min n data.size
    (n, { f with delivered := ⟨fd, data.extract 0 n⟩ :: f.delivered })

/-- Files 1 and 2 accept everything, and no other file is open for writing. -/
def standard : Files where
  accept _ fd data := if fd = 1 ∨ fd = 2 then .ok data.size else .error badFile

/-- Everything that a file accepted, in order. -/
def contents (f : Files) (fd : BitVec 32) : ByteArray :=
  f.delivered.reverse.foldl
    (fun all d => if d.fd = fd then all ++ d.data else all) .empty

end Files

/-- The state of the kernel: the limits of the heap, and the files. -/
structure Kernel where
  /-- The start of the heap. -/
  start : Word
  /-- The end of the heap. -/
  brk : Word
  /-- The address up to which the heap can grow. -/
  limit : Word
  files : Files := .standard

namespace Kernel

/-- The kernel of a program. -/
def ofProgram (p : Program) : Kernel where
  start := p.brk
  brk := p.brk
  limit := p.stackBase

/-- The number of the error for an address that cannot be used. -/
def badAddress : Int := 14

/-- The number of the error for an argument that makes no sense. -/
def badArgument : Int := 22

/-- The number of the error for a call that does not exist. -/
def badCall : Int := 38

/-- The greatest number of bytes written at once. -/
def maxWrite : Nat := 0x100000

/-- The greatest number of buffers written at once. -/
def maxBuffers : Nat := 1024

/-- The kernel's part of a system call: a result, and the states after it. -/
abbrev Service := Except Crash (Int × Kernel × Memory)

/-- Writing bytes of guest memory to a file. -/
def write (k : Kernel) (fd addr len : Word) (memory : Memory) : Service := do
  let n := min len.toNat maxWrite
  let (data, memory) ← (Memory.loadBytes addr n (.emptyWithCapacity n)).on memory
  match data with
  | .error _ => return (-badAddress, k, memory)
  | .ok data =>
    let (result, files) := k.files.write (fd.setWidth 32) data
    return (result, { k with files }, memory)

/-- Writing buffers of guest memory to a file, one after the other, on top of what was written
before.  Each is given by its address and length.  An error after the first byte that was written
ends the call, but not as an error, unless a buffer's address or length cannot be read. -/
def writeBuffers (fd : Word) : (n : Nat) → (list : Word) → (i : Nat) → (total : Int) → Kernel →
    Memory → Service
  | 0, _, _, total, k, memory => return (total, k, memory)
  | n + 1, list, i, total, k, memory => do
    let entry ← Word.sum list (BitVec.ofNat 64 (16 * i))
    let (base, memory) ← (Memory.load entry 8).on memory
    match base with
    | .error _ => return (-badAddress, k, memory)
    | .ok base =>
      let entry ← Word.sum entry 8
      let (len, memory) ← (Memory.load entry 8).on memory
      match len with
      | .error _ => return (-badAddress, k, memory)
      | .ok len =>
        let (written, k, memory) ← k.write fd base len memory
        if written < 0 then return (if 0 < total then total else written, k, memory)
        else writeBuffers fd n list (i + 1) (total + written) k memory

/-- Writing a list of buffers to a file. -/
def writev (k : Kernel) (fd list count : Word) (memory : Memory) : Service :=
  if maxBuffers < count.toNat then return (-badArgument, k, memory)
  else writeBuffers fd count.toNat list 0 0 k memory

/-- Moving the end of the heap to an address, if that is possible.  Gives the end of the heap. -/
def moveBrk (k : Kernel) (addr : Word) (memory : Memory) : Service := do
  if k.start.ule addr then
    let stop ← Memory.pageUp addr
    let k := if stop.ule k.limit then { k with brk := addr } else k
    return (k.brk.toInt, k, memory)
  else return (k.brk.toInt, k, memory)

/-- The system calls. -/
def handle : Handler Kernel := fun call k memory =>
  let a := call.args[0]
  let b := call.args[1]
  let c := call.args[2]
  let ret (s : Service) : Except Crash (CallOutcome × Kernel × Memory) := do
    let (result, k, memory) ← s
    return (.ret (BitVec.ofInt 64 result), k, memory)
  match call.number.toNat with
  | 64 => ret (k.write a b c memory)
  | 66 => ret (k.writev a b c memory)
  | 93 | 94 => .ok (.exit (a.setWidth 32), k, memory)
  | 214 => ret (k.moveBrk a memory)
  | 57 | 99 | 134 | 135 => ret (.ok (0, k, memory))
  | 96 | 172 | 178 => ret (.ok (1, k, memory))
  | _ => ret (.ok (-badCall, k, memory))

end Kernel

end CrossHart.Userland
