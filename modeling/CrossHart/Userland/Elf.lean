import CrossHart.Bytes

/-!
# Executable files

An executable file in the ELF format starts with a header, which says where the list of program
headers is.  Only static executables of 64 bits for the guest are accepted.
-/

namespace CrossHart.Userland

/-- The reasons for which a file is not accepted. -/
inductive ElfError where
  | tooSmall
  | invalidMagic
  | unsupportedClass
  | unsupportedEndian
  | unsupportedMachine
  | unsupportedType
  | invalidPhdr
  deriving DecidableEq, Repr

/-- The text of a file error. -/
def ElfError.message : ElfError → String
  | tooSmall => "file too small"
  | invalidMagic => "invalid ELF magic"
  | unsupportedClass => "not ELF64"
  | unsupportedEndian => "not little-endian"
  | unsupportedMachine => "not RISC-V"
  | unsupportedType => "not ET_EXEC"
  | invalidPhdr => "invalid program header"

namespace Elf

/-- The bytes with which a file starts. -/
def magic : List UInt8 := [0x7f, 0x45, 0x4c, 0x46]

/-- Whether a file is in the format. -/
def hasMagic (data : ByteArray) : Bool :=
  4 ≤ data.size && Bytes.slice0 data 0 4 == magic

/-- The number of bytes of the header. -/
def headerSize : Nat := 64

/-- The least number of bytes of a program header. -/
def programHeaderSize : Nat := 56

/-- The word at a position of a file. -/
def wordAt (data : ByteArray) (start : Nat) : Word :=
  BitVec.ofNat 64 (Bytes.readNat data start 8)

/-- A program header: a part of the file, and where it goes in memory. -/
structure ProgramHeader where
  type : Nat
  flags : Nat
  offset : Word
  vaddr : Word
  fileSize : Word
  memorySize : Word
  deriving DecidableEq, Repr

/-- Whether a program header describes a part that is loaded. -/
def ProgramHeader.isLoad (p : ProgramHeader) : Bool :=
  p.type == 1

/-- Whether a program header says where the program headers themselves are in memory. -/
def ProgramHeader.isSelf (p : ProgramHeader) : Bool :=
  p.type == 6

/-- The program header at a position. -/
def programHeaderAt (data : ByteArray) (p : Nat) : ProgramHeader where
  type := Bytes.readNat data p 4
  flags := Bytes.readNat data (p + 4) 4
  offset := wordAt data (p + 8)
  vaddr := wordAt data (p + 16)
  fileSize := wordAt data (p + 32)
  memorySize := wordAt data (p + 40)

/-- The field at a distance from a position. -/
def fieldWithin (data : ByteArray) (start distance n : Nat) : Except Crash Nat := do
  Bytes.numberWithin data (← Size.sum start distance) n

/-- The program header at a position, of which only bytes that are there are read. -/
def ProgramHeader.readWithin (data : ByteArray) (start : Nat) : Except Crash ProgramHeader := do
  return {
    type := ← fieldWithin data start 0 4
    flags := ← fieldWithin data start 4 4
    offset := BitVec.ofNat 64 (← fieldWithin data start 8 8)
    vaddr := BitVec.ofNat 64 (← fieldWithin data start 16 8)
    fileSize := BitVec.ofNat 64 (← fieldWithin data start 32 8)
    memorySize := BitVec.ofNat 64 (← fieldWithin data start 40 8) }

/-- The header of a file. -/
structure Header where
  ident : List UInt8
  type : Nat
  machine : Nat
  entry : Word
  /-- The position of the program headers. -/
  tableOffset : Word
  /-- The size of each program header. -/
  entrySize : Nat
  /-- The number of program headers. -/
  count : Nat
  deriving DecidableEq, Repr

namespace Header

/-- The header of a file that is long enough to have one. -/
def read (data : ByteArray) : Except ElfError Header :=
  if data.size < headerSize then .error .tooSmall
  else .ok {
    ident := Bytes.slice0 data 0 16
    type := Bytes.readNat data 16 2
    machine := Bytes.readNat data 18 2
    entry := wordAt data 24
    tableOffset := wordAt data 32
    entrySize := Bytes.readNat data 54 2
    count := Bytes.readNat data 56 2 }

/-- The header of a file, of which only bytes that are there are read. -/
def readWithin (data : ByteArray) : Except Crash (Except ElfError Header) :=
  if data.size < headerSize then .ok (.error .tooSmall)
  else do
    return .ok {
      ident := ← Bytes.sliceWithin data 0 16
      type := ← Bytes.numberWithin data 16 2
      machine := ← Bytes.numberWithin data 18 2
      entry := BitVec.ofNat 64 (← Bytes.numberWithin data 24 8)
      tableOffset := BitVec.ofNat 64 (← Bytes.numberWithin data 32 8)
      entrySize := ← Bytes.numberWithin data 54 2
      count := ← Bytes.numberWithin data 56 2 }

/-- Whether the header is one of an executable for the guest. -/
def validate (h : Header) : Except ElfError Unit :=
  if h.ident.take 4 ≠ magic then .error .invalidMagic
  else if h.ident[4]? ≠ some 2 then .error .unsupportedClass
  else if h.ident[5]? ≠ some 1 then .error .unsupportedEndian
  else if h.ident[6]? ≠ some 1 then .error .invalidMagic
  else if h.machine ≠ 243 then .error .unsupportedMachine
  else if h.type ≠ 2 then .error .unsupportedType
  else .ok ()

/-- The program headers of a file. -/
def programHeaders (h : Header) (data : ByteArray) : Except ElfError (List ProgramHeader) :=
  if h.entrySize < programHeaderSize then .error .invalidPhdr
  else if data.size < h.tableOffset.toNat + h.count * h.entrySize then .error .invalidPhdr
  else .ok ((List.range h.count).map fun i =>
    programHeaderAt data (h.tableOffset.toNat + i * h.entrySize))

/-- The program headers of a file.  The end of the table is compared with the size of the file only if it
is a size. -/
def programHeadersWithin (h : Header) (data : ByteArray) :
    Except Crash (Except ElfError (List ProgramHeader)) :=
  if h.entrySize < programHeaderSize then .ok (.error .invalidPhdr)
  else if Word.count ≤ h.count * h.entrySize then .ok (.error .invalidPhdr)
  else if Word.count ≤ h.tableOffset.toNat + h.count * h.entrySize then .ok (.error .invalidPhdr)
  else if data.size < h.tableOffset.toNat + h.count * h.entrySize then .ok (.error .invalidPhdr)
  else do
    let ps ← (List.range h.count).mapM fun i => do
      let distance ← Size.exact (i * h.entrySize)
      ProgramHeader.readWithin data (← Size.sum h.tableOffset.toNat distance)
    return .ok ps

end Header

end Elf

end CrossHart.Userland
