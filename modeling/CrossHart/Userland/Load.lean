import CrossHart.Machine.State
import CrossHart.Userland.Elf
import CrossHart.Userland.Segments

/-!
# Loading programs

A program is either an executable file, whose segments go where they ask to be, or any other file,
which is copied to the start of RAM and entered at its first byte.  The stack is at the end of
RAM, with the arguments, the environment and a few facts about the program on it.
-/

namespace CrossHart.Userland

open Memory (pageUp pageMask)

/-- The reasons for which a file cannot be read. -/
inductive FileError where
  | missing
  | notDirectory
  | isDirectory
  | nameTooLong
  deriving DecidableEq, Repr

/-- The text of the reason for which a file cannot be read. -/
def FileError.message : FileError → String
  | missing => "No such file or directory (os error 2)"
  | notDirectory => "Not a directory (os error 20)"
  | isDirectory => "Is a directory (os error 21)"
  | nameTooLong => "File name too long (os error 36)"

/-- The reasons for which a program is not loaded. -/
inductive LoadError where
  | file (e : FileError)
  | elf (e : ElfError)
  | machine (e : MachineError)
  | noLoadSegment
  | segmentOutOfRange (vaddr : Word) (size : Nat)
  deriving DecidableEq, Repr

namespace LoadError

/-- The text of a loading error. -/
def message : LoadError → String
  | file e => "I/O: " ++ e.message
  | elf e => "ELF: " ++ e.message
  | machine e => e.message
  | noLoadSegment => "no PT_LOAD segment"
  | segmentOutOfRange vaddr size =>
    "segment " ++ Text.hex0x vaddr.toNat ++ "+" ++ Text.hex0x size ++ " outside guest RAM"

/-- The texts of a loading error and of what caused it. -/
def messages (e : LoadError) : List String :=
  e.message ::
    match e with
    | file e => [e.message]
    | elf e => [e.message]
    | machine .cacheSetup => [MachineError.noRoom]
    | _ => []

end LoadError

/-- Where a program is. -/
structure Program where
  entry : Word
  /-- The stack pointer at the start. -/
  sp : Word := 0
  /-- The first page after the program, where its heap starts. -/
  brk : Word
  /-- The lowest address of the stack, up to which the heap can grow. -/
  stackBase : Word
  /-- The address of the program headers. -/
  headers : Word := 0
  /-- Their number. -/
  headerCount : Nat := 0
  deriving DecidableEq, Repr

/-- The room for the stack at the end of RAM. -/
def stackSize : Nat := 256 * 1024

/-- Loading, which ends early with a loading error. -/
abbrev Loading := ExceptT LoadError (Except Crash)

namespace Loading

/-- A computation that can only crash. -/
def lift {α : Type} (x : Except Crash α) : Loading α :=
  ExceptT.lift x

/-- A computation that can fail with an error of the file. -/
def ofElf {α : Type} (x : Except ElfError α) : Loading α :=
  match x with
  | .ok a => pure a
  | .error e => throw (.elf e)

/-- A new machine. -/
def create (config : Config) (policy : Memory.Policy) (services : Host.Services)
    (platform : Host.Platform) : Loading Machine := do
  match ← lift (Machine.create config policy services platform) with
  | .ok m => return m
  | .error e => throw (.machine e)

/-- Copying bytes into the RAM of a machine. -/
def copy (m : Machine) (addr : Word) (data : ByteArray) : Loading Machine := do
  match ← lift (Machine.load addr data m) with
  | (.ok (), m) => return m
  | (.error e, _) => throw (.machine e)

end Loading

open Loading

/-! ### Executable files -/

/-- The address of the program headers: where one of them says, or else behind the start of the
first part that is loaded. -/
def headersAddress (h : Elf.Header) (ps : List Elf.ProgramHeader) : Except Crash Word :=
  let said := (ps.filter (·.isSelf)).getLast?.map (·.vaddr)
  match said.filter (· ≠ 0), ps.find? (·.isLoad) with
  | some addr, _ => return addr
  | none, some p => Word.sum (p.vaddr &&& ~~~pageMask) h.tableOffset
  | none, none => return 0

/-- The segments of the parts that are loaded, and the first page after them. -/
def checkParts (base stackBase : Word) (size : Nat) :
    List Elf.ProgramHeader → Segments → Word → Loading (Segments × Word)
  | [], segments, brk => return (segments, brk)
  | p :: rest, segments, brk => do
    if p.vaddr.ult base ∨ stackBase.toNat < p.vaddr.toNat + p.memorySize.toNat then
      throw (.segmentOutOfRange p.vaddr p.memorySize.toNat)
    if p.memorySize.ult p.fileSize ∨ size < p.offset.toNat + p.fileSize.toNat then
      throw (.elf .invalidPhdr)
    let segments ← lift (segments.add p.vaddr p.memorySize (BitVec.ofNat 32 p.flags))
    let stop ← lift (pageUp (p.vaddr + p.memorySize))
    checkParts base stackBase size rest segments (if brk.ult stop then stop else brk)

/-- Copying the parts that are loaded. -/
def copyParts (data : ByteArray) : List Elf.ProgramHeader → Machine → Loading Machine
  | [], m => return m
  | p :: rest, m => do
    let part ← lift (Bytes.partWithin data p.offset.toNat p.fileSize.toNat)
    let m ← copy m p.vaddr part
    copyParts data rest m

/-- Loading an executable file. -/
def loadElf (config : Config) (data : ByteArray) (stackBase : Word) (services : Host.Services)
    (platform : Host.Platform) : Loading (Machine × Program) := do
  let h ← ofElf (← lift (Elf.Header.readWithin data))
  ofElf h.validate
  let ps ← ofElf (← lift (h.programHeadersWithin data))
  let headers ← lift (headersAddress h ps)
  let parts := ps.filter (·.isLoad)
  if parts.isEmpty then throw .noLoadSegment
  let (segments, brk) ← checkParts config.base stackBase data.size parts {} 0
  let m ← create config segments.policy services platform
  let m ← copyParts data parts m
  return (m, { entry := h.entry, brk, stackBase, headers, headerCount := h.count })

/-- Loading any other file. -/
def loadFlat (config : Config) (data : ByteArray) (stackBase : Word) (services : Host.Services)
    (platform : Host.Platform) : Loading (Machine × Program) := do
  let stop ← lift (Word.sum config.base (BitVec.ofNat 64 data.size))
  if stackBase.ult stop then throw (.segmentOutOfRange config.base data.size)
  let m ← create config (Segments.policy { flat := true }) services platform
  let m ← copy m config.base data
  let brk ← lift (pageUp stop)
  return (m, { entry := config.base, brk, stackBase })

/-! ### The stack -/

/-- Sixteen bytes for programs that want random ones. -/
def randomBytes : List UInt8 :=
  [0xde, 0xad, 0xbe, 0xef, 0xca, 0xfe, 0xba, 0xbe, 0x01, 0x23, 0x45, 0x67, 0x89, 0xab, 0xcd, 0xef]

/-- Strings on the stack, each with a zero byte behind it, downwards from an address: the address
of the last one, the addresses so far, and the machine. -/
def pushStrings : List String → Word → List Word → Machine → Loading (Word × List Word × Machine)
  | [], pos, addrs, m => return (pos, addrs, m)
  | s :: rest, pos, addrs, m => do
    let bytes := s.toUTF8
    let pos ← lift (Word.diff pos (BitVec.ofNat 64 (bytes.size + 1)))
    let m ← copy m pos bytes
    let m ← copy m (pos + BitVec.ofNat 64 bytes.size) ⟨#[0]⟩
    pushStrings rest pos (pos :: addrs) m

/-- Words in memory from an address on. -/
def putWords : List Word → Word → Machine → Loading Machine
  | [], _, m => return m
  | w :: rest, addr, m => do
    let m ← copy m addr ⟨(Bytes.ofWord 8 w).toArray⟩
    putWords rest (addr + 8) m

/-- The facts about the program on its stack, in pairs of a number and a value. -/
def facts (p : Program) (random : Word) : List (Word × Word) :=
  [(3, p.headers), (4, 56), (5, BitVec.ofNat 64 p.headerCount), (6, 4096), (9, p.entry),
    (25, random), (0, 0)]

/-- The stack at the start: from the stack pointer upwards the number of arguments, their
addresses, the addresses of the environment, and the facts.  Above them are the strings. -/
def buildStack (top : Word) (p : Program) (argv envp : List String) (m : Machine) :
    Loading (Word × Machine) := do
  let random ← lift (Word.diff top 16)
  let m ← copy m random ⟨randomBytes.toArray⟩
  let (pos, envAddrs, m) ← pushStrings envp.reverse random [] m
  let (pos, argAddrs, m) ← pushStrings argv.reverse pos [] m
  let words :=
    [BitVec.ofNat 64 argv.length] ++ argAddrs ++ [0] ++ envAddrs ++ [0] ++
      (facts p random).flatMap fun (k, v) => [k, v]
  let room ← lift (Word.diff (pos &&& ~~~15) (BitVec.ofNat 64 (8 * words.length)))
  let sp := room &&& ~~~15
  let m ← putWords words sp m
  return (sp, m)

/-! ### Programs -/

/-- Loading a program into a new machine. -/
def loadProgram (config : Config) (data : ByteArray) (argv envp : List String)
    (services : Host.Services := .standard) (platform : Host.Platform := .standard) :
    Loading (Machine × Program) := do
  let size ← lift (pageUp (BitVec.ofNat 64 config.memorySize))
  let top ← lift (Word.sum config.base size)
  let stackBase :=
    BitVec.ofNat 64 (max (top.toNat - stackSize) config.base.toNat)
  let (m, p) ←
    if Elf.hasMagic data then loadElf config data stackBase services platform
    else loadFlat config data stackBase services platform
  let (sp, m) ← buildStack top p argv envp m
  let regs ← lift (Registers.set { m.guest.hart.regs with pc := p.entry } stackPointer sp)
  return (m.mapRegs fun _ => regs, { p with sp })

end CrossHart.Userland
