import CrossHart.Text.Utf8
import CrossHart.Userland.Directory
import CrossHart.Userland.Kernel

/-!
# The command

The command line runs a program: options, the name of the program's file, and the program's
arguments.  Options are known up to the program's first argument, which is the first word behind
the name of the file that is no option; from there on all words are the program's.
-/

namespace CrossHart.Userland

/-- The name of the command. -/
def commandName : String := "rvjit-riscv64"

/-- The version of the command. -/
def commandVersion : String := "0.1.0"

/-- The explanation of the command. -/
def commandHelp : List String :=
  ["Run a RISC-V64 Linux program on the host",
    "",
    "Usage: " ++ commandName ++ " [OPTIONS] <PROGRAM> [ARGS]...",
    "",
    "Arguments:",
    "  <PROGRAM>  Static RISC-V64 ELF executable or flat binary image",
    "  [ARGS]...  Arguments passed to the guest",
    "",
    "Options:",
    "      --mem <MEM>                Guest RAM size (e.g. 64m). Overrides RVJIT_MEM",
    "      --code-cache <CODE_CACHE>  Code cache size (e.g. 16m). Overrides RVJIT_CODE_CACHE",
    "      --mem-base <MEM_BASE>      Guest address of the first RAM byte",
    "      --interp                   Interpret every instruction",
    "      --no-evict                 Fail compilation instead of evicting old blocks",
    "      --quota <QUOTA>            Stop after this many guest instructions",
    "  -h, --help                     Print help",
    "  -V, --version                  Print version"]

/-- What a command line asks for. -/
structure Options where
  program : Option String := none
  /-- The arguments, the last one first. -/
  args : List String := []
  memory : Option Nat := none
  cache : Option Nat := none
  base : Option Word := none
  interpret : Bool := false
  noEvict : Bool := false
  quota : Option Nat := none
  deriving DecidableEq, Repr

/-- The reasons for which a command line is not carried out. -/
inductive Refusal where
  /-- Only the version is asked for. -/
  | version
  /-- Only an explanation of the command is asked for. -/
  | help
  /-- The command line makes no sense. -/
  | usage
  deriving DecidableEq, Repr

namespace Options

/-- An option that is given at most once. -/
def once {α : Type} (old : Option α) (new : Option α) : Except Refusal (Option α) :=
  if old.isSome ∨ new.isNone then .error .usage else .ok new

/-- The options that take a value. -/
def takesValue (name : String) : Bool :=
  ["mem", "code-cache", "mem-base", "quota"].contains name

/-- An option with its value. -/
def setValue (o : Options) (name value : String) : Except Refusal Options :=
  match name with
  | "mem" => do return { o with memory := ← once o.memory (Text.size? value) }
  | "code-cache" => do return { o with cache := ← once o.cache (Text.size? value) }
  | "mem-base" => do return { o with base := ← once o.base (Text.address? value) }
  | "quota" => do return { o with quota := ← once o.quota (Text.unsigned? 10 value.toList) }
  | _ => .error .usage

/-- An option without a value. -/
def setFlag (o : Options) (name : String) : Except Refusal Options :=
  match name with
  | "interp" => if o.interpret then .error .usage else .ok { o with interpret := true }
  | "no-evict" => if o.noEvict then .error .usage else .ok { o with noEvict := true }
  | "version" => .error .version
  | "help" => .error .help
  | _ => .error .usage

/-- The options without a value. -/
def isFlag (name : String) : Bool :=
  ["interp", "no-evict", "version", "help"].contains name

/-- Whether a word is a single dash and letters. -/
def isShort (word : String) : Bool :=
  match word.toList with
  | '-' :: c :: _ => c ≠ '-'
  | _ => false

/-- A word as the name of an option behind two dashes, and the value behind an equals sign. -/
def long? (word : String) : Option (String × Option String) :=
  match word.toList with
  | '-' :: '-' :: c :: rest =>
    let chars := c :: rest
    let name := chars.takeWhile (· ≠ '=')
    let value := chars.dropWhile (· ≠ '=')
    some (String.ofList name,
      if value.isEmpty then none else some (String.ofList value.tail))
  | _ => none

/-- The name of the program's file. -/
def setProgram (o : Options) (word : String) : Except Refusal Options :=
  if word.isEmpty then .error .usage else .ok { o with program := some word }

/-- The rest of a command line behind the last option: the name of the file, if it was not given
before, and the program's arguments. -/
def operands (o : Options) : List String → Except Refusal Options
  | [] => .ok o
  | word :: rest =>
    match o.program with
    | none => do operands (← o.setProgram word) rest
    | some _ => operands { o with args := word :: o.args } rest

/-- Letters behind a single dash: each asks for the version or for help. -/
def shortFlags : List Char → Except Refusal Options
  | 'V' :: _ => .error .version
  | 'h' :: _ => .error .help
  | _ => .error .usage

/-- Whether a word that starts with a dash is an option of the command. -/
def isOption (word : String) : Bool :=
  match long? word with
  | some (name, _) => takesValue name || isFlag name
  | none => isShort word && word.toList.tail.all fun c => c == 'V' || c == 'h'

/-- A command line, behind the options read before. -/
def parse : List String → Options → Except Refusal Options
  | [], o => .ok o
  | "--" :: rest, o => operands o rest
  | word :: rest, o =>
    if isOption word ∨ (o.program.isNone ∧ (isShort word ∨ (long? word).isSome)) then
      match long? word with
      | none => shortFlags word.toList.tail
      | some (name, some value) =>
        if takesValue name then do parse rest (← o.setValue name value) else .error .usage
      | some (name, none) =>
        if takesValue name then
          match rest with
          | [] => .error .usage
          | value :: rest =>
            if value ≠ "-" ∧ value.startsWith "-" then .error .usage
            else do parse rest (← o.setValue name value)
        else do parse rest (← o.setFlag name)
    else
      match o.program with
      | none => do parse rest (← o.setProgram word)
      | some _ => operands o (word :: rest)

/-- The options of a command line, which has to name a program. -/
def ofArgs (args : List String) : Except Refusal Options := do
  let o ← parse args {}
  if o.program.isNone then throw .usage
  return { o with args := o.args.reverse }

/-- The configuration for the options and the environment. -/
def config (o : Options) (env : List (String × String)) : Config :=
  let c := Config.ofEnvironment env
  { c with
    memorySize := o.memory.getD c.memorySize
    cacheSize := o.cache.getD c.cacheSize
    base := o.base.getD c.base
    mode := if o.interpret then .interpret else c.mode
    eviction := if o.noEvict then .none else c.eviction }

end Options

/-- What the command leaves: an exit status, and what it wrote to the two output files. -/
structure Report where
  status : Nat
  out : ByteArray := .empty
  err : ByteArray := .empty

namespace Report

/-- The report of a run that crashed, after what the program wrote. -/
def crashed (out : ByteArray) : Report where
  status := 101
  out
  err := "panic".toUTF8

/-- The report of a command line that was not carried out. -/
def refused : Refusal → Report
  | .version => { status := 0, out := (commandName ++ " " ++ commandVersion ++ "\n").toUTF8 }
  | .help => { status := 0, out := ("\n".intercalate commandHelp ++ "\n").toUTF8 }
  | .usage => { status := 2, err := "usage error".toUTF8 }

/-- The report of a program that was not loaded. -/
def notLoaded (program : String) (e : LoadError) : Report where
  status := 1
  err :=
    (commandName ++ ": failed to load " ++ program ++ ": " ++ ": ".intercalate e.messages ++
      "\n").toUTF8

/-- The exit status and the message for the end of a run. -/
def ending (pc : Word) : RunExit → Nat × String
  | .exit status => (status.toNat % 256, "")
  | .exception e at' =>
    (1, e.cause.text ++ " at pc=" ++ Text.hex0x at'.toNat ++ " tval=" ++
      Text.hex0x e.tval.toNat ++ "\n")
  | .quotaExhausted => (2, "instruction quota exhausted at pc=" ++ Text.hex0x pc.toNat ++ "\n")

/-- The report of a run. -/
def finished (showStats : Bool) (exit : RunExit) (m : Machine) (k : Kernel) : Report :=
  let (status, text) := ending m.guest.hart.regs.pc exit
  let stats := if showStats then m.stats.text ++ "\n" else ""
  { status
    out := k.files.contents 1
    err := k.files.contents 2 ++ (stats ++ text).toUTF8 }

/-- What was written to the second output file, as text. -/
def errText (r : Report) : String :=
  Text.ofBytes r.err

end Report

/-- Running a loaded program. -/
def runProgram (m : Machine) (p : Program) (quota : Option Nat) (showStats : Bool) : Report :=
  match m.run Kernel.handle (.ofProgram p) quota with
  | .error (_, k) => .crashed (k.files.contents 1)
  | .ok (exit, m, k) => .finished showStats exit m k

/-- The command: its arguments, the environment, and the files it can read. -/
def command (args : List String) (env : List (String × String))
    (read : String → Except FileError ByteArray) : Report :=
  match Options.ofArgs args with
  | .error r => .refused r
  | .ok o =>
    let program := o.program.getD ""
    match read program with
    | .error e => .notLoaded program (.file e)
    | .ok data =>
      match (loadProgram (o.config env) data (program :: o.args) []).run with
      | .error _ => .crashed .empty
      | .ok (.error e) => .notLoaded program e
      | .ok (.ok (m, p)) => runProgram m p o.quota (env.lookup "RVJIT_STATS").isSome

end CrossHart.Userland
