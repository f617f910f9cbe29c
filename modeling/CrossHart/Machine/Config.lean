import CrossHart.Cache
import CrossHart.Text.Number

/-!
# Configuration

How a machine is built, and the variables of the environment that change the defaults.
-/

namespace CrossHart

/-- How a machine executes the guest. -/
inductive ExecMode where
  /-- Blocks are compiled; only what cannot be compiled is interpreted. -/
  | jit
  /-- Every instruction is interpreted. -/
  | interpret
  deriving DecidableEq, Repr

/-- The parameters of a machine. -/
structure Config where
  cacheSize : Nat := 0x4000000
  memorySize : Nat := 0x1000000
  /-- The first address of RAM. -/
  base : Word := 0
  /-- The greatest number of instructions of a block. -/
  blockLimit : Nat := 512
  eviction : Cache.Eviction := .fifo
  mode : ExecMode := .jit
  deriving DecidableEq, Repr

namespace Config

/-- The variables that the engine reads. -/
def variableNames : List String :=
  ["RVJIT_CODE_CACHE", "RVJIT_MEM", "RVJIT_MAX_INSNS", "RVJIT_NO_EVICT", "RVJIT_INTERP",
    "RVJIT_STATS"]

/-- A parameter that the environment may give as a size; what is no size is ignored. -/
def sizeOf (env : List (String × String)) (name : String) (default : Nat) : Nat :=
  ((env.lookup name).bind Text.size?).getD default

/-- The configuration that an environment asks for. -/
def ofEnvironment (env : List (String × String)) : Config :=
  let c : Config := {}
  { c with
    cacheSize := sizeOf env "RVJIT_CODE_CACHE" c.cacheSize
    memorySize := sizeOf env "RVJIT_MEM" c.memorySize
    blockLimit := max 1 (sizeOf env "RVJIT_MAX_INSNS" c.blockLimit)
    eviction := if (env.lookup "RVJIT_NO_EVICT").isSome then .none else c.eviction
    mode := if (env.lookup "RVJIT_INTERP").isSome then .interpret else c.mode }

end Config

end CrossHart
