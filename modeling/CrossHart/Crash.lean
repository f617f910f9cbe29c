/-!
# Crashes

The engine computes with sizes and addresses that must stay below `2 ^ 64`, looks things up in
tables of fixed size, and checks its own bookkeeping as it goes.  A `Crash` is what happens when
one of these checks fails.  It is different from a guest exception: an exception is an answer the
guest can see, a crash ends the engine.  Code that can crash lives in `Except Crash`.
-/

namespace CrossHart

/-- A rule of the code cache that one of its operations found broken. -/
inductive Breach where
  /-- A write window was opened while another one is open. -/
  | windowOpen
  /-- The buffer was read for execution while a write window is open. -/
  | stillWritable
  /-- A reservation does not fit into the buffer. -/
  | reservation
  /-- Code was written past its reservation. -/
  | bufferOverflow
  /-- A guest register was bound to a host register that is not for guest registers. -/
  | reservedRegister
  /-- No host register is free to hold another guest register. -/
  | allPinned
  /-- A link leads to a block that is gone. -/
  | linkToFree
  /-- A link starts in a block that is gone. -/
  | linkFromFree
  /-- An exit that is linked, or does not jump to its stub, was linked. -/
  | patchedTwice
  /-- A link was undone in a block that is gone. -/
  | unlinkFromFree
  /-- An exit to be unlinked does not jump to the block it is linked to. -/
  | wrongTarget
  /-- A block that is gone was evicted. -/
  | evictFree
  /-- A second block was installed for one address. -/
  | compiledTwice
  /-- A block that is gone was entered. -/
  | enterFree
  /-- Compiled code was entered without a code cache. -/
  | noCache
  /-- Compiled code ended with a reason that does not exist. -/
  | unknownExit
  /-- A helper reported an exception cause that does not exist. -/
  | unknownCause
  /-- A helper was asked for a load that does not exist. -/
  | badLoad
  /-- A helper was asked for an arithmetic operation that does not exist. -/
  | badAlu
  /-- A helper was asked to step an instruction that ends a block. -/
  | endsBlock
  deriving DecidableEq, Repr

/-- The text of a breach, as it is reported. -/
def Breach.text : Breach → String
  | windowOpen => "begin_write while a write window is open"
  | stillWritable => "exec view requested while writable"
  | reservation => "reservation exceeds code buffer capacity"
  | bufferOverflow => "code buffer overflow"
  | reservedRegister => "guest register bound to a reserved host register"
  | allPinned => "all host registers pinned"
  | linkToFree => "link to a free block slot"
  | linkFromFree => "link from a free block slot"
  | patchedTwice => "exit site patched twice"
  | unlinkFromFree => "unlink from a free block slot"
  | wrongTarget => "linked site does not target its block"
  | evictFree => "evicting a free block slot"
  | compiledTwice => "block compiled twice"
  | enterFree => "entering a free block slot"
  | noCache => "native entry without a code cache"
  | unknownExit => "unknown exit reason from native code"
  | unknownCause => "helper reported an unknown cause"
  | badLoad => "bad load op code"
  | badAlu => "bad alu op code"
  | endsBlock => "block-ending instruction routed to helper"

/-- The message of a breach. -/
def Breach.message (b : Breach) : String :=
  "code cache invariant violated: " ++ b.text

/-- The ways in which the engine gives up. -/
inductive Crash where
  /-- A sum, difference or product does not fit its type. -/
  | overflow
  /-- A table or byte string has no such position. -/
  | outOfBounds
  /-- A condition that callers promise does not hold. -/
  | badArgument
  /-- The host processor met something it cannot carry out. -/
  | hostFault
  /-- A rule of the code cache is broken. -/
  | breach (b : Breach)
  deriving DecidableEq, Repr

/-- A computation on a state `σ` that can end early with a guest-visible failure `ε`, keeping the
state it reached, or crash. -/
abbrev Action (σ ε : Type) : Type → Type :=
  ExceptT ε (StateT σ (Except Crash))

namespace Action

variable {σ ε α : Type}

/-- What an action does to a state. -/
def on (a : Action σ ε α) (s : σ) : Except Crash (Except ε α × σ) :=
  StateT.run (ExceptT.run a) s

/-- The action that does what `f` says to a state. -/
def of (f : σ → Except Crash (Except ε α × σ)) : Action σ ε α :=
  ExceptT.mk f

@[simp]
theorem on_of (f : σ → Except Crash (Except ε α × σ)) (s : σ) :
  (of f).on s = f s
  := rfl

@[simp]
theorem on_pure (a : α) (s : σ) :
  (pure a : Action σ ε α).on s = .ok (.ok a, s)
  := rfl

/-- An action followed by another one does what the second does to the state that the first
reached, or fails as the first did. -/
theorem on_bind {β : Type} (a : Action σ ε α) (f : α → Action σ ε β) (s : σ) :
  (a >>= f).on s =
    match a.on s with
    | .ok (.ok x, t) => (f x).on t
    | .ok (.error e, t) => .ok (.error e, t)
    | .error crash => .error crash
  := by
  simp only [on, ExceptT.run, StateT.run, bind, ExceptT.bind, ExceptT.mk, StateT.bind, Except.bind]
  cases a s with
  | error crash => rfl
  | ok result =>
    obtain ⟨x, t⟩ := result
    cases x <;> rfl

/-- A computation that can only crash, as an action. -/
def lift (x : Except Crash α) : Action σ ε α :=
  of fun s => x.map fun a => (.ok a, s)

/-- A change of the state that can only crash, as an action. -/
def change (f : σ → Except Crash σ) : Action σ ε Unit :=
  of fun s => (f s).map fun t => (.ok (), t)

/-- A look at the state that can only crash, as an action. -/
def look (f : σ → Except Crash α) : Action σ ε α :=
  of fun s => (f s).map fun a => (.ok a, s)

end Action

end CrossHart
