import CrossHart.Host.Jump
import CrossHart.Host.Label

/-!
# Assembly

Before its place in the buffer is known, the code of a block is a list of items: instructions,
jumps to targets, and targets.  Assembling it at an offset takes two passes.  The first finds the
offset of each item and with them the places of the targets; the second writes the bytes.
-/

namespace CrossHart.Host

/-- The reasons for which compiled code returns to the engine. -/
inductive ExitReason where
  /-- A jump to a known address that leads to no compiled block yet. -/
  | chain
  /-- A jump to an address in a register. -/
  | indirect
  | ecall
  | ebreak
  /-- A service raised an exception. -/
  | exception
  /-- The budget is too small for a block, which was not entered. -/
  | budget
  | fenceI
  deriving DecidableEq, Repr

namespace ExitReason

/-- The number by which compiled code reports a reason. -/
def code : ExitReason → Nat
  | chain => 1 | indirect => 2 | ecall => 3 | ebreak => 4 | exception => 5 | budget => 6
  | fenceI => 7

/-- The reason with a number. -/
def ofCode? : Nat → Option ExitReason
  | 1 => some chain | 2 => some indirect | 3 => some ecall | 4 => some ebreak
  | 5 => some exception | 6 => some budget | 7 => some fenceI
  | _ => none

/-- A reason is found by its number. -/
@[simp]
theorem ofCode?_code (r : ExitReason) :
  ofCode? r.code = some r
  := by cases r <;> rfl

end ExitReason

/-- The targets of jumps within the code of a block. -/
inductive Target where
  /-- The way out if the budget is too small. -/
  | budget
  /-- The way out if the `n`-th service call fails. -/
  | fault (n : Nat)
  /-- The taken side of the branch before the `n`-th exit. -/
  | taken (n : Nat)
  /-- The way out of the `n`-th exit while it leads to no block. -/
  | stub (n : Nat)
  deriving DecidableEq, Repr

/-- An item of assembly. -/
inductive Item where
  | instr (i : Instr)
  /-- A conditional jump. -/
  | branch (c : Cond) (t : Target)
  /-- A target. -/
  | place (t : Target)
  /-- The jump of an exit, which can be redirected; at first it leads to its stub. -/
  | exit (n : Nat)
  /-- The jump back to the engine. -/
  | leave
  deriving DecidableEq, Repr

namespace Item

/-- The number of bytes of a conditional jump. -/
def branchSize : Nat := 6

/-- The number of bytes of an item at an offset. -/
def size (offset : Nat) : Item → Nat
  | instr i => i.size
  | branch _ _ => branchSize
  | place _ => 0
  | exit _ => jumpPadding offset + jumpSize
  | leave => jumpSize

end Item

/-- Where targets are. -/
abbrev Labels := List (Target × Label)

namespace Labels

/-- The label of a target. -/
def label (ls : Labels) (t : Target) : Label :=
  (ls.lookup t).getD {}

/-- The place of a target; a target without one does not occur. -/
def placeOf (ls : Labels) (t : Target) : Except Crash Nat :=
  match (ls.label t).place with
  | some n => .ok n
  | none => .error .badArgument

/-- Placing a target, once. -/
def bind (ls : Labels) (t : Target) (offset : Nat) : Except Crash Labels := do
  let (_, l) ← (ls.label t).bind offset
  return (t, l) :: ls

end Labels

namespace Item

/-- The offset behind items that start at an offset. -/
def stop (offset : Nat) (items : List Item) : Nat :=
  items.foldl (fun offset item => offset + item.size offset) offset

/-- The places of the targets among items that start at an offset. -/
def labels : Nat → List Item → Labels → Except Crash Labels
  | _, [], ls => .ok ls
  | offset, .place t :: rest, ls => do labels offset rest (← ls.bind t offset)
  | offset, item :: rest, ls => labels (offset + item.size offset) rest ls

/-- The bytes of an item at an offset, where the way back to the engine is at `leave`. -/
def encode (ls : Labels) (leave offset : Nat) : Item → Except Crash (List UInt8)
  | instr i => .ok i.encode
  | branch c t => do
    let target ← ls.placeOf t
    return Instr.encode (.jcc c (displacement (offset + branchSize) target))
  | place _ => .ok []
  | exit n => do
    let target ← ls.placeOf (.stub n)
    let stop := offset + jumpPadding offset + jumpSize
    if fitsDisplacement ((target : Int) - stop) then
      return padding (jumpPadding offset) ++ Instr.encode (.jmp (displacement stop target))
    else throw .badArgument
  | .leave => .ok (Instr.encode (.jmp (displacement (offset + jumpSize) leave)))

/-- The bytes of items that start at an offset, in pieces. -/
def encodeAll (ls : Labels) (leave : Nat) :
    Nat → List Item → List (List UInt8) → Except Crash (List (List UInt8))
  | _, [], done => .ok done.reverse
  | offset, item :: rest, done => do
    let bytes ← item.encode ls leave offset
    encodeAll ls leave (offset + item.size offset) rest (bytes :: done)

/-- The offsets of the jumps of exits among items that start at an offset, in order. -/
def exitOffsets : Nat → List Item → List Nat → List Nat
  | _, [], done => done.reverse
  | offset, .exit n :: rest, done =>
    exitOffsets (offset + (Item.exit n).size offset) rest ((offset + jumpPadding offset) :: done)
  | offset, item :: rest, done => exitOffsets (offset + item.size offset) rest done

/-- The bytes of items at an offset, and the places of their targets. -/
def assemble (leave start : Nat) (items : List Item) : Except Crash (List UInt8 × Labels) := do
  let ls ← labels start items []
  let pieces ← encodeAll ls leave start items []
  return (pieces.flatten, ls)

end Item

end CrossHart.Host
