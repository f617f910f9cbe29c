import CrossHart.Host.Lower

/-!
# Compiled blocks and their links

A compiled block knows its guest addresses, its code in the buffer, and its exits.  An exit is
linked to another block when its jump leads straight to that block's code; until then it waits
for a block at its address.  The table keeps the blocks by number, and the exits that wait.
-/

namespace CrossHart.Cache

open Host

/-- An exit of a compiled block: the number of the block and that of the exit. -/
structure ExitRef where
  block : Nat
  exit : Nat
  deriving DecidableEq, Repr

/-- An exit, and the block it is linked to. -/
structure Exit where
  site : Site
  linked : Option Nat := none
  deriving DecidableEq, Repr

/-- A compiled block. -/
structure Compiled where
  pc : Word
  endPc : Word
  /-- The number of its instructions. -/
  count : Nat
  /-- The offset of its code. -/
  entry : Nat
  /-- The number of bytes of its code. -/
  size : Nat
  exits : List Exit := []
  /-- The exits linked to it, the oldest first. -/
  incoming : List ExitRef := []
  deriving DecidableEq, Repr

namespace Compiled

/-- A block whose code fills `[entry, stop)` and leaves through the sites, none of them linked. -/
def ofBlock (block : Block) (entry stop : Nat) (sites : List Site) : Compiled :=
  { pc := block.pc, endPc := block.endPc, count := block.count, entry, size := stop - entry
    exits := sites.map fun site => { site } }

/-- Whether the guest bytes of a block meet `[start, start + len)`, cut at the greatest address. -/
def overlapsGuest (c : Compiled) (start len : Word) : Bool :=
  c.pc.toNat < min (start.toNat + len.toNat) (Word.count - 1) && start.ult c.endPc

/-- Whether the code of a block meets `[start, stop)`. -/
def overlapsHost (c : Compiled) (start stop : Nat) : Except Crash Bool :=
  if c.entry < stop then do return start < (← Size.sum c.entry c.size) else return false

/-- The block with one of its exits changed. -/
def setExit (c : Compiled) (i : Nat) (e : Exit) : Compiled :=
  { c with exits := c.exits.set i e }

end Compiled

/-- Compiled blocks by number, and the exits that wait for blocks. -/
structure Table where
  blocks : Array (Option Compiled) := #[]
  /-- The exits that wait, each with the address it waits for, the oldest first. -/
  pending : List (Word × ExitRef) := []
  /-- The number of links made so far. -/
  links : Nat := 0
  /-- The number of links undone so far. -/
  unlinks : Nat := 0

namespace Table

/-- The block with a number. -/
def block? (t : Table) (id : Nat) : Option Compiled :=
  t.blocks[id]?.join

/-- The table with another block at a number. -/
def setBlock (t : Table) (id : Nat) (c : Option Compiled) : Table :=
  { t with blocks := t.blocks.setIfInBounds id c }

/-- Giving up a number of the table: no block is left at it. -/
def free (t : Table) (id : Nat) : Except Crash Table :=
  if id < t.blocks.size then .ok (t.setBlock id none) else .error .outOfBounds

/-! ### Waiting exits -/

/-- Letting an exit wait for a block. -/
def await (t : Table) (target : Word) (e : ExitRef) : Table :=
  { t with pending := t.pending ++ [(target, e)] }

/-- The exits that wait for a block, which then no longer wait. -/
def takeAwaiting (t : Table) (target : Word) : List ExitRef × Table :=
  ((t.pending.filter fun p => p.1 = target).map (·.2),
    { t with pending := t.pending.filter fun p => p.1 ≠ target })

/-- Letting an exit no longer wait for a block. -/
def forget (t : Table) (target : Word) (e : ExitRef) : Table :=
  { t with pending := t.pending.filter fun p => p ≠ (target, e) }

/-- Whether an exit waits for a block. -/
def isAwaiting (t : Table) (target : Word) (e : ExitRef) : Bool :=
  t.pending.contains (target, e)

/-- No exit waits. -/
def forgetAll (t : Table) : Table :=
  { t with pending := [] }

/-! ### Links -/

/-- An exit of a block, with a breach for a block that is gone. -/
def exit (t : Table) (e : ExitRef) (gone : Breach) : Except Crash (Compiled × Exit) :=
  match t.block? e.block with
  | none => .error (.breach gone)
  | some c =>
    match c.exits[e.exit]? with
    | none => .error .outOfBounds
    | some x => .ok (c, x)

/-- Linking an exit that leads to its stub to a block. -/
def link (t : Table) (b : Buffer) (e : ExitRef) (dst : Nat) : Except Crash (Table × Buffer) := do
  match t.block? dst with
  | none => throw (.breach .linkToFree)
  | some target =>
    let (src, x) ← t.exit e .linkFromFree
    let current ← b.targetAt x.site.jump
    if x.linked.isSome ∨ current ≠ some x.site.stub then throw (.breach .patchedTwice)
    let b ← b.patchJump x.site.jump target.entry
    let t := t.setBlock e.block (src.setExit e.exit { x with linked := some dst })
    let t :=
      match t.block? dst with
      | some c => t.setBlock dst (some { c with incoming := c.incoming ++ [e] })
      | none => t
    return ({ t with links := t.links + 1 }, b)

/-- Undoing the link of an exit to the block whose code is at `entry`.  The exit waits again. -/
def unlink (t : Table) (b : Buffer) (e : ExitRef) (entry : Nat) :
    Except Crash (Table × Buffer) := do
  let (src, x) ← t.exit e .unlinkFromFree
  let current ← b.targetAt x.site.jump
  if current ≠ some entry then throw (.breach .wrongTarget)
  let b ← b.patchJump x.site.jump x.site.stub
  let t := t.setBlock e.block (src.setExit e.exit { x with linked := none })
  let t := t.await x.site.target e
  return ({ t with unlinks := t.unlinks + 1 }, b)

/-- Linking several exits to a block. -/
def linkAll (dst : Nat) : List ExitRef → Table → Buffer → Except Crash (Table × Buffer)
  | [], t, b => return (t, b)
  | e :: rest, t, b => do
    let (t, b) ← t.link b e dst
    linkAll dst rest t b

/-- Undoing several links to the block whose code is at `entry`. -/
def unlinkAll (entry : Nat) : List ExitRef → Table → Buffer → Except Crash (Table × Buffer)
  | [], t, b => return (t, b)
  | e :: rest, t, b => do
    let (t, b) ← t.unlink b e entry
    unlinkAll entry rest t b

/-- The table without the exits of a block that is gone, the `i`-th first: a linked one no longer
counts at the block it leads to, and any other no longer waits. -/
def dropExits (id : Nat) : List Exit → Nat → Table → Except Crash Table
  | [], _, t => return t
  | x :: rest, i, t =>
    match x.linked with
    | none => dropExits id rest (i + 1) (t.forget x.site.target ⟨id, i⟩)
    | some dst =>
      if dst = id then dropExits id rest (i + 1) t
      else if dst < t.blocks.size then
        match t.block? dst with
        | some c =>
          let c := { c with incoming := c.incoming.filter fun e => e ≠ ⟨id, i⟩ }
          dropExits id rest (i + 1) (t.setBlock dst (some c))
        | none => dropExits id rest (i + 1) t
      else throw .outOfBounds

end Table

end CrossHart.Cache
