import CrossHart.Cache.JumpCache
import CrossHart.Cache.Table
import CrossHart.Host.Processor

/-!
# The code cache

The code cache owns the buffer and the compiled blocks in it.  Blocks are placed one after the
other.  At the end of the buffer the cache starts over at the front, and the oldest blocks in the
way are evicted; a cache that does not evict is full then.
-/

namespace CrossHart.Cache

open Host

/-- What a full cache does. -/
inductive Eviction where
  /-- The oldest blocks in the way are evicted. -/
  | fifo
  /-- Nothing is compiled any more. -/
  | none
  deriving DecidableEq, Repr

/-- The alignment of compiled blocks. -/
def alignment : Nat := 16

end Cache

open Cache Host in
/-- A code cache. -/
structure CodeCache where
  buffer : Buffer
  frame : Frame
  services : Services
  platform : Platform
  eviction : Eviction
  /-- The offset of the next block. -/
  head : Nat
  table : Table := {}
  /-- The numbers of blocks that are gone, the last one first. -/
  free : List Nat := []
  /-- The number of the block at each address. -/
  index : List (Word × Nat) := []
  jumpCache : JumpCache := {}
  /-- The blocks in the order in which they were placed. -/
  queue : List Nat := []
  /-- The number of blocks compiled so far. -/
  compiled : Nat := 0
  /-- The number of blocks evicted so far. -/
  evicted : Nat := 0
  /-- The number of times the cache was emptied. -/
  flushes : Nat := 0

namespace CodeCache

open Cache Host

/-- An empty cache, if the host has room for its buffer. -/
def create (size : Nat) (eviction : Eviction) (services : Services)
    (platform : Platform := .standard) : Except Crash (Option CodeCache) := do
  match ← Buffer.create size platform with
  | none => return none
  | some b =>
    let (frame, b) ← Frame.emit (← b.beginWrite)
    return some { buffer := b.endWrite, frame, services, platform, eviction, head := frame.start }

/-- The block with a number. -/
def block? (c : CodeCache) (id : Nat) : Option Compiled :=
  c.table.block? id

/-- The blocks, the oldest first. -/
def blocks (c : CodeCache) : List (Nat × Compiled) :=
  c.queue.filterMap fun id => (c.block? id).map (id, ·)

/-- The number of the block at an address. -/
def lookup (c : CodeCache) (pc : Word) : Option Nat × CodeCache :=
  match c.jumpCache.lookup pc with
  | some id => (some id, c)
  | none =>
    match c.index.lookup pc with
    | some id => (some id, { c with jumpCache := c.jumpCache.insert pc id })
    | none => (none, c)

/-- The offset to which an exit leads now. -/
def exitTarget (c : CodeCache) (e : ExitRef) : Except Crash (Option Nat) :=
  match (c.block? e.block).bind (·.exits[e.exit]?) with
  | none => return none
  | some x => do (← c.buffer.executable).targetAt x.site.jump

/-! ### Eviction -/

/-- Removing a block, within a window of writing: exits linked to it wait again, its own exits no
longer count, and it is not found any more. -/
def evict (c : CodeCache) (id : Nat) : Except Crash CodeCache :=
  match c.block? id with
  | none => .error (.breach .evictFree)
  | some gone => do
    let table := c.table.setBlock id none
    let (table, buffer) ← Table.unlinkAll gone.entry
      (gone.incoming.filter fun e => e.block ≠ id) table c.buffer
    let table ← Table.dropExits id gone.exits 0 table
    return { c with
      buffer, table
      index :=
        if c.index.lookup gone.pc = some id then c.index.filter fun p => p.1 ≠ gone.pc
        else c.index
      jumpCache := c.jumpCache.remove gone.pc
      queue := c.queue.filter fun i => i ≠ id
      free := id :: c.free }

/-- Evicting the oldest blocks for as long as they are in the way. -/
def evictOldest (inTheWay : Compiled → Except Crash Bool) :
    List Nat → CodeCache → Except Crash CodeCache
  | [], c => return c
  | oldest :: rest, c =>
    match c.block? oldest with
    | none => return c
    | some b => do
      if ← inTheWay b then
        let c ← evict { c with queue := rest } oldest
        evictOldest inTheWay rest { c with evicted := c.evicted + 1 }
      else return c

/-- Evicting all given blocks. -/
def evictAll : List Nat → CodeCache → Except Crash CodeCache
  | [], c => return c
  | id :: rest, c => do evictAll rest (← c.evict id)

/-- Whether no block has code in `[start, stop)`. -/
def isClear (c : CodeCache) (start stop : Nat) : Except Crash Bool :=
  c.table.blocks.toList.reduceOption.foldlM
    (fun clear b => do
      if clear then return !(← b.overlapsHost start stop) else return false)
    true

/-! ### Installation -/

/-- Giving a block a number, one of a block that is gone if there is any. -/
def number (c : CodeCache) (b : Compiled) : Nat × CodeCache :=
  match c.free with
  | id :: free => (id, { c with free, table := c.table.setBlock id (some b) })
  | [] =>
    (c.table.blocks.size,
      { c with table := { c.table with blocks := c.table.blocks.push (some b) } })

/-- Linking the exits of a new block to the blocks at their addresses, the `i`-th first; the others
wait. -/
def linkExits (id : Nat) : List Site → Nat → CodeCache → Except Crash CodeCache
  | [], _, c => return c
  | s :: rest, i, c =>
    match c.index.lookup s.target with
    | some dst => do
      let (table, buffer) ← c.table.link c.buffer ⟨id, i⟩ dst
      linkExits id rest (i + 1) { c with table, buffer }
    | none => linkExits id rest (i + 1) { c with table := c.table.await s.target ⟨id, i⟩ }

/-- Placing a block at an offset, within a window of writing, where there is room for `need`
bytes. -/
def place (c : CodeCache) (block : Block) (start need : Nat) : Except Crash (Nat × CodeCache) := do
  let b ← c.buffer.seek start
  let b ← b.reserve need
  let (sites, b) ← emitBlock c.frame c.services block b
  let buffer := b.release
  let stop := buffer.offset
  let (id, c) := number { c with buffer } (.ofBlock block start stop sites)
  let c := { c with index := (block.pc, id) :: c.index }
  let c ← linkExits id sites 0 c
  let (waiting, table) := c.table.takeAwaiting block.pc
  let (table, buffer) ← Table.linkAll id waiting table c.buffer
  return (id, { c with
    table
    buffer := buffer.endWrite
    head := Size.roundUp stop alignment
    jumpCache := c.jumpCache.insert block.pc id
    queue := c.queue ++ [id]
    compiled := c.compiled + 1 })

/-- Compiling a block into the cache.  Also its number. -/
def install (c : CodeCache) (block : Block) :
    Except Crash (Except CompileError Nat × CodeCache) := do
  let need := codeBound block
  let capacity := c.buffer.capacity
  let wraps : Bool := capacity < c.head + need
  if capacity - c.frame.start < need ∨ (wraps ∧ c.eviction = .none) then
    return (.error (.outOfCapacity need), c)
  if (c.index.lookup block.pc).isSome then throw (.breach .compiledTwice)
  let buffer ← c.buffer.beginWrite
  let head := c.head
  let start := if wraps then c.frame.start else head
  let c ← evictOldest
    (fun b => do
      if wraps ∧ head ≤ b.entry then return true
      else b.overlapsHost start (start + need))
    c.queue { c with buffer }
  if !(← c.isClear start (start + need)) then throw .badArgument
  let (id, c) ← c.place block start need
  return (.ok id, c)

/-! ### Invalidation -/

/-- Evicting the blocks with guest bytes in `[start, start + len)`.  Also their number. -/
def invalidate (c : CodeCache) (start len : Word) : Except Crash (Nat × CodeCache) := do
  let victims := (c.blocks.filter fun p => p.2.overlapsGuest start len).map (·.1)
  if victims.isEmpty then return (0, c)
  let buffer ← c.buffer.beginWrite
  let c ← evictAll victims { c with buffer }
  return (victims.length,
    { c with buffer := c.buffer.endWrite, evicted := c.evicted + victims.length })

/-- Emptying the cache. -/
def flush (c : CodeCache) : CodeCache :=
  { c with
    table := { links := c.table.links, unlinks := c.table.unlinks }
    free := []
    index := []
    jumpCache := .empty
    queue := []
    head := c.frame.start
    flushes := c.flushes + 1 }

/-! ### Execution -/

/-- What the code of a cache is connected to. -/
def environment (c : CodeCache) : Environment :=
  .ofPlatform c.platform c.services

/-- Running compiled code from a block on until it is back at the engine.  Also the number of the
reason. -/
def enter (c : CodeCache) (id : Nat) (guest : Guest) : Except Crash (Nat × Guest) :=
  match c.block? id with
  | none => .error (.breach .enterFree)
  | some b => Processor.enter c.environment c.frame c.buffer b.entry guest

end CodeCache

end CrossHart
