import CrossHart.Memory.Policy

/-!
# Segments

The parts of a program in memory have rights.  A page has the rights of the last segment with a
byte on it; a page without a segment can be read and written.
-/

namespace CrossHart.Userland

/-- A segment: whole pages and their rights, one bit each for execution, writing and reading. -/
structure Segment where
  firstPage : Nat
  /-- The page after the last one. -/
  endPage : Nat
  flags : BitVec 32
  deriving DecidableEq, Repr

namespace Segment

/-- The flag for execution. -/
def executeFlag : BitVec 32 := 1

/-- The flag for writing. -/
def writeFlag : BitVec 32 := 2

/-- The flag for reading. -/
def readFlag : BitVec 32 := 4

/-- The flag of an access. -/
def flagOf : Memory.Access → BitVec 32
  | .read => readFlag
  | .write => writeFlag
  | .execute => executeFlag

end Segment

/-- The rights of all pages. -/
structure Segments where
  /-- Whether every page has all rights. -/
  flat : Bool := false
  /-- The segments, the last one first. -/
  segments : List Segment := []
  deriving DecidableEq, Repr

namespace Segments

/-- Adding the segment `[vaddr, vaddr + len)`. -/
def add (s : Segments) (vaddr len : Word) (flags : BitVec 32) : Except Crash Segments := do
  let stop ← Word.sum vaddr len
  let segment : Segment :=
    { firstPage := vaddr.toNat / Memory.pageSize
      endPage := Size.roundUp stop.toNat Memory.pageSize / Memory.pageSize
      flags }
  return { s with segments := segment :: s.segments }

/-- The flags of a page. -/
def flags (s : Segments) (page : Word) : BitVec 32 :=
  if s.flat then 7
  else
    match s.segments.find? fun g => g.firstPage ≤ page.toNat ∧ page.toNat < g.endPage with
    | some g => g.flags
    | none => Segment.readFlag ||| Segment.writeFlag

/-- Whether a page allows an access. -/
def allows (s : Segments) (q : Memory.Query) : Bool :=
  s.flags q.page &&& Segment.flagOf q.access ≠ 0

/-- The policy of segments. -/
def policy (s : Segments) : Memory.Policy :=
  .ofFun s.allows

end Segments

end CrossHart.Userland
