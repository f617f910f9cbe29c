import CrossHart.Word
import CrossHart.Text.Hex

/-!
# Accesses, faults and pages

Guest memory is read, written and executed.  Whether an access is allowed is decided for pages of
4096 bytes; one that is not allowed, or that meets no memory, is a fault.
-/

namespace CrossHart.Memory

/-- The ways to use memory. -/
inductive Access where
  | read | write | execute
  deriving DecidableEq, Repr

namespace Access

/-- The ways to use memory, in the order in which they are asked about. -/
def all : List Access := [read, write, execute]

/-- The bit of an access in a set of rights. -/
def bit : Access → Nat
  | read => 1
  | write => 2
  | execute => 4

/-- The word for an access in messages. -/
def text : Access → String
  | read => "load"
  | write => "store"
  | execute => "fetch"

end Access

/-- A set of accesses. -/
structure Rights where
  read : Bool
  write : Bool
  execute : Bool
  deriving DecidableEq, Repr

namespace Rights

/-- Whether a set of rights has an access. -/
def allows (r : Rights) : Access → Bool
  | .read => r.read
  | .write => r.write
  | .execute => r.execute

/-- A set of rights as a number, one bit for each access. -/
def bits (r : Rights) : Nat :=
  (if r.read then 1 else 0) + (if r.write then 2 else 0) + (if r.execute then 4 else 0)

/-- The rights whose accesses satisfy a predicate. -/
def ofFun (f : Access → Bool) : Rights :=
  ⟨f .read, f .write, f .execute⟩

/-- The rights that a number stands for, one bit for each access. -/
def ofBits (n : Nat) : Rights :=
  ofFun fun a => n &&& a.bit != 0

@[simp]
theorem allows_ofFun (f : Access → Bool) (a : Access) :
  (ofFun f).allows a = f a
  := by cases a <;> rfl

end Rights

/-- An access that is not allowed, and its address. -/
structure Fault where
  addr : Word
  access : Access
  deriving DecidableEq, Repr

/-- The text of a fault. -/
def Fault.message (f : Fault) : String :=
  f.access.text ++ " access violation at " ++ Text.hex0x f.addr.toNat

/-! ### Pages -/

/-- The number of bytes of a page. -/
def pageSize : Nat := 4096

/-- The bits of an address that point into its page. -/
def pageMask : Word := 4095

/-- The page of an address. -/
def pageOf (addr : Word) : Word :=
  addr >>> 12

/-- The first address of the page of an address. -/
def pageStart (addr : Word) : Word :=
  addr &&& ~~~pageMask

/-- The position of an address in its page. -/
def inPage (addr : Word) : Word :=
  addr &&& pageMask

/-- The first page boundary that is not below a size or address. -/
def pageUp (n : Word) : Except Crash Word :=
  (Word.sum n pageMask).map pageStart

/-- Whether `size` bytes from an address on leave its page. -/
def straddles (addr : Word) (size : Nat) : Bool :=
  pageSize < (inPage addr).toNat + size

end CrossHart.Memory
