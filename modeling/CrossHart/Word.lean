import CrossHart.Crash

/-!
# Words

Guest and host registers, addresses and memory cells are words of 64 bits.  Arithmetic on them
wraps around unless it is written with the operations of this file, which crash instead: they are
used for sizes and bounds, where a result that wrapped around would be wrong.
-/

namespace CrossHart

/-- A machine word. -/
abbrev Word := BitVec 64

namespace Word

/-- The number of words, `2 ^ 64`. -/
abbrev count : Nat := 0x10000000000000000

/-- The sum of two words, if it is a word. -/
def sum (a b : Word) : Except Crash Word :=
  if a.toNat + b.toNat < count then .ok (a + b) else .error .overflow

/-- The difference of two words, if it is a word. -/
def diff (a b : Word) : Except Crash Word :=
  if b.toNat ≤ a.toNat then .ok (a - b) else .error .overflow

/-- The sum of two signed words, if it is a signed word. -/
def signedSum (a b : Word) : Except Crash Word :=
  if (a + b).toInt = a.toInt + b.toInt then .ok (a + b) else .error .overflow

/-- The difference of two signed words, if it is a signed word. -/
def signedDiff (a b : Word) : Except Crash Word :=
  if (a - b).toInt = a.toInt - b.toInt then .ok (a - b) else .error .overflow

/-- The word of a truth value. -/
def ofBool (b : Bool) : Word :=
  if b then 1 else 0

end Word

/-! ### Sizes

Sizes and positions on the host side are natural numbers below `2 ^ 64`. -/

namespace Size

/-- A number as a size, if it is one. -/
def exact (n : Nat) : Except Crash Nat :=
  if n < Word.count then .ok n else .error .overflow

/-- The sum of two sizes, if it is a size. -/
def sum (a b : Nat) : Except Crash Nat :=
  exact (a + b)

/-- A signed number as a displacement of 64 bits, if it is one. -/
def displacement (n : Int) : Except Crash Int :=
  if -0x8000000000000000 ≤ n ∧ n < 0x8000000000000000 then .ok n else .error .overflow

/-- The least multiple of `step` that is at least `n`. -/
def roundUp (n step : Nat) : Nat :=
  (n + step - 1) / step * step

end Size

end CrossHart
