import CrossHart.Word

/-!
# Reading numbers

Numbers on the command line and in the environment: decimal digits, optionally after a plus sign,
with a value below `2 ^ 64`; sizes with a suffix for a power of 1024; and hexadecimal addresses.
-/

namespace CrossHart.Text

/-- The characters that count as blank: those with the White_Space property. -/
def isBlank (c : Char) : Bool :=
  let n := c.toNat
  (0x9 ≤ n && n ≤ 0xd) || n == 0x20 || n == 0x85 || n == 0xa0 || n == 0x1680 ||
    (0x2000 ≤ n && n ≤ 0x200a) || n == 0x2028 || n == 0x2029 || n == 0x202f || n == 0x205f ||
    n == 0x3000

/-- A text without blanks at its ends. -/
def strip (s : List Char) : List Char :=
  ((s.dropWhile isBlank).reverse.dropWhile isBlank).reverse

/-- The value of a digit. -/
def digit? (c : Char) : Option Nat :=
  if '0' ≤ c ∧ c ≤ '9' then some (c.toNat - '0'.toNat)
  else if 'a' ≤ c ∧ c ≤ 'f' then some (c.toNat - 'a'.toNat + 10)
  else if 'A' ≤ c ∧ c ≤ 'F' then some (c.toNat - 'A'.toNat + 10)
  else none

/-- The value of digits in a base, behind those read before. -/
def digits? (base : Nat) : List Char → Nat → Option Nat
  | [], n => some n
  | c :: rest, n =>
    match digit? c with
    | some d => if d < base then digits? base rest (n * base + d) else none
    | none => none

/-- The number that a text stands for in a base, if it is below `2 ^ 64`. -/
def unsigned? (base : Nat) (s : List Char) : Option Nat :=
  let s := if s.head? = some '+' then s.tail else s
  if s.isEmpty then none else (digits? base s 0).filter (· < Word.count)

/-- The factor of a suffix. -/
def scale? : Char → Option Nat
  | 'k' | 'K' => some 0x400
  | 'm' | 'M' => some 0x100000
  | 'g' | 'G' => some 0x40000000
  | _ => none

/-- The size that a text stands for: a number with a suffix or without. -/
def size? (s : String) : Option Nat :=
  let s := strip s.toList
  match s.getLast? with
  | none => none
  | some c =>
    match scale? c with
    | some k => ((unsigned? 10 s.dropLast).map (· * k)).filter (· < Word.count)
    | none => unsigned? 10 s

/-- The address that a text stands for: hexadecimal digits, with `0x` in front or without. -/
def address? (s : String) : Option Word :=
  let s := s.toList
  let s := if s.take 2 = ['0', 'x'] then s.drop 2 else s
  (unsigned? 16 s).map (BitVec.ofNat 64)

end CrossHart.Text
