/-!
# Percentages

A percentage is computed as a binary fraction of 53 bits and printed with one decimal place.  Both
steps round to the nearest, and a half goes to the even neighbour.
-/

namespace CrossHart.Text

/-- The quotient rounded to the nearest number, a half to the even neighbour. -/
def roundDiv (n d : Nat) : Nat :=
  let q := n / d
  let r := n % d
  if 2 * r < d then q
  else if d < 2 * r then q + 1
  else q + q % 2

/-- The fraction `m / 2 ^ e` with `m` of 53 bits that is nearest to `n / d`. -/
def nearestBinary (n d : Nat) : Nat × Nat :=
  if n = 0 then (0, 0)
  else
    let e := 53 + d.log2 - n.log2
    let e := if 0x20000000000000 ≤ (n <<< e) / d then e - 1 else e
    (roundDiv (n <<< e) d, e)

/-- The share of a part in a whole, in percent with one decimal place. -/
def percent (part whole : Nat) : String :=
  let tenths :=
    if whole = 0 then 0
    else
      let (m, e) := nearestBinary (100 * part) whole
      roundDiv (10 * m) (1 <<< e)
  (tenths / 10).repr ++ "." ++ (tenths % 10).repr

end CrossHart.Text
