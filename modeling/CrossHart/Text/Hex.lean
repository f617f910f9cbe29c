/-!
# Hexadecimal text

Addresses and raw instructions are printed in lower-case hexadecimal.
-/

namespace CrossHart.Text

/-- The hexadecimal digits of a number, without leading zeros. -/
def hex (n : Nat) : String :=
  String.ofList (Nat.toDigits 16 n)

/-- The hexadecimal digits of a number, with leading zeros up to a width. -/
def hexPadded (width n : Nat) : String :=
  let digits := Nat.toDigits 16 n
  String.ofList (List.replicate (width - digits.length) '0' ++ digits)

/-- A number in hexadecimal with its marker. -/
def hex0x (n : Nat) : String :=
  "0x" ++ hex n

/-- A signed number with its sign, also when it is not negative. -/
def signed (n : Int) : String :=
  if n < 0 then toString n else "+" ++ toString n

end CrossHart.Text
