/-!
# Text of arbitrary bytes

A program writes bytes, which need not be the UTF-8 form of a text.  Each character is read from
its form: a first byte and the bytes that continue it.  What starts no form, and the longest start
of a form that is not completed, count as one replacement character.
-/

namespace CrossHart.Text

/-- The character for bytes that are no text. -/
def replacement : Char := '�'

/-- The number of bytes that continue a first byte, if it starts a form. -/
def continuationCount? (first : UInt8) : Option Nat :=
  if first < 0x80 then some 0
  else if first < 0xc2 then none
  else if first < 0xe0 then some 1
  else if first < 0xf0 then some 2
  else if first < 0xf5 then some 3
  else none

/-- Whether a byte can continue a form. -/
def isContinuation (b : UInt8) : Bool :=
  0x80 ≤ b && b < 0xc0

/-- Whether a byte can be the second one of a form.  After some first bytes, fewer than all
continuations can be: the others would be a character with a shorter form, a surrogate, or more
than the greatest character. -/
def isSecond (first b : UInt8) : Bool :=
  isContinuation b &&
    if first = 0xe0 then 0xa0 ≤ b
    else if first = 0xed then b < 0xa0
    else if first = 0xf0 then 0x90 ≤ b
    else if first = 0xf4 then b < 0x90
    else true

/-- The bytes at the front that continue a first byte, at most `n`. -/
def continuation (first : UInt8) (n : Nat) : List UInt8 → List UInt8
  | [] => []
  | b :: rest =>
    if 0 < n && isSecond first b then b :: (rest.take (n - 1)).takeWhile isContinuation else []

/-- The character with a first byte and the bytes that continue it. -/
def formed (first : UInt8) (rest : List UInt8) : Char :=
  let lead :=
    match rest.length with
    | 0 => first.toNat
    | 1 => first.toNat % 32
    | 2 => first.toNat % 16
    | _ => first.toNat % 8
  Char.ofNat (rest.foldl (fun n b => 64 * n + b.toNat % 64) lead)

/-- The character at the front, behind a first byte, and the number of bytes that continue it. -/
def nextChar (first : UInt8) (rest : List UInt8) : Char × Nat :=
  match continuationCount? first with
  | none => (replacement, 0)
  | some n =>
    let more := continuation first n rest
    (if more.length = n then formed first more else replacement, more.length)

/-- The text of bytes, behind the text of the bytes before them. -/
def appendBytes (before : String) : List UInt8 → String
  | [] => before
  | first :: rest =>
    let (c, n) := nextChar first rest
    appendBytes (before.push c) (rest.drop n)
termination_by bytes => bytes.length

/-- The text of bytes. -/
def ofBytes (bytes : ByteArray) : String :=
  appendBytes "" bytes.toList

end CrossHart.Text
