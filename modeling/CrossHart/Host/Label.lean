import CrossHart.Crash

/-!
# Labels

A label is a place in code that can be referred to before it is known where it is.
-/

namespace CrossHart.Host

/-- A label: where it is, and the references to it that wait to be told. -/
structure Label where
  place : Option Nat := none
  uses : List Nat := []
  deriving DecidableEq, Repr

namespace Label

/-- A reference to a label at an offset. -/
def use (l : Label) (offset : Nat) : Label :=
  { l with uses := l.uses ++ [offset] }

/-- Placing a label at an offset, once.  Also the references that waited, the oldest first. -/
def bind (l : Label) (offset : Nat) : Except Crash (List Nat × Label) :=
  match l.place with
  | some _ => .error .badArgument
  | none => .ok (l.uses, { place := some offset })

/-- Whether a label is placed. -/
def isBound (l : Label) : Bool :=
  l.place.isSome

/-- Whether references to a label wait. -/
def isAwaited (l : Label) : Bool :=
  !l.uses.isEmpty

end Label

end CrossHart.Host
