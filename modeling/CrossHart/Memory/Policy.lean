import CrossHart.Memory.Access

/-!
# Policies

Which accesses a page allows is decided by a policy, which is asked one question at a time.  A
policy may change its mind: an answer depends on all questions and answers before it.  A policy
keeps these, the newest first.
-/

namespace CrossHart.Memory

/-- The question whether a page allows an access. -/
structure Query where
  page : Word
  access : Access
  deriving DecidableEq, Repr

/-- A policy: how it answers, and what it answered so far. -/
structure Policy where
  /-- The answer to a question, after the given questions and answers. -/
  answer : List (Query × Bool) → Query → Bool
  /-- The questions and answers so far, the newest first. -/
  history : List (Query × Bool) := []

namespace Policy

/-- Asking a policy. -/
def ask (p : Policy) (q : Query) : Bool × Policy :=
  let a := p.answer p.history q
  (a, { p with history := (q, a) :: p.history })

/-- The policy that gives the same answer to the same question at all times. -/
def ofFun (f : Query → Bool) : Policy where
  answer _ q := f q

/-- The policy that allows everything. -/
def allowAll : Policy :=
  ofFun fun _ => true

/-- The policy that answers for one page by the given rights, and for all others as before. -/
def override (p : Policy) (page : Word) (rights : Rights) : Policy where
  answer history q := if q.page = page then rights.allows q.access else p.answer history q
  history := p.history

/-- Asking about the given accesses to a page, one after the other. -/
def askEach (p : Policy) (page : Word) : List Access → List (Access × Bool) × Policy
  | [] => ([], p)
  | a :: rest =>
    let (ok, p) := p.ask ⟨page, a⟩
    let (answers, p) := p.askEach page rest
    ((a, ok) :: answers, p)

@[simp]
theorem ask_ofFun (f : Query → Bool) (q : Query) :
  ((ofFun f).ask q).1 = f q
  := rfl

end Policy

end CrossHart.Memory
