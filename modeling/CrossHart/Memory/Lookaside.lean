import CrossHart.Memory.Policy
import CrossHart.Memory.Space

/-!
# The lookaside table

Asking the policy at each access would be slow, so its answers are kept in a table of 64 entries,
one for all pages with the same low bits.  Entries are never removed: an entry carries two
generation numbers and counts only while both are current, so a slot or the whole table is
emptied by counting up.
-/

namespace CrossHart.Memory

/-- The number of slots. -/
def slotCount : Nat := 64

/-- The slot of a page. -/
def slotOf (page : Word) : Fin slotCount :=
  ⟨page.toNat % slotCount, Nat.mod_lt _ (by decide)⟩

/-- What is known of a page: its backing and rights, at the time of two generations. -/
structure Entry where
  page : Word
  backing : Backing
  rights : Rights
  slotGeneration : Word
  generation : Word
  deriving DecidableEq, Repr

/-- The lookaside table. -/
structure Lookaside where
  entries : Vector (Option Entry) slotCount := Vector.replicate _ none
  /-- The generation of each slot. -/
  slotGenerations : Vector Word slotCount := Vector.replicate _ 0
  /-- The generation of the table. -/
  generation : Word := 0
  hits : Nat := 0
  misses : Nat := 0

namespace Lookaside

/-- Whether an entry of a slot is of the current generations. -/
def isCurrent (t : Lookaside) (i : Fin slotCount) (e : Entry) : Bool :=
  e.slotGeneration == t.slotGenerations[i] && e.generation == t.generation

/-- The current entry of a page, if there is one. -/
def entry? (t : Lookaside) (page : Word) : Option Entry :=
  t.entries[slotOf page].filter fun e => e.page == page && t.isCurrent (slotOf page) e

/-- The number of current entries. -/
def live (t : Lookaside) : Nat :=
  ((List.finRange slotCount).filter fun i =>
    match t.entries[i] with
    | some e => t.isCurrent i e
    | none => false).length

/-- The table with an entry for a page, of the current generations. -/
def fill (t : Lookaside) (page : Word) (backing : Backing) (rights : Rights) : Lookaside :=
  let i := slotOf page
  { t with
    entries := t.entries.set i (some ⟨page, backing, rights, t.slotGenerations[i], t.generation⟩) }

/-- The table without an entry for a page, or for any other page of its slot. -/
def invalidate (t : Lookaside) (page : Word) : Lookaside :=
  let i := slotOf page
  { t with slotGenerations := t.slotGenerations.set i (t.slotGenerations[i] + 1) }

/-- The table without entries. -/
def flush (t : Lookaside) : Lookaside :=
  { t with generation := t.generation + 1 }

/-- The rights of a page: what was just allowed, and what the policy says to the rest. -/
def askRights (policy : Policy) (page : Word) (allowed : Access) : Rights × Policy :=
  let (answers, policy) := policy.askEach page (Access.all.filter (· ≠ allowed))
  (Rights.ofFun fun a => a == allowed || answers.contains (a, true), policy)

/-- The backing of an address for an access.  A current entry answers at once.  Otherwise the
policy is asked; if it allows the access, it is asked about the others too and an entry is made.
Nothing is kept of an access that is not allowed. -/
def locate (t : Lookaside) (space : Space) (policy : Policy) (addr : Word) (access : Access) :
    Except Crash (Except Fault Backing × Lookaside × Policy) :=
  let page := pageOf addr
  match t.entry? page with
  | some e =>
    let t := { t with hits := t.hits + 1 }
    if e.rights.allows access then
      (e.backing.shift (inPage addr)).map fun b => (.ok b, t, policy)
    else .ok (.error ⟨addr, access⟩, t, policy)
  | none =>
    let t := { t with misses := t.misses + 1 }
    match space.resolve addr with
    | none => .ok (.error ⟨addr, access⟩, t, policy)
    | some backing =>
      match policy.ask ⟨page, access⟩ with
      | (false, policy) => .ok (.error ⟨addr, access⟩, t, policy)
      | (true, policy) =>
        let (rights, policy) := askRights policy page access
        (backing.shift (inPage addr)).map fun b =>
          (.ok b, t.fill page backing rights, policy)

end Lookaside

end CrossHart.Memory
