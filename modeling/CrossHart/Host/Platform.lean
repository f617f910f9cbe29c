import CrossHart.Host.Reg
import CrossHart.Word

/-!
# The platform

What an engine depends on of the host that it runs on: how much memory there is for code, and what
compiled code finds in its registers where neither the code nor the engine decides it.
-/

namespace CrossHart.Host

/-- A host that an engine runs on. -/
structure Platform where
  /-- Whether there is memory for a buffer of a capacity. -/
  grants : Nat → Bool
  /-- No buffer takes more than half of the addresses. -/
  bounded : ∀ n, grants n = true → n < 0x8000000000000000
  /-- The address of the state of the hart. -/
  state : Word
  /-- What a called function leaves in the registers that it need not keep. -/
  leftover : Reg → Word := fun _ => 0

/-- A host with 64 gigabytes of memory for a buffer. -/
def Platform.standard : Platform where
  grants n := n ≤ 0x1000000000
  bounded n granted := Nat.lt_of_le_of_lt (of_decide_eq_true granted) (by decide)
  state := 0x7fff00000000

end CrossHart.Host
