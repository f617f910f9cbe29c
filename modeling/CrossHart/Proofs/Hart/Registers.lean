import CrossHart.Hart.Step
import Mathlib.Tactic.Common

/-!
# The registers of a guest

Reading and writing the registers of a guest as plain functions: `value` and `put` are what the
actions on registers do where the number of the register is one.
-/

namespace Vector

variable {α : Type} {n : Nat}

theorem getElem_val (v : Vector α n) (i : Fin n) :
  v[i.val] = v.get i
  := rfl

theorem get_set (v : Vector α n) (i j : Fin n) (x : α) :
  (v.set i x).get j = if i = j then x else v.get j
  := by
  rw [← getElem_val, ← getElem_val, Vector.getElem_set]
  by_cases h : i = j
  · rw [if_pos h, if_pos (congrArg Fin.val h)]
  · rw [if_neg h, if_neg fun hval => h (Fin.ext hval)]

@[simp]
theorem replicate_get (x : α) (i : Fin n) :
  (replicate n x).get i = x
  := by
  rw [← getElem_val, Vector.getElem_replicate]

end Vector

namespace CrossHart

namespace Registers

/-- The value of a register, zero for register 0. -/
def value (r : Registers) (i : Nat) : Word :=
  if i = 0 then 0 else r.x[i]?.getD 0

/-- The registers after a write to one of them, which register 0 ignores. -/
def put (r : Registers) (i : Nat) (v : Word) : Registers :=
  if h : 0 < i ∧ i < 32 then { r with x := r.x.set i v } else r

theorem get_eq_value (r : Registers) {i : Nat} (h : i < 32) :
  r.get i = .ok (r.value i)
  := by
  unfold get value
  split
  · rfl
  · rw [Vector.getElem?_eq_getElem h]
    rfl

theorem set_eq_put (r : Registers) {i : Nat} (h : i < 32) (v : Word) :
  r.set i v = .ok (r.put i v)
  := by
  unfold set put
  split
  case isTrue hzero =>
    subst hzero
    rfl
  case isFalse hzero => rw [dif_pos ⟨Nat.pos_of_ne_zero hzero, h⟩]

@[simp]
theorem value_zero (r : Registers) :
  r.value 0 = 0
  := rfl

@[simp]
theorem put_zero (r : Registers) (v : Word) :
  r.put 0 v = r
  := rfl

theorem value_of_pos (r : Registers) {i : Nat} (pos : 0 < i) (h : i < 32) :
  r.value i = r.x[i]
  := by
  rw [value, if_neg (Nat.ne_of_gt pos), Vector.getElem?_eq_getElem h]
  rfl

/-- A register that was written holds what was written. -/
theorem get_of_set {r r' : Registers} {i : Nat} {v : Word} (pos : 0 < i) (written : r.set i v = .ok r') :
  r'.get i = .ok v ∧ r'.pc = r.pc
  := by
  unfold set at written
  rw [if_neg (Nat.ne_of_gt pos)] at written
  split at written
  case isTrue hlt =>
    cases written
    refine ⟨?_, rfl⟩
    rw [get_eq_value _ hlt, value_of_pos _ pos hlt]
    dsimp only
    rw [Vector.getElem_set_self]
  case isFalse => cases written

end Registers

namespace Guest

/-- The value of a register. -/
def value (g : Guest) (i : Nat) : Word :=
  g.hart.regs.value i

/-- The guest after a write to a register. -/
def put (g : Guest) (i : Nat) (v : Word) : Guest :=
  { g with hart := { g.hart with regs := g.hart.regs.put i v } }

/-- The guest at an address. -/
def goto (g : Guest) (pc : Word) : Guest :=
  { g with hart := { g.hart with regs := { g.hart.regs with pc } } }

/-- The guest with another account of the instructions it may execute. -/
def withBudget (g : Guest) (budget : Word) : Guest :=
  { g with hart := { g.hart with budget } }

/-- The integer registers of a guest, register 0 too. -/
def file (g : Guest) : Vector Word 32 :=
  g.hart.regs.x

/-- The guest with all integer registers replaced. -/
def withFile (g : Guest) (x : Vector Word 32) : Guest :=
  { g with hart := { g.hart with regs := { g.hart.regs with x } } }

@[simp]
theorem withFile_withFile (g : Guest) (x y : Vector Word 32) :
  (g.withFile x).withFile y = g.withFile y
  := rfl

@[simp]
theorem withFile_file (g : Guest) :
  g.withFile g.file = g
  := rfl

@[simp]
theorem file_withFile (g : Guest) (x : Vector Word 32) :
  (g.withFile x).file = x
  := rfl

theorem value_eq_file (g : Guest) {i : Nat} (pos : 0 < i) (h : i < 32) :
  g.value i = g.file[i]
  := g.hart.regs.value_of_pos pos h

theorem put_eq_withFile (g : Guest) {i : Nat} (pos : 0 < i) (h : i < 32) (v : Word) :
  g.put i v = g.withFile (g.file.set i v)
  := by
  rw [put, Registers.put, dif_pos ⟨pos, h⟩]
  rfl

@[simp]
theorem put_zero (g : Guest) (v : Word) :
  g.put 0 v = g
  := rfl

@[simp]
theorem value_zero (g : Guest) :
  g.value 0 = 0
  := rfl

variable {ε : Type}

theorem on_reg (g : Guest) {i : Nat} (h : i < 32) :
  (reg i : Action Guest ε Word).on g = .ok (.ok (g.value i), g)
  := by
  rw [reg, Action.look, Action.on_of, Registers.get_eq_value _ h]
  rfl

theorem on_setReg (g : Guest) {i : Nat} (h : i < 32) (v : Word) :
  (setReg i v : Action Guest ε Unit).on g = .ok (.ok (), g.put i v)
  := by
  rw [setReg, Action.change, Action.on_of]
  simp only [Registers.set_eq_put _ h]
  rfl

theorem on_setPc (g : Guest) (pc : Word) :
  (setPc pc : Action Guest ε Unit).on g = .ok (.ok (), g.goto pc)
  := rfl

end Guest

theorem Hart.on_goto (g : Guest) (pc : Word) :
  (Hart.goto pc).on g = .ok (.ok .continue, g.goto pc)
  := rfl

end CrossHart
