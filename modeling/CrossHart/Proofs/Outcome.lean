import CrossHart.Crash
import Mathlib.Tactic.Common

/-!
# Outcomes of computations

Much of the engine is computations that can crash.  `Meets` says of such a computation what its
results satisfy and, at the same time, under which condition there is a result at all.
-/

namespace Except

variable {ε α β : Type}

/-- The result of two computations, one after the other, is one of the second. -/
theorem bind_eq_ok {x : Except ε α} {f : α → Except ε β} {b : β} :
  x >>= f = .ok b ↔ ∃ a, x = .ok a ∧ f a = .ok b
  := by
  cases x with
  | error e => simp [bind, Except.bind]
  | ok a => simp [bind, Except.bind]

@[simp]
theorem ok_bind (a : α) (f : α → Except ε β) :
  (.ok a : Except ε α) >>= f = f a
  := rfl

@[simp]
theorem error_bind (e : ε) (f : α → Except ε β) :
  (.error e : Except ε α) >>= f = .error e
  := rfl

@[simp]
theorem ok_map (a : α) (f : α → β) :
  (.ok a : Except ε α).map f = .ok (f a)
  := rfl

@[simp]
theorem error_map (e : ε) (f : α → β) :
  (.error e : Except ε α).map f = .error e
  := rfl

theorem eq_ok_of_toOption {x : Except ε α} {a : α} (h : x.toOption = some a) :
  x = .ok a
  := by
  cases x with
  | error e => cases h
  | ok b => exact congrArg _ (Option.some.inj h)

/-- What is found out about a result is about one that there is. -/
theorem exists_of_toOption {x : Except ε α} {f : α → β} {b : β} (h : x.toOption.map f = some b) :
  ∃ a, x = .ok a ∧ f a = b
  := by
  obtain ⟨a, ha, rfl⟩ := Option.map_eq_some_iff.mp h
  exact ⟨a, eq_ok_of_toOption ha, rfl⟩

/-- Results that agree after a change that can be undone agree. -/
theorem eq_of_map_eq {f : α → β} (injective : f.Injective) {x y : Except ε α}
    (h : f <$> x = f <$> y) :
  x = y
  := by
  cases x with
  | error e =>
    cases y with
    | error e' => exact congrArg _ (Except.error.inj h)
    | ok b => cases h
  | ok a =>
    cases y with
    | error e' => cases h
    | ok b => exact congrArg _ (injective (Except.ok.inj h))

end Except

namespace CrossHart

variable {α β : Type}

/-- The result of two actions, one after the other, is one of the second. -/
theorem Action.on_bind_eq_ok {σ ε : Type} {a : Action σ ε α} {f : α → Action σ ε β} {s u : σ} {y : β} :
  (a >>= f).on s = .ok (.ok y, u) ↔
    ∃ x t, a.on s = .ok (.ok x, t) ∧ (f x).on t = .ok (.ok y, u)
  := by
  rw [on_bind]
  constructor
  · intro h
    split at h
    case h_1 x t ha => exact ⟨x, t, ha, h⟩
    all_goals cases h
  · rintro ⟨x, t, ha, h⟩
    rw [ha]
    exact h

/-- What two actions throw, one after the other, the first or the second throws. -/
theorem Action.on_bind_eq_error {σ ε : Type} {a : Action σ ε α} {f : α → Action σ ε β} {s u : σ}
    {e : ε} :
  (a >>= f).on s = .ok (.error e, u) ↔
    a.on s = .ok (.error e, u) ∨ ∃ x t, a.on s = .ok (.ok x, t) ∧ (f x).on t = .ok (.error e, u)
  := by
  rw [on_bind]
  cases a.on s with
  | error crash => simp
  | ok result =>
    obtain ⟨r, t⟩ := result
    cases r <;> simp

/-- The results of a computation satisfy `post`, and it does not crash if `safe` holds. -/
def Meets (safe : Prop) (x : Except Crash α) (post : α → Prop) : Prop :=
  match x with
  | .ok a => post a
  | .error _ => ¬safe

namespace Meets

variable {safe : Prop} {x : Except Crash α} {post : α → Prop}

theorem ok {a : α} (h : post a) :
  Meets safe (.ok a) post
  := h

theorem of_eq {a : α} (hx : x = .ok a) (h : post a) :
  Meets safe x post
  := by
  rw [hx]
  exact h

/-- A computation that has a result if it is safe. -/
theorem self (h : safe → ∃ a, x = .ok a) :
  Meets safe x fun a => x = .ok a
  := by
  cases x with
  | ok a => exact rfl
  | error e =>
    intro hsafe
    obtain ⟨a, ha⟩ := h hsafe
    cases ha

theorem bind {f : α → Except Crash β} {post' : β → Prop} (h : Meets safe x post)
    (hf : ∀ a, post a → Meets safe (f a) post') :
  Meets safe (x >>= f) post'
  := by
  cases x with
  | error e => exact h
  | ok a => exact hf a h

theorem imp {post' : α → Prop} (h : Meets safe x post) (himp : ∀ a, post a → post' a) :
  Meets safe x post'
  := by
  cases x with
  | error e => exact h
  | ok a => exact himp a h

theorem map {f : α → β} {post : β → Prop} (h : Meets safe x fun a => post (f a)) :
  Meets safe (x.map f) post
  := by
  cases x with
  | error e => exact h
  | ok a => exact h

/-- What results are like, if there are any, is known apart from when there are. -/
theorem and {post' : α → Prop} (h : Meets safe x post) (h' : Meets False x post') :
  Meets safe x fun a => post a ∧ post' a
  := by
  cases x with
  | error e => exact h
  | ok a => exact ⟨h, h'⟩

/-- The results of a computation that has one satisfy what it meets. -/
theorem post_of_eq {a : α} (h : Meets safe x post) (hx : x = .ok a) :
  post a
  := by
  rw [hx] at h
  exact h

/-- A safe computation has a result. -/
theorem exists_ok (h : Meets safe x post) (hsafe : safe) :
  ∃ a, x = .ok a ∧ post a
  := by
  cases x with
  | error e => exact False.elim (h hsafe)
  | ok a => exact ⟨a, rfl, h⟩

end Meets

end CrossHart
