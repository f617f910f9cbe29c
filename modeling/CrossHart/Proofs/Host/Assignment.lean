import CrossHart.Host.Assignment
import CrossHart.Proofs.Host.Flow
import CrossHart.Proofs.Host.Processor
import Mathlib.Data.Fintype.Card

/-!
# Assignments and what they stand for

A processor with an assignment `Represents` a guest: a guest register with a slot is in the host
register of the slot, any other one in the register file, and so is one whose slot is not newer.
Each operation on assignments keeps the guest that is represented, once its code was carried out.
Host registers that the current instruction uses keep their values.
-/

namespace CrossHart.Host

/-! ### Straight code -/

/-- Instructions lead from one processor to another. -/
def Runs (env : Environment) (is : List Instr) (p q : Processor) : Prop :=
  Item.exec env (is.map .instr) p = .ok (.next q)

namespace Runs

variable {env : Environment} {is js : List Instr} {p q r : Processor}

theorem nil :
  Runs env [] p p
  := rfl

theorem cons {i : Instr} (h : Processor.execute env i.normal p = .ok q) (hrest : Runs env is q r) :
  Runs env (i :: is) p r
  := by
  rw [Runs, List.map_cons, Item.exec, h]
  exact hrest

theorem single {i : Instr} (h : Processor.execute env i.normal p = .ok q) :
  Runs env [i] p q
  := cons h nil

theorem append (h : Runs env is p q) (h' : Runs env js q r) :
  Runs env (is ++ js) p r
  := by
  rw [Runs, List.map_append, Item.exec_append, h]
  exact h'

end Runs

theorem slotReg_injective {s t : Fin slotCount} (h : slotReg s = slotReg t) :
  s = t
  := by
  revert s t
  decide

theorem slotReg_ne_stateReg (s : Fin slotCount) :
  slotReg s ≠ stateReg
  := by
  revert s
  decide

namespace Assignment

/-- The slot of a guest register. -/
def home? (a : Assignment) (guest : Nat) : Option (Fin slotCount) :=
  a.homes[guest]?.join

theorem home_eq (a : Assignment) {guest : Nat} (h : guest < 32) :
  a.home guest = .ok (a.home? guest)
  := by
  rw [home, dif_pos h, home?, Vector.getElem?_eq_getElem h]
  rfl

theorem home?_setHome (a : Assignment) {guest : Nat} (h : guest < 32) (s : Option (Fin slotCount))
    (i : Nat) :
  (a.setHome guest s).home? i = if guest = i then s else a.home? i
  := by
  rw [setHome, dif_pos h, home?, home?, Vector.getElem?_set]
  split <;> rfl

@[simp]
theorem slots_setHome (a : Assignment) (guest : Nat) (s : Option (Fin slotCount)) :
  (a.setHome guest s).slots = a.slots
  := by
  unfold setHome
  split <;> rfl

@[simp]
theorem pinned_setHome (a : Assignment) (guest : Nat) (s : Option (Fin slotCount)) :
  (a.setHome guest s).pinned = a.pinned
  := by
  unfold setHome
  split <;> rfl

/-- The guest register in a slot. -/
def guestAt (a : Assignment) (s : Fin slotCount) : Option Nat :=
  (a.slots.get s).guest

/-- Slots and guest registers agree about each other, and a slot that holds nothing is not newer than
the register file. -/
structure Matched (a : Assignment) : Prop where
  home_iff : ∀ guest s, a.home? guest = some s ↔ a.guestAt s = some guest
  pos : ∀ s, a.guestAt s ≠ some 0
  clean : ∀ s, a.guestAt s = none → (a.slots.get s).dirty = false

/-- Moreover, a slot in use holds something. -/
structure WellFormed (a : Assignment) : Prop extends Matched a where
  inUse : ∀ s, a.pinned.get s = true → a.guestAt s ≠ none

theorem Matched.lt {a : Assignment} (matched : a.Matched) {s : Fin slotCount} {guest : Nat}
    (h : a.guestAt s = some guest) :
  guest < 32
  := by
  by_contra hlt
  have hhome := (matched.home_iff guest s).mpr h
  rw [home?, Vector.getElem?_eq_none (Nat.le_of_not_lt hlt)] at hhome
  cases hhome

/-- The processor holds the registers of a guest as an assignment says. -/
structure Represents (env : Environment) (a : Assignment) (p : Processor) (g : Guest) : Prop where
  base : p.reg stateReg = env.state
  rest : p.guest.withFile g.file = g
  held : ∀ s (i : Fin 32), a.guestAt s = some i.val → p.reg (slotReg s) = g.file.get i
  filed : ∀ i : Fin 32, (∀ s, a.guestAt s = some i.val → (a.slots.get s).dirty = false) →
    p.guest.file.get i = g.file.get i

/-- A register that code with slots does not touch: it is not that of a slot, or the slot is in
use. -/
def Keeps (a : Assignment) (r : Reg) : Prop :=
  ∀ s, r = slotReg s → a.pinned.get s = true

variable {a b : Assignment} {env : Environment} {p : Processor} {g : Guest} {s : Fin slotCount}

/-- What is represented depends on what the slots hold and on which of them are newer only. -/
theorem Represents.congr (h : Represents env a p g) (guests : b.guestAt = a.guestAt)
    (dirty : ∀ s : Fin slotCount, (b.slots.get s).dirty = (a.slots.get s).dirty) :
  Represents env b p g
  := by
  refine ⟨h.base, h.rest, ?_, ?_⟩
  · rw [guests]
    exact h.held
  · intro i hi
    apply h.filed
    intro s hs
    rw [← dirty]
    exact hi s (by rw [guests, hs])

theorem guestAt_mk_set (a : Assignment) (homes : Vector (Option (Fin slotCount)) 32)
    (pinned : Vector Bool slotCount) (clock : Nat) (s t : Fin slotCount) (slot : Slot) :
  guestAt ⟨a.slots.set s slot s.isLt, homes, pinned, clock⟩ t =
    if s = t then slot.guest else a.guestAt t
  := by
  simp only [guestAt, Vector.get_set]
  split <;> rfl

theorem dirty_set (slots : Vector Slot slotCount) (s t : Fin slotCount) (slot : Slot) :
  ((slots.set s slot s.isLt).get t).dirty = if s = t then slot.dirty else (slots.get t).dirty
  := by
  rw [Vector.get_set]
  split <;> rfl

/-! ### Emptying a slot -/

theorem guestAt_spill (a : Assignment) (s t : Fin slotCount) :
  (a.spill s).2.guestAt t = if s = t then none else a.guestAt t
  := by
  unfold spill
  dsimp only
  split
  · exact guestAt_mk_set a _ _ _ s t {}
  · simp only [guestAt, slots_setHome]
    exact guestAt_mk_set a a.homes a.pinned a.clock s t {}

theorem dirty_spill (a : Assignment) (s t : Fin slotCount) :
  ((a.spill s).2.slots.get t).dirty = if s = t then false else (a.slots.get t).dirty
  := by
  unfold spill
  dsimp only
  split
  · exact dirty_set _ s t {}
  · simp only [slots_setHome]
    exact dirty_set _ s t {}

@[simp]
theorem pinned_spill (a : Assignment) (s : Fin slotCount) :
  (a.spill s).2.pinned = a.pinned
  := by
  unfold spill
  dsimp only
  split
  · rfl
  · rw [pinned_setHome]

theorem home?_spill (matched : a.Matched) (s : Fin slotCount) (guest : Nat) :
  (a.spill s).2.home? guest = if a.guestAt s = some guest then none else a.home? guest
  := by
  unfold spill
  dsimp only
  split
  case h_1 h =>
    have hs : a.guestAt s = none := h
    rw [hs, if_neg (by simp)]
    rfl
  case h_2 i h =>
    have hs : a.guestAt s = some i := h
    rw [home?_setHome _ (matched.lt hs), hs]
    simp only [Option.some.injEq]
    rfl

theorem Matched.spill (matched : a.Matched) (s : Fin slotCount) :
  (a.spill s).2.Matched
  := by
  constructor
  · intro guest t
    rw [home?_spill matched, guestAt_spill]
    by_cases hst : s = t
    · subst hst
      simp only [if_true, reduceCtorEq, iff_false]
      split
      · simp
      · rename_i h
        rw [matched.home_iff]
        exact h
    · rw [if_neg hst, ← matched.home_iff guest t]
      split
      case isTrue h =>
        have hs := (matched.home_iff guest s).mpr h
        rw [hs]
        simp [hst]
      case isFalse => rfl
  · intro t
    rw [guestAt_spill]
    split
    · simp
    · exact matched.pos t
  · intro t
    rw [guestAt_spill, dirty_spill]
    split
    · simp
    · exact matched.clean t

/-- The code that empties a slot keeps the guest that is represented. -/
theorem Represents.spill (h : Represents env a p g) (matched : a.Matched) (s : Fin slotCount) :
  ∃ g', Runs env (a.spill s).1 p (p.withGuest g') ∧
    Represents env (a.spill s).2 (p.withGuest g') g
  := by
  -- Once the slot is in the register file, or was not newer than it, forgetting it is harmless.
  have hforget (g' : Guest) (rest : g'.withFile g.file = g)
      (filed : ∀ i : Fin 32, (∀ t, s ≠ t → a.guestAt t = some i.val → (a.slots.get t).dirty = false) →
        g'.file.get i = g.file.get i) :
      Represents env (a.spill s).2 (p.withGuest g') g := by
    refine ⟨h.base, rest, ?_, ?_⟩
    · intro t i ht
      rw [guestAt_spill] at ht
      split at ht
      · cases ht
      · exact h.held t i ht
    · intro i hi
      apply filed i
      intro t hst ht
      have := hi t (by rw [guestAt_spill, if_neg hst, ht])
      rwa [dirty_spill, if_neg hst] at this
  have hsame (clean : ∀ i, a.guestAt s = some i → (a.slots.get s).dirty = false) :
      Represents env (a.spill s).2 (p.withGuest p.guest) g := by
    apply hforget _ h.rest
    intro i hi
    apply h.filed
    intro t ht
    by_cases hst : s = t
    · subst hst
      exact clean i ht
    · exact hi t hst ht
  cases hs : a.guestAt s with
  | none =>
    have hcode : (a.spill s).1 = [] := by
      have hguest : a.slots[s].guest = none := hs
      simp only [Assignment.spill, hguest]
    rw [hcode]
    exact ⟨p.guest, Runs.nil, hsame (by simp [hs])⟩
  | some i =>
    have hcode : (a.spill s).1 = if a.slots[s].dirty then [writeBack s i] else [] := by
      have hguest : a.slots[s].guest = some i := hs
      simp only [Assignment.spill, hguest]
    rw [hcode]
    cases hdirty : a.slots[s].dirty with
    | false => exact ⟨p.guest, Runs.nil, hsame fun _ _ => hdirty⟩
    | true =>
      have hlt := matched.lt hs
      have hval := h.held s ⟨i, hlt⟩ hs
      use p.guest.withFile (p.guest.file.set i (p.reg (slotReg s)))
      constructor
      · exact Runs.single (Processor.execute_store h.base ⟨i, hlt⟩ (slotReg s))
      · refine hforget _ ?_ ?_
        · exact h.rest
        intro j hj
        rw [Guest.file_withFile, ← Vector.getElem_val, Vector.getElem_set]
        split
        case isTrue hij =>
          subst hij
          exact hval
        case isFalse hij =>
          apply h.filed
          intro t ht
          apply hj t _ ht
          rintro rfl
          rw [hs] at ht
          exact hij (Option.some.inj ht)

/-! ### Filling a slot -/

/-- An empty slot taken by a guest register that has none. -/
def occupy (a : Assignment) (s : Fin slotCount) (guest : Nat) : Assignment :=
  setHome
    { a with
      slots := a.slots.set s { guest := some guest, lastUse := a.clock } s.isLt
      pinned := a.pinned.set s true s.isLt }
    guest (some s)

theorem guestAt_occupy (a : Assignment) (s t : Fin slotCount) (guest : Nat) :
  (a.occupy s guest).guestAt t = if s = t then some guest else a.guestAt t
  := by
  simp only [occupy, guestAt, slots_setHome]
  exact guestAt_mk_set a a.homes a.pinned a.clock s t { guest := some guest, lastUse := a.clock }

theorem dirty_occupy (a : Assignment) (s t : Fin slotCount) (guest : Nat) :
  ((a.occupy s guest).slots.get t).dirty = if s = t then false else (a.slots.get t).dirty
  := by
  simp only [occupy, slots_setHome]
  exact dirty_set _ s t _

theorem pinned_occupy (a : Assignment) (s t : Fin slotCount) (guest : Nat) :
  (a.occupy s guest).pinned.get t = if s = t then true else a.pinned.get t
  := by
  rw [occupy, pinned_setHome, Vector.get_set]

theorem home?_occupy (a : Assignment) (s : Fin slotCount) {guest : Nat} (h : guest < 32) (i : Nat) :
  (a.occupy s guest).home? i = if guest = i then some s else a.home? i
  := by
  rw [occupy, home?_setHome _ h]
  rfl

theorem Matched.occupy (matched : a.Matched) {guest : Nat} (pos : 0 < guest) (lt : guest < 32)
    (free : a.guestAt s = none) (homeless : a.home? guest = none) :
  (a.occupy s guest).Matched
  := by
  have hnowhere : ∀ t, a.guestAt t ≠ some guest := by
    intro t ht
    rw [(matched.home_iff guest t).mpr ht] at homeless
    cases homeless
  constructor
  · intro i t
    rw [home?_occupy a s lt, guestAt_occupy]
    by_cases hi : guest = i
    · subst hi
      rw [if_pos rfl]
      by_cases hst : s = t
      · simp [hst]
      · simp [hst, hnowhere t]
    · rw [if_neg hi, matched.home_iff]
      by_cases hst : s = t
      · subst hst
        simp [free, hi]
      · simp [hst]
  · intro t
    rw [guestAt_occupy]
    split
    · simp only [ne_eq, Option.some.injEq]
      omega
    · exact matched.pos t
  · intro t
    rw [guestAt_occupy, dirty_occupy]
    split
    · simp
    · exact matched.clean t

/-- A guest register loaded into an empty slot. -/
theorem Represents.occupy (h : Represents env a p g) (i : Fin 32) (free : a.guestAt s = none) :
  Represents env (a.occupy s i) (p.setReg (slotReg s) (g.file.get i)) g
  := by
  refine ⟨?_, h.rest, ?_, ?_⟩
  · rw [p.reg_setReg_of_ne (slotReg_ne_stateReg s), h.base]
  · intro t j ht
    rw [guestAt_occupy] at ht
    by_cases hst : s = t
    · rw [if_pos hst, Option.some.injEq] at ht
      rw [hst, Processor.reg_setReg_self, Fin.ext ht]
    · rw [if_neg hst] at ht
      rw [p.reg_setReg_of_ne fun hr => hst (slotReg_injective hr), h.held t j ht]
  · intro j hj
    apply h.filed
    intro t ht
    have hst : s ≠ t := by
      rintro rfl
      rw [free] at ht
      cases ht
    have := hj t (by rw [guestAt_occupy, if_neg hst, ht])
    rwa [dirty_occupy, if_neg hst] at this

/-- The assignment after a new value was put into a slot. -/
def markDirty (a : Assignment) (s : Fin slotCount) : Assignment :=
  { a with slots := a.slots.set s { a.slots.get s with dirty := true } s.isLt }

theorem guestAt_markDirty (a : Assignment) (s : Fin slotCount) :
  (a.markDirty s).guestAt = a.guestAt
  := by
  funext t
  rw [markDirty, guestAt_mk_set]
  split
  case isTrue hst => rw [hst]; rfl
  case isFalse => rfl

theorem dirty_markDirty (a : Assignment) (s t : Fin slotCount) :
  ((a.markDirty s).slots.get t).dirty = if s = t then true else (a.slots.get t).dirty
  := dirty_set _ s t _

theorem Matched.markDirty (matched : a.Matched) (held : a.guestAt s ≠ none) :
  (a.markDirty s).Matched
  := by
  constructor
  · rw [guestAt_markDirty]
    exact matched.home_iff
  · rw [guestAt_markDirty]
    exact matched.pos
  · intro t ht
    rw [guestAt_markDirty] at ht
    rw [dirty_markDirty, if_neg]
    · exact matched.clean t ht
    · rintro rfl
      exact held ht

/-- A guest register set through its slot. -/
theorem Represents.markDirty (h : Represents env a p g) (matched : a.Matched) {i : Nat}
    (held : a.guestAt s = some i) (v : Word) :
  Represents env (a.markDirty s) (p.setReg (slotReg s) v) (g.put i v)
  := by
  have hlt := matched.lt held
  have hpos : 0 < i := Nat.pos_of_ne_zero fun hzero => matched.pos s (by rw [held, hzero])
  have hput := g.put_eq_withFile hpos hlt v
  rw [hput]
  refine ⟨?_, ?_, ?_, ?_⟩
  · rw [p.reg_setReg_of_ne (slotReg_ne_stateReg s), h.base]
  · conv_rhs => rw [← h.rest]
    rfl
  · intro t j ht
    rw [guestAt_markDirty] at ht
    rw [Guest.file_withFile, ← Vector.getElem_val, Vector.getElem_set]
    by_cases hst : s = t
    · subst hst
      rw [held, Option.some.injEq] at ht
      rw [if_pos ht, Processor.reg_setReg_self]
    · rw [p.reg_setReg_of_ne fun hr => hst (slotReg_injective hr), h.held t j ht, if_neg]
      · rfl
      · intro hij
        have hs := (matched.home_iff i s).mpr held
        have ht' := (matched.home_iff i t).mpr (by rw [ht, hij])
        rw [hs] at ht'
        exact hst (Option.some.inj ht')
  · intro j hj
    have hne : i ≠ j := by
      intro hij
      have := hj s (by rw [guestAt_markDirty, held, hij])
      rw [dirty_markDirty, if_pos rfl] at this
      cases this
    rw [Guest.file_withFile, ← Vector.getElem_val, ← Vector.getElem_val, Vector.getElem_set_ne _ _ hne]
    apply h.filed
    intro t ht
    have hst : s ≠ t := by
      rintro rfl
      rw [held, Option.some.injEq] at ht
      exact hne ht
    have := hj t (by rw [guestAt_markDirty, ht])
    rwa [dirty_markDirty, if_neg hst] at this

/-! ### Choosing a slot -/

/-- The number of slots that the current instruction uses. -/
def pins (a : Assignment) : Nat :=
  (Finset.univ.filter fun s : Fin slotCount => a.pinned.get s = true).card

theorem pins_le_of_subset {s : Fin slotCount}
    (h : ∀ t : Fin slotCount, b.pinned.get t = true → s = t ∨ a.pinned.get t = true) :
  b.pins ≤ a.pins + 1
  := by
  apply Nat.le_trans (Finset.card_le_card _) (Finset.card_insert_le s _)
  intro t ht
  obtain rfl | ht := h t (Finset.mem_filter.mp ht).2
  · apply Finset.mem_insert_self
  · apply Finset.mem_insert_of_mem
    simpa using ht

theorem exists_unpinned (h : a.pins < slotCount) :
  ∃ s : Fin slotCount, a.pinned.get s = false
  := by
  by_contra hall
  simp only [not_exists, Bool.not_eq_false] at hall
  have hcard : a.pins = slotCount := by
    rw [pins, Finset.filter_true_of_mem fun s _ => hall s]
    rfl
  omega

/-- Going through a list and keeping one of its elements finds one. -/
theorem foldl_pick {α : Type} (step : Option α → α → Option α)
    (next : ∀ b s, step (some b) s = some s ∨ step (some b) s = some b) (l : List α) (best : α) :
  ∃ s, l.foldl step (some best) = some s ∧ (s = best ∨ s ∈ l)
  := by
  induction l generalizing best with
  | nil => exact ⟨best, rfl, .inl rfl⟩
  | cons x l ih =>
    rw [List.foldl_cons]
    obtain hx | hbest := next best x
    · obtain ⟨s, hs, hin⟩ := ih x
      rw [hx]
      exact ⟨s, hs, .inr (List.mem_cons.mpr hin)⟩
    · obtain ⟨s, hs, hin⟩ := ih best
      rw [hbest]
      exact ⟨s, hs, hin.imp_right (List.mem_cons_of_mem x)⟩

/-- A slot that is not in use is found if there is one. -/
theorem victim?_spec (h : ∃ s : Fin slotCount, a.pinned.get s = false) :
  ∃ s, a.victim? = some s ∧ a.pinned.get s = false
  := by
  obtain ⟨t, ht⟩ := h
  have hmem : t ∈ Host.slots.filter fun s => !a.pinned[s] := by
    apply List.mem_filter.mpr
    exact ⟨List.mem_finRange t, congrArg not ht⟩
  rw [victim?]
  cases hl : Host.slots.filter fun s => !a.pinned[s] with
  | nil =>
    rw [hl] at hmem
    cases hmem
  | cons x l =>
    rw [List.foldl_cons]
    have hunused (s : Fin slotCount) (hin : s = x ∨ s ∈ l) : a.pinned.get s = false := by
      have hin : s ∈ x :: l := List.mem_cons.mpr hin
      rw [← hl] at hin
      simpa [Vector.getElem_val] using (List.mem_filter.mp hin).2
    refine Exists.imp (fun s hs => ⟨hs.1, hunused s hs.2⟩) (foldl_pick _ ?_ l x)
    intro b s
    dsimp only
    split <;> simp

/-- A slot that may be filled: it holds nothing, or is not in use. -/
def Available (a : Assignment) (s : Fin slotCount) : Prop :=
  a.guestAt s = none ∨ a.pinned.get s = false

/-- A slot for a guest register that has none is found while one is available. -/
theorem allocate_spec (matched : a.Matched) (room : ∃ s, a.Available s) (guest : Nat) :
  ∃ s code b, a.allocate guest = .ok (s, code, b.occupy s guest) ∧ b.Matched ∧
    b.guestAt s = none ∧ a.Available s ∧ b.pinned = a.pinned ∧
    (∀ t, s ≠ t → b.guestAt t = a.guestAt t) ∧
    ∀ env p g, Represents env a p g →
      ∃ g', Runs env code p (p.withGuest g') ∧ Represents env b (p.withGuest g') g
  := by
  cases hfree : a.freeSlot? with
  | some s =>
    have hguest : a.guestAt s = none := by
      simpa [guestAt, Vector.getElem_val] using List.find?_some hfree
    use s, [], a
    refine ⟨?_, matched, hguest, .inl hguest, rfl, fun _ _ => rfl, ?_⟩
    · simp only [allocate, hfree]
      rfl
    · intro env p g h
      exact ⟨p.guest, Runs.nil, h⟩
  | none =>
    have hunpinned : ∃ s : Fin slotCount, a.pinned.get s = false := by
      obtain ⟨s, hguest | hunused⟩ := room
      · have hheld := List.find?_eq_none.mp hfree s (List.mem_finRange s)
        exact absurd (Option.isNone_iff_eq_none.mpr hguest) hheld
      · exact ⟨s, hunused⟩
    obtain ⟨s, hs, hunused⟩ := victim?_spec hunpinned
    use s, (a.spill s).1, (a.spill s).2
    refine ⟨?_, matched.spill s, ?_, .inr hunused, pinned_spill a s, ?_, ?_⟩
    · simp only [allocate, hfree, hs]
      rfl
    · rw [guestAt_spill, if_pos rfl]
    · intro t hst
      rw [guestAt_spill, if_neg hst]
    · intro env p g h
      exact h.spill matched s

/-! ### Reading and writing guest registers -/

theorem guestAt_touch (a : Assignment) (s : Fin slotCount) :
  (a.touch s).guestAt = a.guestAt
  := by
  funext t
  rw [touch, guestAt_mk_set]
  split
  case isTrue hst => rw [hst]; rfl
  case isFalse => rfl

theorem dirty_touch (a : Assignment) (s t : Fin slotCount) :
  ((a.touch s).slots.get t).dirty = (a.slots.get t).dirty
  := by
  rw [touch, dirty_set]
  split
  case isTrue hst => rw [hst]; rfl
  case isFalse => rfl

theorem pinned_touch (a : Assignment) (s t : Fin slotCount) :
  (a.touch s).pinned.get t = if s = t then true else a.pinned.get t
  := by
  rw [touch, Vector.get_set]

theorem Matched.touch (matched : a.Matched) (s : Fin slotCount) :
  (a.touch s).Matched
  := by
  constructor
  · rw [guestAt_touch]
    exact matched.home_iff
  · rw [guestAt_touch]
    exact matched.pos
  · intro t ht
    rw [guestAt_touch] at ht
    rw [dirty_touch]
    exact matched.clean t ht

/-- An assignment after a slot was given to a guest register and taken into use. -/
structure Gives (a : Assignment) (s : Fin slotCount) (i : Nat) (b : Assignment) : Prop where
  matched : b.Matched
  guest : b.guestAt s = some i
  others : ∀ t, s ≠ t → b.guestAt t = a.guestAt t
  pinned : ∀ t : Fin slotCount, b.pinned.get t = if s = t then true else a.pinned.get t
  /-- The slot was that of the guest register before, or could be filled. -/
  given : a.guestAt s = some i ∨ a.Available s

/-- Touching the slot of a guest register. -/
theorem Matched.gives_touch (matched : a.Matched) {i : Nat} (held : a.guestAt s = some i) :
  Gives a s i (a.touch s)
  := by
  refine ⟨matched.touch s, ?_, fun t _ => ?_, pinned_touch a s, .inl held⟩
  · rw [guestAt_touch, held]
  · rw [guestAt_touch]

/-- Filling an empty slot, which was emptied for that if need be. -/
theorem Matched.gives_occupy (matched : b.Matched) {i : Nat} (pos : 0 < i) (lt : i < 32)
    (homeless : a.home? i = none) (matched' : a.Matched) (free : b.guestAt s = none)
    (available : a.Available s) (pinned : b.pinned = a.pinned)
    (others : ∀ t, s ≠ t → b.guestAt t = a.guestAt t) :
  Gives a s i (b.occupy s i) ∧ b.home? i = none
  := by
  have hhome : b.home? i = none := by
    cases h : b.home? i with
    | none => rfl
    | some t =>
      have ht := (matched.home_iff i t).mp h
      by_cases hst : s = t
      · rw [← hst, free] at ht
        cases ht
      · rw [others t hst, ← matched'.home_iff, homeless] at ht
        cases ht
  refine ⟨⟨matched.occupy pos lt free hhome, ?_, fun t hst => ?_, fun t => ?_, .inr available⟩, hhome⟩
  · rw [guestAt_occupy, if_pos rfl]
  · rw [guestAt_occupy, if_neg hst, others t hst]
  · rw [pinned_occupy, pinned]

/-- Marking a slot that was given to a guest register. -/
theorem Gives.markDirty {i : Nat} (h : Gives a s i b) :
  Gives a s i (b.markDirty s)
  := by
  refine ⟨h.matched.markDirty (by simp [h.guest]), ?_, fun t hst => ?_, h.pinned, h.given⟩
  · rw [guestAt_markDirty, h.guest]
  · rw [guestAt_markDirty, h.others t hst]

/-- The value of a guest register is brought into a host register, and other registers keep their
values. -/
theorem use_gives (matched : a.Matched) {i : Nat} (room : a.home? i = none → ∃ s, a.Available s)
    (pos : 0 < i) (lt : i < 32) :
  ∃ s code b, a.use i = .ok (slotReg s, code, b) ∧ Gives a s i b ∧
    ∀ env p g, Represents env a p g → ∃ q, Runs env code p q ∧ Represents env b q g ∧
      q.reg (slotReg s) = g.value i ∧
      ∀ r, (r = slotReg s → a.guestAt s = some i) → q.reg r = p.reg r
  := by
  cases hhome : a.home? i with
  | some s =>
    have hguest := (matched.home_iff i s).mp hhome
    use s, [], a.touch s
    refine ⟨?_, matched.gives_touch hguest, ?_⟩
    · rw [use, if_neg (Nat.ne_of_gt pos), home_eq a lt, hhome]
      rfl
    · intro env p g h
      refine ⟨p, Runs.nil, h.congr (guestAt_touch a s) (dirty_touch a s), ?_, fun _ _ => rfl⟩
      rw [g.value_eq_file pos lt]
      exact h.held s ⟨i, lt⟩ hguest
  | none =>
    obtain ⟨s, code, b, halloc, hmatched, hfree, havailable, hpinned, hothers, hruns⟩ :=
      allocate_spec matched (room hhome) i
    obtain ⟨hgives, hhome'⟩ :=
      hmatched.gives_occupy pos lt hhome matched hfree havailable hpinned hothers
    use s, code ++ [.load true (slotReg s) stateReg (regOffset i)], b.occupy s i
    refine ⟨?_, hgives, ?_⟩
    · rw [use, if_neg (Nat.ne_of_gt pos), home_eq a lt, hhome]
      simp only [Except.ok_bind, halloc]
      rfl
    · intro env p g h
      obtain ⟨g', hrun, hrep⟩ := hruns env p g h
      have hfiled : (p.withGuest g').guest.file.get ⟨i, lt⟩ = g.file.get ⟨i, lt⟩ := by
        apply hrep.filed
        intro t ht
        rw [(hmatched.home_iff i t).mpr ht] at hhome'
        cases hhome'
      refine ⟨_, hrun.append (Runs.single (Processor.execute_load hrep.base ⟨i, lt⟩ _)), ?_, ?_, ?_⟩
      · rw [hfiled]
        exact hrep.occupy ⟨i, lt⟩ hfree
      · rw [Processor.reg_setReg_self, g.value_eq_file pos lt]
        exact hfiled
      · intro r hr
        apply Processor.reg_setReg_of_ne
        rintro rfl
        rw [(matched.home_iff i s).mpr (hr rfl)] at hhome
        cases hhome

/-- A host register is found for a new value of a guest register. -/
theorem define_gives (matched : a.Matched) {i : Nat} (room : a.home? i = none → ∃ s, a.Available s)
    (pos : 0 < i) (lt : i < 32) :
  ∃ s code b, a.define i = .ok (slotReg s, code, b) ∧ Gives a s i b ∧
    ∀ env p g, Represents env a p g → ∃ g', Runs env code p (p.withGuest g') ∧
      ∀ v, Represents env b ((p.withGuest g').setReg (slotReg s) v) (g.put i v)
  := by
  cases hhome : a.home? i with
  | some s =>
    have hgives := matched.gives_touch ((matched.home_iff i s).mp hhome)
    use s, [], (a.touch s).markDirty s
    refine ⟨?_, hgives.markDirty, ?_⟩
    · rw [define, if_neg (Nat.ne_of_gt pos), home_eq a lt, hhome]
      rfl
    · intro env p g h
      refine ⟨p.guest, Runs.nil, fun v => ?_⟩
      exact (h.congr (guestAt_touch a s) (dirty_touch a s)).markDirty hgives.matched hgives.guest v
  | none =>
    obtain ⟨s, code, b, halloc, hmatched, hfree, havailable, hpinned, hothers, hruns⟩ :=
      allocate_spec matched (room hhome) i
    obtain ⟨hgives, -⟩ :=
      hmatched.gives_occupy pos lt hhome matched hfree havailable hpinned hothers
    use s, code, (b.occupy s i).markDirty s
    refine ⟨?_, hgives.markDirty, ?_⟩
    · rw [define, if_neg (Nat.ne_of_gt pos), home_eq a lt, hhome]
      simp only [Except.ok_bind, halloc]
      rfl
    · intro env p g h
      obtain ⟨g', hrun, hrep⟩ := hruns env p g h
      refine ⟨g', hrun, fun v => ?_⟩
      have := (hrep.occupy ⟨i, lt⟩ hfree).markDirty hgives.matched hgives.guest v
      rwa [Processor.setReg_setReg] at this

/-! ### Slots in use that hold something -/

/-- An assignment after the slot of a guest register was taken into use. -/
structure Takes (a : Assignment) (s : Fin slotCount) (guest : Nat) (b : Assignment) : Prop where
  wellFormed : b.WellFormed
  guest : b.guestAt s = some guest
  pinned : ∀ t : Fin slotCount, b.pinned.get t = if s = t then true else a.pinned.get t

theorem Takes.pins_le {guest : Nat} (h : Takes a s guest b) :
  b.pins ≤ a.pins + 1
  := by
  apply pins_le_of_subset (s := s)
  intro t ht
  rw [h.pinned] at ht
  split at ht
  case isTrue hst => exact .inl hst
  case isFalse => exact .inr ht

theorem Takes.keeps {guest : Nat} (h : Takes a s guest b) :
  b.Keeps (slotReg s)
  := by
  intro t ht
  rw [h.pinned, if_pos (slotReg_injective ht)]

theorem Takes.keeps_of_keeps {guest : Nat} (h : Takes a s guest b) {r : Reg} (kept : a.Keeps r) :
  b.Keeps r
  := by
  intro t ht
  rw [h.pinned, kept t ht]
  split <;> rfl

theorem Gives.takes {guest : Nat} (h : Gives a s guest b) (wf : a.WellFormed) :
  Takes a s guest b
  := by
  refine ⟨⟨h.matched, fun t ht => ?_⟩, h.guest, h.pinned⟩
  rw [h.pinned] at ht
  split at ht
  case isTrue hst => simp [← hst, h.guest]
  case isFalse hst =>
    rw [h.others t hst]
    exact wf.inUse t ht

/-- A slot in use is given to the guest register in it only. -/
theorem Gives.guestAt_of_pinned {guest : Nat} (h : Gives a s guest b) (wf : a.WellFormed)
    (used : a.pinned.get s = true) :
  a.guestAt s = some guest
  := by
  obtain held | free | unused := h.given
  · exact held
  · exact absurd free (wf.inUse s used)
  · cases used.symm.trans unused

/-- The value of a guest register is brought into a host register, and registers in use keep their
values. -/
theorem use_spec (wf : a.WellFormed) (room : a.pins < slotCount) {i : Nat} (pos : 0 < i)
    (lt : i < 32) :
  ∃ s code b, a.use i = .ok (slotReg s, code, b) ∧ Takes a s i b ∧
    ∀ env p g, Represents env a p g → ∃ q, Runs env code p q ∧ Represents env b q g ∧
      q.reg (slotReg s) = g.value i ∧ ∀ r, a.Keeps r → q.reg r = p.reg r
  := by
  obtain ⟨t, ht⟩ := exists_unpinned room
  obtain ⟨s, code, b, huse, hgives, hruns⟩ :=
    use_gives wf.toMatched (fun _ => ⟨t, .inr ht⟩) pos lt
  refine ⟨s, code, b, huse, hgives.takes wf, fun env p g h => ?_⟩
  obtain ⟨q, hrun, hrep, hval, hkeeps⟩ := hruns env p g h
  refine ⟨q, hrun, hrep, hval, fun r hr => hkeeps r fun hrs => ?_⟩
  exact hgives.guestAt_of_pinned wf (hr s hrs)

/-- A host register is found for a new value of a guest register. -/
theorem define_spec (wf : a.WellFormed) (room : a.pins < slotCount) {i : Nat} (pos : 0 < i)
    (lt : i < 32) :
  ∃ s code b, a.define i = .ok (slotReg s, code, b) ∧ Takes a s i b ∧
    ∀ env p g, Represents env a p g → ∃ g', Runs env code p (p.withGuest g') ∧
      ∀ v, Represents env b ((p.withGuest g').setReg (slotReg s) v) (g.put i v)
  := by
  obtain ⟨t, ht⟩ := exists_unpinned room
  obtain ⟨s, code, b, hdefine, hgives, hruns⟩ :=
    define_gives wf.toMatched (fun _ => ⟨t, .inr ht⟩) pos lt
  exact ⟨s, code, b, hdefine, hgives.takes wf, hruns⟩

/-! ### Writing back -/

/-- The code that writes back the newer of the given slots. -/
def syncCode (a : Assignment) (ss : List (Fin slotCount)) : List Instr :=
  ss.filterMap fun s =>
    match (a.slots.get s).guest with
    | some i => if (a.slots.get s).dirty then some (writeBack s i) else none
    | none => none

/-- After slots were written back, the register file has every guest register that it had before
and those of the slots. -/
theorem runs_syncCode (matched : a.Matched) (ss : List (Fin slotCount))
    (base : p.reg stateReg = env.state) (rest : p.guest.withFile g.file = g)
    (held : ∀ s (i : Fin 32), a.guestAt s = some i.val → p.reg (slotReg s) = g.file.get i) :
  ∃ g', Runs env (a.syncCode ss) p (p.withGuest g') ∧ g'.withFile g.file = g ∧
    ∀ i : Fin 32, (p.guest.file.get i = g.file.get i ∨
      ∃ s ∈ ss, a.guestAt s = some i.val ∧ (a.slots.get s).dirty = true) → g'.file.get i = g.file.get i
  := by
  induction ss generalizing p with
  | nil =>
    refine ⟨p.guest, Runs.nil, rest, fun i hi => ?_⟩
    obtain hi | ⟨s, hs, -⟩ := hi
    · exact hi
    · cases hs
  | cons s ss ih =>
    by_cases hs : ∃ i, a.guestAt s = some i ∧ (a.slots.get s).dirty = true
    · obtain ⟨i, hguest, hdirty⟩ := hs
      have hlt := matched.lt hguest
      have hcode : a.syncCode (s :: ss) = writeBack s i :: a.syncCode ss := by
        have hslot : (a.slots.get s).guest = some i := hguest
        simp only [syncCode, List.filterMap_cons, hslot, hdirty, if_true]
      have hstore := Processor.execute_store base ⟨i, hlt⟩ (slotReg s)
      have hval := held s ⟨i, hlt⟩ hguest
      obtain ⟨g', hrun, hrest, hfile⟩ := ih (p := p.withGuest (p.guest.withFile
        (p.guest.file.set i (p.reg (slotReg s))))) base rest held
      refine ⟨g', ?_, hrest, fun j hj => hfile j ?_⟩
      · rw [hcode]
        exact Runs.cons hstore hrun
      · rw [Processor.guest_withGuest, Guest.file_withFile, ← Vector.getElem_val, Vector.getElem_set]
        by_cases hij : i = j
        · subst hij
          rw [if_pos rfl]
          exact .inl hval
        · rw [if_neg hij]
          obtain hj | ⟨t, ht, htj, htd⟩ := hj
          · exact .inl hj
          · obtain rfl | ht := List.mem_cons.mp ht
            · rw [hguest, Option.some.injEq] at htj
              exact False.elim (hij htj)
            · exact .inr ⟨t, ht, htj, htd⟩
    · have hcode : a.syncCode (s :: ss) = a.syncCode ss := by
        rw [syncCode, List.filterMap_cons]
        split
        · rfl
        case h_2 h =>
          split at h
          case h_1 i hguest =>
            split at h
            case isTrue hdirty => exact False.elim (hs ⟨i, hguest, hdirty⟩)
            case isFalse => cases h
          case h_2 => cases h
      obtain ⟨g', hrun, hrest, hfile⟩ := ih base rest held
      refine ⟨g', by rw [hcode]; exact hrun, hrest, fun j hj => hfile j ?_⟩
      obtain hj | ⟨t, ht, htj, htd⟩ := hj
      · exact .inl hj
      · obtain rfl | ht := List.mem_cons.mp ht
        · exact False.elim (hs ⟨j, htj, htd⟩)
        · exact .inr ⟨t, ht, htj, htd⟩

theorem guestAt_sync (a : Assignment) :
  a.sync.2.guestAt = a.guestAt
  := by
  funext s
  simp only [sync, guestAt, ← Vector.getElem_val, Vector.getElem_map]
  split <;> rfl

theorem dirty_sync (matched : a.Matched) (s : Fin slotCount) :
  (a.sync.2.slots.get s).dirty = false
  := by
  simp only [sync, ← Vector.getElem_val, Vector.getElem_map]
  split
  · rfl
  case isFalse h => exact matched.clean s (by simpa [guestAt, Vector.getElem_val] using h)

@[simp]
theorem pinned_sync (a : Assignment) :
  a.sync.2.pinned = a.pinned
  := rfl

theorem Matched.sync (matched : a.Matched) :
  a.sync.2.Matched
  := by
  constructor
  · rw [guestAt_sync]
    exact matched.home_iff
  · rw [guestAt_sync]
    exact matched.pos
  · intro s _
    exact dirty_sync matched s

theorem WellFormed.sync (wf : a.WellFormed) :
  a.sync.2.WellFormed
  := by
  refine ⟨wf.toMatched.sync, ?_⟩
  rw [guestAt_sync]
  exact wf.inUse

/-- After writing back, the register file is that of the guest that is represented. -/
theorem Represents.sync (h : Represents env a p g) (matched : a.Matched) :
  Runs env a.sync.1 p (p.withGuest g) ∧ Represents env a.sync.2 (p.withGuest g) g
  := by
  obtain ⟨g', hrun, hrest, hfile⟩ := runs_syncCode matched Host.slots h.base h.rest h.held
  have hsame : g' = g := by
    have hvec : g'.file = g.file := by
      apply Vector.ext
      intro i hi
      apply hfile ⟨i, hi⟩
      by_cases hclean : ∀ s, a.guestAt s = some i → (a.slots.get s).dirty = false
      · exact .inl (h.filed ⟨i, hi⟩ hclean)
      · simp only [not_forall, Bool.not_eq_false] at hclean
        obtain ⟨s, hs, hdirty⟩ := hclean
        exact .inr ⟨s, List.mem_finRange s, hs, hdirty⟩
    rw [← hrest, ← hvec, Guest.withFile_file]
  rw [hsame] at hrun
  refine ⟨hrun, h.base, rfl, ?_, fun _ _ => rfl⟩
  rw [guestAt_sync]
  exact h.held

/-- Nothing is newer than the register file. -/
def Clean (a : Assignment) : Prop :=
  ∀ s : Fin slotCount, (a.slots.get s).dirty = false

theorem Matched.clean_sync (matched : a.Matched) :
  a.sync.2.Clean
  := dirty_sync matched

/-- If nothing is newer, the guest of the processor is the one that it represents. -/
theorem Represents.guest_eq (h : Represents env a p g) (clean : a.Clean) :
  p.guest = g
  := by
  have hfile : p.guest.file = g.file := by
    apply Vector.ext
    intro i hi
    exact h.filed ⟨i, hi⟩ fun s _ => clean s
  rw [← h.rest, ← hfile, Guest.withFile_file]

theorem invalidate_of_clean (clean : a.Clean) :
  a.invalidate = .ok { clock := a.clock }
  := by
  have hclean : a.slots.any (·.dirty) = false := by
    apply Bool.eq_false_iff.mpr
    intro hany
    obtain ⟨i, hi, hdirty⟩ := Vector.any_iff_exists.mp hany
    have := clean ⟨i, hi⟩
    simp only [← Vector.getElem_val] at this
    rw [this] at hdirty
    cases hdirty
  rw [invalidate, hclean]
  rfl

theorem invalidate_sync (matched : a.Matched) :
  a.sync.2.invalidate = .ok { clock := a.clock }
  := invalidate_of_clean matched.clean_sync

/-! ### Starting -/

theorem guestAt_empty (clock : Nat) (s : Fin slotCount) :
  guestAt { clock } s = none
  := by
  simp [guestAt]

/-- An assignment of nothing. -/
theorem WellFormed.empty (clock : Nat) :
  WellFormed { clock }
  := by
  refine ⟨⟨?_, ?_, ?_⟩, ?_⟩
  · intro guest s
    rw [guestAt_empty, home?]
    by_cases h : guest < 32 <;> simp [h]
  · intro s
    rw [guestAt_empty]
    simp
  · intro s _
    simp
  · intro s hs
    simp at hs

/-- With an assignment of nothing a processor represents its guest. -/
theorem Represents.empty (base : p.reg stateReg = env.state) (clock : Nat) :
  Represents env { clock } p p.guest
  := by
  refine ⟨base, rfl, ?_, fun _ _ => rfl⟩
  intro s i hs
  rw [guestAt_empty] at hs
  cases hs

theorem WellFormed.beginInstr (wf : a.WellFormed) :
  a.beginInstr.WellFormed
  := by
  refine ⟨⟨wf.home_iff, wf.pos, wf.clean⟩, ?_⟩
  intro s hs
  simp [Assignment.beginInstr] at hs

theorem pins_beginInstr (a : Assignment) :
  a.beginInstr.pins = 0
  := by
  simp [pins, beginInstr]

theorem Represents.beginInstr (h : Represents env a p g) :
  Represents env a.beginInstr p g
  := h.congr rfl fun _ => rfl

end Assignment

end CrossHart.Host
