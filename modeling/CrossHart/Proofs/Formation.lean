import CrossHart.Proofs.Isa.Decoded
import CrossHart.Proofs.Outcome
import CrossHart.Block

/-!
# Formed blocks

The instructions of a block that was formed follow one another in memory, and the last of them is
the only one that can end the block.
-/

namespace CrossHart.Block

open Isa

/-- Instructions that follow one another from an address as in a block with an ending, and the
address behind them. -/
inductive IsRun : Word → List Located → Ending → Word → Prop
  | last {d : Located} (decoded : d.IsDecoded) (ends : d.instr.endsBlock = true) :
    IsRun d.pc [d] (.ofInstr d.instr) d.next
  | limit {d : Located} (decoded : d.IsDecoded) (ends : d.instr.endsBlock = false) :
    IsRun d.pc [d] .limit d.next
  | cons {d : Located} {ds : List Located} {e : Ending} {stop : Word} (decoded : d.IsDecoded)
      (ends : d.instr.endsBlock = false) (rest : IsRun d.next ds e stop) :
    IsRun d.pc (d :: ds) e stop

/-- A block as it is formed. -/
def IsFormed (b : Block) : Prop :=
  IsRun b.pc b.insns b.ending b.endPc

namespace IsRun

variable {pc stop : Word} {ds : List Located} {e : Ending}

theorem length_pos (h : IsRun pc ds e stop) :
  0 < ds.length
  := by
  cases h <;> exact Nat.zero_lt_succ _

theorem getLast (h : IsRun pc ds e stop) :
  ∃ d, ds.getLast? = some d ∧ d.next = stop
  := by
  induction h with
  | last => exact ⟨_, rfl, rfl⟩
  | limit => exact ⟨_, rfl, rfl⟩
  | cons _ _ rest ih =>
    obtain ⟨d, hd, hnext⟩ := ih
    refine ⟨d, ?_, hnext⟩
    rw [List.getLast?_cons, hd]
    rfl

theorem isFormed (h : IsRun pc ds e stop) :
  IsFormed ⟨pc, ds, e⟩
  := by
  obtain ⟨d, hd, hnext⟩ := h.getLast
  have hstop : endPc ⟨pc, ds, e⟩ = stop := by
    rw [endPc, hd]
    exact hnext
  rw [IsFormed, hstop]
  exact h

end IsRun

section

variable {σ : Type} {fetch : Word → Action σ Memory.Fault Half} {s s' : σ}

theorem isDecoded_of_readInstr {pc : Word} {d : Located}
    (h : (readInstr fetch pc).on s = .ok (.ok d, s')) :
  d.IsDecoded ∧ d.pc = pc
  := by
  obtain ⟨raw, t, -, h⟩ := Action.on_bind_eq_ok.mp h
  split at h
  case h_1 hdecode =>
    cases h
    exact ⟨hdecode, rfl⟩
  case h_2 => cases h

/-- What reading instructions for a block does with the first of them. -/
theorem on_collect_eq_ok {n : Nat} {pc : Word} {before ds : List Located} {e : Ending}
    (h : (collect fetch n pc before).on s = .ok (.ok (ds, e), s')) :
  ∃ d t, (readInstr fetch pc).on s = .ok (.ok d, t) ∧
    if d.instr.endsBlock then ds = before.reverse ++ [d] ∧ e = .ofInstr d.instr
    else match n with
      | 0 => ds = before.reverse ++ [d] ∧ e = .limit
      | n + 1 => (collect fetch n d.next (d :: before)).on t = .ok (.ok (ds, e), s')
  := by
  unfold collect at h
  obtain ⟨d, t, hread, h⟩ := Action.on_bind_eq_ok.mp h
  refine ⟨d, t, hread, ?_⟩
  cases hends : d.instr.endsBlock with
  | true =>
    rw [hends] at h
    cases h
    exact ⟨List.reverse_cons, rfl⟩
  | false =>
    rw [hends] at h
    cases n with
    | zero =>
      cases h
      exact ⟨List.reverse_cons, rfl⟩
    | succ n => exact h

/-- What reading instructions for a block does: the first cannot be read, or it is the last, or others
follow. -/
theorem on_collect_cases {n : Nat} {pc : Word} {before : List Located}
    {r : Except CompileError (List Located × Ending)}
    (h : (collect fetch n pc before).on s = .ok (r, s')) :
  (∃ e, (readInstr fetch pc).on s = .ok (.error e, s') ∧ r = .error e) ∨
  ∃ d t, (readInstr fetch pc).on s = .ok (.ok d, t) ∧
    ((s' = t ∧ ∃ e, r = .ok ((d :: before).reverse, e)) ∨
      ∃ k < n, (collect fetch k d.next (d :: before)).on t = .ok (r, s'))
  := by
  unfold collect at h
  rw [Action.on_bind] at h
  split at h
  case h_1 d t hread =>
    refine .inr ⟨d, t, hread, ?_⟩
    split at h
    · cases h
      exact .inl ⟨rfl, _, rfl⟩
    · cases n with
      | zero =>
        cases h
        exact .inl ⟨rfl, _, rfl⟩
      | succ n => exact .inr ⟨n, Nat.lt_succ_self n, h⟩
  case h_2 e t hread =>
    cases h
    exact .inl ⟨e, hread, rfl⟩
  case h_3 => cases h

/-- What is read for a block runs on from where its reading started. -/
theorem isRun_of_collect {n : Nat} {pc : Word} {before ds : List Located} {e : Ending}
    (h : (collect fetch n pc before).on s = .ok (.ok (ds, e), s')) :
  ∃ ds' stop, ds = before.reverse ++ ds' ∧ IsRun pc ds' e stop
  := by
  induction n generalizing pc before s with
  | zero =>
    obtain ⟨d, t, hread, h⟩ := on_collect_eq_ok h
    obtain ⟨hdecoded, rfl⟩ := isDecoded_of_readInstr hread
    split at h
    case isTrue hends =>
      obtain ⟨rfl, rfl⟩ := h
      exact ⟨[d], d.next, rfl, .last hdecoded hends⟩
    case isFalse hends =>
      obtain ⟨rfl, rfl⟩ := h
      exact ⟨[d], d.next, rfl, .limit hdecoded (Bool.eq_false_iff.mpr hends)⟩
  | succ n ih =>
    obtain ⟨d, t, hread, h⟩ := on_collect_eq_ok h
    obtain ⟨hdecoded, rfl⟩ := isDecoded_of_readInstr hread
    split at h
    case isTrue hends =>
      obtain ⟨rfl, rfl⟩ := h
      exact ⟨[d], d.next, rfl, .last hdecoded hends⟩
    case isFalse hends =>
      obtain ⟨ds', stop, rfl, hrun⟩ := ih h
      refine ⟨d :: ds', stop, ?_, .cons hdecoded (Bool.eq_false_iff.mpr hends) hrun⟩
      rw [List.reverse_cons, List.append_assoc]
      rfl

theorem isFormed_of_form {pc : Word} {limit : Nat} {b : Block}
    (h : (form fetch pc limit).on s = .ok (.ok b, s')) :
  b.IsFormed ∧ b.pc = pc
  := by
  obtain ⟨⟨ds, e⟩, t, hcollect, h⟩ := Action.on_bind_eq_ok.mp h
  obtain ⟨ds', stop, rfl, hrun⟩ := isRun_of_collect hcollect
  cases h
  exact ⟨hrun.isFormed, rfl⟩

end

/-- A block is one that was formed, from whatever was fetched. -/
def WasFormed (b : Block) : Prop :=
  ∃ (σ : Type) (fetch : Word → Action σ Memory.Fault Half) (s s' : σ) (pc : Word) (limit : Nat),
    (form fetch pc limit).on s = .ok (.ok b, s')

theorem WasFormed.isFormed {b : Block} (h : b.WasFormed) :
  b.IsFormed
  := by
  obtain ⟨_, _, _, _, _, _, h⟩ := h
  exact (isFormed_of_form h).1

end CrossHart.Block
