import CrossHart.Proofs.Memory.Lookaside
import CrossHart.Userland.Segments

/-!
# The rights of pages

Ranges of addresses are given rights one after the other.  A page has the rights of the last range with a
byte on it, and a page without such a range can be read and written.  Ranges are rounded to whole pages,
their starts down and their ends up, so there is one exception: a range without bytes that starts inside
a page counts for that page.
-/

namespace CrossHart.Userland

open Memory (Access Query pageSize pageOf inPage)

/-! ### The last one with a property -/

section IsLast

variable {α : Type} {P Q : α → Prop} {l : List α} {a : α}

/-- An element is the last one of a list with a property. -/
def IsLast (P : α → Prop) (l : List α) (a : α) : Prop :=
  ∃ before after, l = before ++ a :: after ∧ P a ∧ ∀ b ∈ after, ¬P b

theorem IsLast.congr (h : IsLast P l a) (same : ∀ b ∈ l, (P b ↔ Q b)) :
  IsLast Q l a
  := by
  obtain ⟨before, after, rfl, ha, hafter⟩ := h
  refine ⟨before, after, rfl, (same a (by simp)).mp ha, fun b hb hQ => ?_⟩
  exact hafter b hb ((same b (by simp [hb])).mpr hQ)

theorem isLast_cons {b : α} (h : IsLast P (b :: l) a) :
  IsLast P l a ∨ (∀ c ∈ l, ¬P c) ∧ P b ∧ a = b
  := by
  obtain ⟨before, after, hl, ha, hafter⟩ := h
  cases before with
  | nil =>
    cases hl
    exact .inr ⟨hafter, ha, rfl⟩
  | cons c before =>
    cases hl
    exact .inl ⟨before, after, rfl, ha, hafter⟩

/-- The last one is also the last one of those with another property. -/
theorem IsLast.filter {p : α → Bool} (h : IsLast (fun b => p b = true ∧ P b) l a) :
  IsLast P (l.filter p) a
  := by
  obtain ⟨before, after, rfl, ⟨hp, ha⟩, hafter⟩ := h
  refine ⟨before.filter p, after.filter p, ?_, ha, fun b hb hP => ?_⟩
  · rw [List.filter_append, List.filter_cons_of_pos hp]
  · obtain ⟨hb, hp⟩ := List.mem_filter.mp hb
    exact hafter b hb ⟨hp, hP⟩

/-- The last one is found first from the end. -/
theorem isLast_iff_find? {p : α → Bool} :
  IsLast (p · = true) l a ↔ l.reverse.find? p = some a
  := by
  rw [List.find?_eq_some_iff_append]
  constructor
  · rintro ⟨before, after, rfl, ha, hafter⟩
    refine ⟨ha, after.reverse, before.reverse, by simp, fun b hb => ?_⟩
    simpa using hafter b (List.mem_reverse.mp hb)
  · rintro ⟨ha, after, before, hl, hafter⟩
    refine ⟨before.reverse, after.reverse, ?_, ha, fun b hb => ?_⟩
    · rw [← List.reverse_reverse l, hl]
      simp
    · simpa using hafter b (List.mem_reverse.mp hb)

end IsLast

/-! ### Ranges of addresses -/

/-- A range of addresses with rights. -/
structure Mapping where
  vaddr : Word
  len : Word
  flags : BitVec 32
  deriving DecidableEq, Repr

namespace Mapping

/-- A range ends at an address. -/
def InBounds (g : Mapping) : Prop :=
  g.vaddr.toNat + g.len.toNat < Word.count

instance (g : Mapping) : Decidable g.InBounds :=
  inferInstanceAs (Decidable (_ < _))

/-- A range has a byte on a page. -/
def OnPage (g : Mapping) (page : Word) : Prop :=
  ∃ addr : Word, g.vaddr.toNat ≤ addr.toNat ∧ addr.toNat < g.vaddr.toNat + g.len.toNat ∧
    pageOf addr = page

/-- A range has no bytes, but starts inside a page. -/
def Hollow (g : Mapping) (page : Word) : Prop :=
  g.len = 0 ∧ inPage g.vaddr ≠ 0 ∧ pageOf g.vaddr = page

/-- A range in whole pages. -/
def segment (g : Mapping) : Segment where
  firstPage := g.vaddr.toNat / pageSize
  endPage := Size.roundUp (g.vaddr.toNat + g.len.toNat) pageSize / pageSize
  flags := g.flags

/-- The pages of a segment are those with a byte of the range, and the page inside which an empty range
starts. -/
theorem mem_segment_iff {g : Mapping} (inBounds : g.InBounds) (page : Word) :
  g.segment.firstPage ≤ page.toNat ∧ page.toNat < g.segment.endPage ↔ g.OnPage page ∨ g.Hollow page
  := by
  have hpage (addr : Word) : pageOf addr = page ↔ addr.toNat / 4096 = page.toNat := by
    rw [← BitVec.toNat_inj, Memory.pageOf, BitVec.toNat_ushiftRight, Nat.shiftRight_eq_div_pow]
  unfold OnPage Hollow segment InBounds Size.roundUp at *
  dsimp only
  unfold pageSize
  constructor
  · rintro ⟨hfirst, hend⟩
    by_cases hlen : g.len.toNat = 0
    case pos =>
      have hinside : g.vaddr.toNat % 4096 ≠ 0 := by omega
      refine .inr ⟨BitVec.eq_of_toNat_eq hlen, fun h => hinside ?_, (hpage _).mpr (by omega)⟩
      rw [← Memory.toNat_inPage, h]
      rfl
    -- The first byte of the range on the page is its start or the start of the page.
    have hlt : max g.vaddr.toNat (page.toNat * 4096) < Word.count := by omega
    refine .inl ⟨BitVec.ofNat 64 (max g.vaddr.toNat (page.toNat * 4096)), ?_⟩
    rw [hpage, BitVec.toNat_ofNat, Nat.mod_eq_of_lt hlt]
    omega
  · rintro (⟨addr, hstart, hstop, haddr⟩ | ⟨hlen, hinside, haddr⟩)
    · rw [hpage] at haddr
      omega
    · rw [hpage] at haddr
      have hne : g.vaddr.toNat % 4096 ≠ 0 := by
        rw [← Memory.toNat_inPage]
        exact fun h => hinside (BitVec.eq_of_toNat_eq h)
      omega

end Mapping

namespace Segments

/-- Adding ranges one after the other. -/
def addAll : List Mapping → Segments → Except Crash Segments
  | [], s => .ok s
  | g :: rest, s => do addAll rest (← s.add g.vaddr g.len g.flags)

theorem add_eq_ok {g : Mapping} (inBounds : g.InBounds) (s : Segments) :
  s.add g.vaddr g.len g.flags = .ok { s with segments := g.segment :: s.segments }
  := by
  have hstop : g.vaddr.toNat + g.len.toNat < Word.count := inBounds
  rw [add, Word.sum, if_pos hstop, Except.ok_bind, BitVec.toNat_add_of_lt hstop]
  rfl

theorem addAll_eq_ok {added : List Mapping} (inBounds : ∀ g ∈ added, g.InBounds) (s : Segments) :
  addAll added s = .ok { s with segments := (added.map Mapping.segment).reverse ++ s.segments }
  := by
  induction added generalizing s with
  | nil => rfl
  | cons g rest ih =>
    obtain ⟨hg, hrest⟩ := List.forall_mem_cons.mp inBounds
    rw [addAll, add_eq_ok hg, Except.ok_bind, ih hrest]
    simp

/-- A page allows what the last range that counts for it allows, and without such a range it allows
reading and writing. -/
def Obeys (s : Segments) (counts : Mapping → Word → Prop) (added : List Mapping) : Prop :=
  ∀ history (q : Query), s.policy.answer history q = true ↔
    (∃ g, IsLast (counts · q.page) added g ∧ g.flags &&& Segment.flagOf q.access ≠ 0) ∨
    (∀ g ∈ added, ¬counts g q.page) ∧ (q.access = .read ∨ q.access = .write)

theorem Obeys.congr {s : Segments} {counts counts' : Mapping → Word → Prop} {added : List Mapping}
    (h : s.Obeys counts added) (same : ∀ g ∈ added, ∀ page, counts g page ↔ counts' g page) :
  s.Obeys counts' added
  := by
  intro history q
  have hsame (g : Mapping) (hg : g ∈ added) : counts g q.page ↔ counts' g q.page := same g hg q.page
  rw [h history q]
  refine or_congr (exists_congr fun g => and_congr_left fun _ => ?_) (and_congr_left fun _ => ?_)
  · exact ⟨fun hlast => hlast.congr hsame, fun hlast => hlast.congr fun b hb => (hsame b hb).symm⟩
  · exact forall₂_congr fun g hg => not_congr (hsame g hg)

/-- Segments obey the rule of the last one with a page, from the end of the list. -/
theorem obeys_segments (added : List Mapping) :
  Obeys { segments := (added.map Mapping.segment).reverse }
    (fun g page => g.segment.firstPage ≤ page.toNat ∧ page.toNat < g.segment.endPage) added
  := by
  intro history q
  let onPage (g : Mapping) : Bool :=
    decide (g.segment.firstPage ≤ q.page.toNat ∧ q.page.toNat < g.segment.endPage)
  have honPage (g : Mapping) : onPage g = true ↔
      g.segment.firstPage ≤ q.page.toNat ∧ q.page.toNat < g.segment.endPage := decide_eq_true_iff
  have hfind : (added.map Mapping.segment).reverse.find?
      (fun g => g.firstPage ≤ q.page.toNat ∧ q.page.toNat < g.endPage) =
        (added.reverse.find? onPage).map Mapping.segment := by
    rw [← List.map_reverse, List.find?_map]
    rfl
  simp only [policy, Memory.Policy.ofFun, allows, flags, hfind, ← honPage, isLast_iff_find?,
    decide_eq_true_iff]
  cases hlast : added.reverse.find? onPage with
  | none =>
    have hnone (g : Mapping) (hg : g ∈ added) : ¬onPage g = true :=
      List.find?_eq_none.mp hlast g (List.mem_reverse.mpr hg)
    have hflags : (Segment.readFlag ||| Segment.writeFlag) &&& Segment.flagOf q.access ≠ 0 ↔
        q.access = .read ∨ q.access = .write := by
      cases q.access <;> decide
    refine hflags.trans ⟨fun h => .inr ⟨hnone, h⟩, ?_⟩
    rintro (⟨g, hg, -⟩ | ⟨-, h⟩)
    · cases hg
    · exact h
  | some g =>
    have hg : g ∈ added := List.mem_reverse.mp (List.mem_of_find?_eq_some hlast)
    have hon : onPage g = true := List.find?_some hlast
    constructor
    · exact fun h => .inl ⟨g, rfl, h⟩
    · rintro (⟨_, ⟨⟩, h⟩ | ⟨h, -⟩)
      · exact h
      · exact absurd hon (h g hg)

end Segments

open Segments

/-- The rights of pages follow the ranges that were added.  A page allows an access if the last range with
a byte on it has the flag of the access, and without such a range if the access is not execution.  This is
so if every range has bytes or starts at a page boundary; a range without bytes that starts inside a
page counts for that page as if it had a byte there. -/
theorem rights_follow_mappings (added : List Mapping) (inBounds : ∀ g ∈ added, g.InBounds) :
  ∃ s, addAll added {} = .ok s ∧
    s.Obeys (fun g page => g.OnPage page ∨ g.Hollow page) added ∧
    ((∀ g ∈ added, g.len = 0 → inPage g.vaddr = 0) → s.Obeys Mapping.OnPage added)
  := by
  refine ⟨_, addAll_eq_ok inBounds {}, ?_⟩
  rw [List.append_nil]
  have hobeys := (obeys_segments added).congr fun g hg => Mapping.mem_segment_iff (inBounds g hg)
  refine ⟨hobeys, fun hfull => hobeys.congr fun g hg page => or_iff_left ?_⟩
  rintro ⟨hlen, hinside, -⟩
  exact hinside (hfull g hg hlen)

/-- Code, data on the page where the code ends, and an empty range at the start of the code. -/
def codeAndData : List Mapping :=
  [⟨0x10000, 0x1800, 5⟩, ⟨0x11800, 0x10, 6⟩, ⟨0x10000, 0, 6⟩]

/-- The first page of the code is not written, the page of the data is not executed, and behind them is
no range. -/
theorem rights_follow_codeAndData :
  ∃ s, addAll codeAndData {} = .ok s ∧ s.Obeys Mapping.OnPage codeAndData ∧
    s.allows ⟨0x10, .execute⟩ = true ∧ s.allows ⟨0x10, .write⟩ = false ∧
    s.allows ⟨0x11, .write⟩ = true ∧ s.allows ⟨0x11, .execute⟩ = false ∧
    s.allows ⟨0x12, .read⟩ = true ∧ s.allows ⟨0x12, .execute⟩ = false
  := by
  obtain ⟨s, hs, -, hobeys⟩ := rights_follow_mappings codeAndData (by decide)
  refine ⟨s, hs, hobeys (by decide), ?_⟩
  obtain ⟨⟩ := hs
  decide

/-- Code, and an empty range inside its first page. -/
def codeAndNothing : List Mapping :=
  [⟨0x10000, 0x1800, 5⟩, ⟨0x10800, 0, 6⟩]

/-- The empty range lets the code be written. -/
theorem rights_of_codeAndNothing :
  ∃ s, addAll codeAndNothing {} = .ok s ∧ s.allows ⟨0x10, .write⟩ = true ∧
    ¬s.Obeys Mapping.OnPage codeAndNothing
  := by
  refine ⟨_, addAll_eq_ok (by decide) {}, by decide, fun hobeys => ?_⟩
  have hcode : Mapping.OnPage ⟨0x10000, 0x1800, 5⟩ 0x10 := ⟨0x10000, by decide⟩
  have hnothing : ¬Mapping.OnPage ⟨0x10800, 0, 6⟩ 0x10 := by
    rintro ⟨addr, hstart, hstop, -⟩
    exact absurd hstop (Nat.not_lt.mpr hstart)
  obtain ⟨g, ⟨before, after, hadded, hon, -⟩, hflag⟩ | ⟨hnone, -⟩ := (hobeys [] ⟨0x10, .write⟩).mp (by decide)
  · have hg : g ∈ codeAndNothing := by
      rw [hadded]
      exact List.mem_append_right _ (.head _)
    simp only [codeAndNothing, List.mem_cons, List.not_mem_nil, or_false] at hg
    obtain rfl | rfl := hg
    · exact hflag (by decide)
    · exact hnothing hon
  · exact hnone _ (.head _) hcode

end CrossHart.Userland
