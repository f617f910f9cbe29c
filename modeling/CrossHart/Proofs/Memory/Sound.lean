import CrossHart.Proofs.Hart.Steps
import CrossHart.Proofs.Memory.Fetch
import CrossHart.Proofs.Memory.Freshness

/-!
# Memory that no access crashes

Whatever a policy answers and whatever devices there are, an access has a result as long as RAM and
regions are in whole pages and the entries of the lookaside table have the backings of their pages.
Accesses keep this.
-/

namespace CrossHart.Memory

open CrossHart.Action

/-- The entries of a table, current or not, have the backings of their pages. -/
def Lookaside.Backed (s : Space) (t : Lookaside) : Prop :=
  ∀ (i : Fin slotCount) e, t.entries.get i = some e → ∀ addr, pageOf addr = e.page →
    s.resolve addr = some e.backing

/-- RAM and regions are in whole pages, and what is kept of pages are their backings. -/
structure Sound (m : Memory) : Prop where
  aligned : m.space.Aligned
  whole : m.space.ram.size % pageSize = 0
  backed : m.lookaside.Backed m.space

variable {m : Memory} {s s' : Space}

theorem Guarded.sound {allows : Query → Bool} (guarded : m.Guarded allows) :
  m.Sound
  := by
  constructor
  · exact guarded.aligned
  · exact guarded.whole
  · intro i e he addr hpage
    exact (guarded.truthful i e he addr hpage).1

/-- Memory that was not used yet is sound. -/
theorem sound_unused {policy : Policy} (aligned : s.Aligned) (whole : s.ram.size % pageSize = 0) :
  Sound { space := s, policy }
  := by
  refine ⟨aligned, whole, fun i e he => ?_⟩
  simp at he

/-! ### Translations -/

namespace Lookaside

variable {t t' : Lookaside} {p p' : Policy} {addr : Word} {access : Access}
  {r : Except Fault Backing}

theorem Backed.entry? (backed : t.Backed s) {e : Entry} (h : t.entry? (pageOf addr) = some e) :
  s.resolve addr = some e.backing
  := by
  obtain ⟨he, hpage, -⟩ := entry?_eq_some.mp h
  exact backed _ e he addr hpage.symm

theorem Backed.fill (backed : t.Backed s) {b : Backing} (resolve : s.resolve addr = some b)
    (rights : Rights) :
  (t.fill (pageOf addr) b rights).Backed s
  := by
  intro i e he addr' hpage
  rw [entries_fill] at he
  split at he
  case isTrue =>
    cases he
    rw [s.resolve_congr hpage]
    exact resolve
  case isFalse => exact backed i e he addr' hpage

/-- A translation keeps the backings of pages, and finds the one of its own page. -/
theorem Backed.translates (backed : t.Backed s) (aligned : s.Aligned)
    (h : Translates t s p addr access r t' p') :
  t'.Backed s ∧ ∀ b, r = .ok b → ∃ page, s.resolve addr = some page ∧ b = page.plus (inPage addr)
  := by
  cases h with
  | hit entry _ shift =>
    have hresolve := backed.entry? entry
    refine ⟨backed, fun b hb => ⟨_, hresolve, ?_⟩⟩
    cases hb
    exact Except.ok.inj (shift.symm.trans (aligned.shift_eq hresolve))
  | refused => exact ⟨backed, nofun⟩
  | unmapped => exact ⟨backed, nofun⟩
  | denied => exact ⟨backed, nofun⟩
  | filled _ resolve _ shift =>
    refine ⟨Backed.fill backed resolve _, fun b hb => ⟨_, resolve, ?_⟩⟩
    cases hb
    exact Except.ok.inj (shift.symm.trans (aligned.shift_eq resolve))

end Lookaside

/-- A translation has a result, and keeps memory sound. -/
theorem Sound.locate (sound : m.Sound) (addr : Word) (access : Access) :
  Meets True ((locate addr access).on m) fun r => r.2.Sound ∧ r.2.space = m.space ∧
    ∀ b, r.1 = .ok b → ∃ page, m.space.resolve addr = some page ∧ b = page.plus (inPage addr)
  := by
  obtain ⟨t, s, p⟩ := m
  obtain ⟨aligned, whole, backed⟩ := sound
  dsimp only at aligned whole backed
  have hmeets := Lookaside.locate_translates t s p addr access
  obtain ⟨⟨r, t', p'⟩, hr, htranslates⟩ := hmeets.exists_ok
    ⟨fun e he => ⟨_, aligned.shift_eq (backed.entry? he)⟩, fun b hb => ⟨_, aligned.shift_eq hb⟩⟩
  obtain ⟨backed', hfound⟩ := backed.translates aligned htranslates
  rw [Memory.locate, on_of]
  dsimp only
  rw [hr]
  exact .ok ⟨⟨aligned, whole, backed'⟩, rfl, hfound⟩

/-! ### Accesses within one page -/

theorem Sound.of_sameLayout {t : Lookaside} {p : Policy} (sound : Sound ⟨t, s, p⟩)
    (h : s.SameLayout s') :
  Sound ⟨t, s', p⟩
  := by
  refine ⟨h.aligned sound.aligned, ?_, fun i e he addr hpage => ?_⟩
  · rw [h.size]
    exact sound.whole
  · rw [h.resolve]
    exact sound.backed i e he addr hpage

/-- There are so many bytes at a place. -/
def Space.Fits (s : Space) (size : Nat) : Backing → Prop
  | .ram position => size ≤ 8 ∧ position + size ≤ s.ram.size
  | .device region _ => region < s.regions.length

/-- An access within a page that has a backing stays within the backing. -/
theorem Sound.fits (sound : m.Sound) {addr : Word} {page : Backing} {size : Nat}
    (resolve : m.space.resolve addr = some page) (small : size ≤ 8)
    (inside : straddles addr size = false) :
  m.space.Fits size (page.plus (inPage addr))
  := by
  have hlt := Space.Places.lt_of_not_straddles inside
  have hwhole := sound.whole
  unfold Space.resolve at resolve
  dsimp only at resolve
  split at resolve
  case isTrue hram =>
    cases resolve
    obtain ⟨-, hsize⟩ := Bool.and_eq_true_iff.mp hram
    rw [decide_eq_true_eq] at hsize
    have hmod := toNat_pageStart_sub_mod sound.aligned.base addr
    refine ⟨small, ?_⟩
    rw [toNat_inPage]
    simp only [pageSize] at *
    omega
  case isFalse =>
    obtain ⟨i, -, resolve⟩ := Option.bind_eq_some_iff.mp resolve
    obtain ⟨r, hr, rfl⟩ := Option.map_eq_some_iff.mp resolve
    exact (List.getElem?_eq_some_iff.mp hr).1

/-- A translation has a result, which lies within RAM if it is in RAM. -/
theorem Sound.exists_locate (sound : m.Sound) (addr : Word) (access : Access) :
  ∃ r m', (Memory.locate addr access).on m = .ok (r, m') ∧
    ∀ position, r = .ok (.ram position) → position < m.space.ram.size
  := by
  obtain ⟨⟨r, m'⟩, hlocate, -, -, hfound⟩ := (sound.locate addr access).exists_ok trivial
  refine ⟨r, m', hlocate, ?_⟩
  rintro position rfl
  obtain ⟨page, hresolve, hposition⟩ := hfound (.ram position) rfl
  have hfits : m.space.Fits 1 (page.plus (inPage addr)) :=
    sound.fits hresolve (by decide) (not_straddles_one addr)
  rw [← hposition] at hfits
  exact hfits.2

theorem Space.Fits.read {b : Backing} {size : Nat} (fits : s.Fits size b) :
  ∃ r, s.read b size = .ok r
  := by
  cases b with
  | ram position => exact ⟨_, if_pos fits⟩
  | device i offset =>
    obtain ⟨r, hr⟩ : ∃ r, s.regions[i]? = some r := ⟨_, List.getElem?_eq_getElem fits⟩
    rw [Space.read, hr]
    exact ⟨_, rfl⟩

theorem Space.Fits.write {b : Backing} {size : Nat} (fits : s.Fits size b) (value : Word) :
  ∃ s', s.write b size value = .ok s'
  := by
  obtain ⟨ram, base, regions⟩ := s
  cases b with
  | ram position => exact ⟨_, if_pos fits⟩
  | device i offset =>
    obtain ⟨r, hr⟩ : ∃ r, regions[i]? = some r := ⟨_, List.getElem?_eq_getElem fits⟩
    rw [Space.write, hr]
    exact ⟨_, rfl⟩

theorem Sound.readAt (sound : m.Sound) {b : Backing} {size : Nat} (fits : m.space.Fits size b) :
  Meets True ((readAt b size).on m) fun r => r.2.Sound
  := by
  obtain ⟨t, s, p⟩ := m
  obtain ⟨⟨v, s'⟩, hread⟩ := fits.read
  have hlayout := (s.read_sameLayout b size).post_of_eq hread
  rw [Memory.readAt, on_of]
  dsimp only at hread ⊢
  rw [hread]
  exact .ok (sound.of_sameLayout hlayout)

theorem Sound.writeAt (sound : m.Sound) {b : Backing} {size : Nat} (fits : m.space.Fits size b)
    (value : Word) :
  Meets True ((writeAt b size value).on m) fun r => r.2.Sound
  := by
  obtain ⟨t, s, p⟩ := m
  obtain ⟨s', hwrite⟩ := fits.write value
  have hlayout := (s.write_sameLayout b size value).post_of_eq hwrite
  rw [Memory.writeAt, on_of]
  dsimp only at hwrite ⊢
  rw [hwrite]
  exact .ok (sound.of_sameLayout hlayout)

/-! ### Accesses -/

/-- Memory stays sound. -/
def StaysSound (m m' : Memory) : Prop :=
  m.Sound ∧ m'.Sound

theorem Sound.stays (sound : m.Sound) :
  StaysSound m m
  := ⟨sound, sound⟩

theorem isCourse_staysSound :
  IsCourse StaysSound
  := ⟨fun _ _ _ h h' => ⟨h.1, h'.2⟩, fun _ _ h => h.2.stays⟩

/-- What follows a translation happens within the backing of a page. -/
theorem sound_locate_bind {α : Type} {addr : Word} {access : Access} {size : Nat} (small : size ≤ 8)
    (inside : straddles addr size = false) {f : Backing → Action Memory Fault α}
    (h : ∀ m b, m.Sound → m.space.Fits size b → Meets True ((f b).on m) fun r => r.2.Sound) :
  Stays StaysSound (Memory.locate addr access >>= f)
  := by
  rintro m ⟨sound, -⟩
  obtain ⟨⟨r, m'⟩, hr, sound', hspace, hfound⟩ := (sound.locate addr access).exists_ok trivial
  dsimp only at sound' hspace hfound
  rw [on_bind, hr]
  cases r with
  | error e => exact .ok ⟨sound, sound'⟩
  | ok b =>
    obtain ⟨page, hresolve, rfl⟩ := hfound b rfl
    have hfits := sound.fits hresolve small inside
    rw [← hspace] at hfits
    exact (h m' _ sound' hfits).imp fun _ hsound => ⟨sound, hsound⟩

theorem sound_locate (addr : Word) (access : Access) :
  Stays StaysSound (locate addr access)
  := fun _ h => (h.1.locate addr access).imp fun _ hr => ⟨h.1, hr.1⟩

theorem sound_read (addr : Word) {size : Nat} (small : size ≤ 8) (access : Access) :
  Stays StaysSound (read addr size access)
  := by
  refine stays_read_of isCourse_staysSound (fun addr size small inside => ?_) addr small
  exact sound_locate_bind small inside fun m b sound fits => sound.readAt fits

theorem sound_store (addr : Word) {size : Nat} (small : size ≤ 8) (value : Word) :
  Stays StaysSound (store addr size value)
  := by
  refine stays_store_of isCourse_staysSound (fun addr => sound_locate addr .write)
    (fun addr size value small inside => ?_) addr small value
  exact sound_locate_bind small inside fun m b sound fits => sound.writeAt fits value

/-- Loads and stores go through, and keep memory sound. -/
theorem isRoutine_staysSound :
  IsRoutine StaysSound
  := by
  constructor
  · exact isCourse_staysSound
  · exact sound_locate
  · exact fun addr _ small => sound_read addr small .read
  · exact fun addr _ v small => sound_store addr small v

theorem sound_fetch (pc : Word) :
  Stays StaysSound (fetch pc)
  := (sound_read pc (by decide) .execute).bind isCourse_staysSound fun _ => .pure _

end CrossHart.Memory
