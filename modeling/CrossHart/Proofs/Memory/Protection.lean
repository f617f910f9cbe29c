import CrossHart.Proofs.Memory.Sound

/-!
# Pages that may not be written

Under a policy that does not change its mind, no access changes a byte of RAM on a page that may not be
written, whatever devices there are.
-/

namespace CrossHart.Memory

open CrossHart.Action

variable {allows : Query → Bool} {m m' : Memory}

theorem Sound.guarded (sound : m.Sound) (honest : m.Honest allows) :
  m.Guarded allows
  := ⟨honest, sound.whole⟩

/-- Memory after accesses: what may not be written is as before. -/
structure Protects (allows : Query → Bool) (m m' : Memory) : Prop where
  before : m.Guarded allows
  after : m'.Guarded allows
  layout : m.space.SameLayout m'.space
  kept : ∀ addr, allows ⟨pageOf addr, .write⟩ = false → m'.space.byteAt addr = m.space.byteAt addr

theorem isCourse_protects (allows : Query → Bool) :
  IsCourse (Protects allows)
  := by
  constructor
  · intro m m' m'' h h'
    refine ⟨h.before, h'.after, h.layout.trans h'.layout, fun addr denied => ?_⟩
    rw [h'.kept addr denied, h.kept addr denied]
  · intro m m' h
    exact ⟨h.after, h.after, .refl _, fun _ _ => rfl⟩

theorem Guarded.of_space_eq (guarded : m.Guarded allows) (honest : m'.Honest allows)
    (space : m'.space = m.space) :
  Protects allows m m'
  := by
  refine ⟨guarded, ⟨honest, ?_⟩, ?_, fun addr _ => ?_⟩
  · rw [space]
    exact guarded.whole
  · rw [space]
    exact .refl _
  · rw [space]

theorem Guarded.protects (guarded : m.Guarded allows) :
  Protects allows m m
  := guarded.of_space_eq guarded.toHonest rfl

/-! ### Accesses within one page -/

theorem protects_locate (addr : Word) (access : Access) :
  Stays (Protects allows) (locate addr access)
  := by
  intro m h
  obtain ⟨m', hm', honest, hspace⟩ := h.before.toHonest.locate addr access
  exact .of_eq hm' (h.before.of_space_eq honest hspace)

/-- What follows a translation happens within the backing of a page that may be accessed. -/
theorem protects_locate_bind {α : Type} {addr : Word} {access : Access}
    {f : Backing → Action Memory Fault α}
    (h : ∀ m page, m.Guarded allows → m.space.resolve addr = some page →
      allows ⟨pageOf addr, access⟩ = true →
      Meets True ((f (page.plus (inPage addr))).on m) fun r => Protects allows m r.2) :
  Stays (Protects allows) (Memory.locate addr access >>= f)
  := by
  intro m hm
  obtain ⟨m', hm', honest, hspace⟩ := hm.before.toHonest.locate addr access
  have hlater := hm.before.of_space_eq honest hspace
  rw [on_bind, hm']
  cases htranslate : m.space.translate allows addr access with
  | error e => exact .ok hlater
  | ok b =>
    obtain ⟨hallowed, page, hresolve, rfl⟩ := Space.resolve_of_translate htranslate
    rw [← hspace] at hresolve
    refine (h m' page hlater.after hresolve hallowed).imp fun r hr => ?_
    exact (isCourse_protects allows).trans m m' r.2 hlater hr

/-- Reading changes no byte of RAM; what it does to a device is seen in no other place. -/
theorem Space.read_ram (s : Space) (b : Backing) (size : Nat) :
  Meets False (s.read b size) fun r => r.2.ram = s.ram
  := by
  unfold Space.read
  cases b with
  | ram position =>
    dsimp only
    split
    · exact .ok rfl
    · exact not_false
  | device i offset =>
    dsimp only
    split
    · exact not_false
    · exact .ok rfl

theorem Guarded.readAt (guarded : m.Guarded allows) {b : Backing} {size : Nat}
    (fits : m.space.Fits size b) :
  Meets True ((readAt b size).on m) fun r => Protects allows m r.2
  := by
  obtain ⟨t, s, p⟩ := m
  obtain ⟨⟨v, s'⟩, hread⟩ := fits.read
  have hlayout := (s.read_sameLayout b size).post_of_eq hread
  have hram := (s.read_ram b size).post_of_eq hread
  dsimp only at hread hlayout hram
  rw [Memory.readAt, on_of]
  dsimp only
  rw [hread]
  refine .ok ⟨guarded, ⟨guarded.toHonest.of_sameLayout hlayout, ?_⟩, hlayout, fun addr _ => ?_⟩
  · dsimp only
    rw [hram]
    exact guarded.whole
  · unfold Space.byteAt
    dsimp only
    rw [hram, hlayout.base]

theorem Guarded.writeAt (guarded : m.Guarded allows) {addr : Word} {page : Backing} {size : Nat}
    (resolve : m.space.resolve addr = some page) (small : size ≤ 8)
    (inside : straddles addr size = false) (allowed : allows ⟨pageOf addr, .write⟩ = true)
    (value : Word) :
  Meets True ((writeAt (page.plus (inPage addr)) size value).on m) fun r => Protects allows m r.2
  := by
  obtain ⟨t, s, p⟩ := m
  dsimp only at resolve
  have hfits : s.Fits size (page.plus (inPage addr)) := guarded.sound.fits resolve small inside
  obtain ⟨s', hwrite⟩ := hfits.write value
  have hlayout := (s.write_sameLayout _ size value).post_of_eq hwrite
  have hkept (addr' : Word) (denied : allows ⟨pageOf addr', .write⟩ = false) :
      s'.byteAt addr' = s.byteAt addr' := by
    obtain ⟨ram, base, regions⟩ := s
    cases hplace : page.plus (inPage addr) with
    | ram position =>
      rw [hplace, Space.write] at hwrite
      split at hwrite
      case isFalse => cases hwrite
      case isTrue =>
        cases hwrite
        have hplaces := Space.places_of_resolve guarded.aligned.base guarded.whole resolve hplace
        refine hplaces.byteAt_overwrite_of_ne ?_ fun hpage => ?_
        · rw [Bytes.ofWord, Bytes.length_littleEndian]
          exact inside
        · rw [hpage, allowed] at denied
          cases denied
    | device i offset =>
      rw [hplace, Space.write] at hwrite
      split at hwrite
      case h_1 => cases hwrite
      case h_2 =>
        cases hwrite
        rfl
  rw [Memory.writeAt, on_of]
  dsimp only
  rw [hwrite]
  refine .ok ⟨guarded, ⟨guarded.toHonest.of_sameLayout hlayout, ?_⟩, hlayout, hkept⟩
  dsimp only
  rw [hlayout.size]
  exact guarded.whole

/-! ### Accesses -/

theorem protects_read (addr : Word) {size : Nat} (small : size ≤ 8) (access : Access) :
  Stays (Protects allows) (read addr size access)
  := by
  refine stays_read_of (isCourse_protects allows) (fun addr size small inside => ?_) addr small
  apply protects_locate_bind
  intro m page guarded resolve _
  exact guarded.readAt (guarded.sound.fits resolve small inside)

theorem protects_store (addr : Word) {size : Nat} (small : size ≤ 8) (value : Word) :
  Stays (Protects allows) (store addr size value)
  := by
  refine stays_store_of (isCourse_protects allows) (fun addr => protects_locate addr .write)
    (fun addr size value small inside => ?_) addr small value
  apply protects_locate_bind
  intro m page guarded resolve allowed
  exact guarded.writeAt resolve small inside allowed value

/-- Loads and stores go through, and keep what may not be written. -/
theorem isRoutine_protects (allows : Query → Bool) :
  IsRoutine (Protects allows)
  := by
  constructor
  · exact isCourse_protects allows
  · exact protects_locate
  · exact fun addr _ small => protects_read addr small .read
  · exact fun addr _ v small => protects_store addr small v

theorem protects_fetch (pc : Word) :
  Stays (Protects allows) (fetch pc)
  := (protects_read pc (by decide) .execute).bind (isCourse_protects allows) fun _ => .pure _

end CrossHart.Memory
