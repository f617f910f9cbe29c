import CrossHart.Proofs.Memory.Lookaside

/-!
# Memory without devices

Where there are no devices and RAM is in whole pages, no access crashes.  Loads and fetches leave RAM
as it is, and stores change only bytes of pages that may be written.
-/

namespace CrossHart

/-! ### Actions that go through -/

namespace Action

variable {σ ε ε' α β : Type} {T T' : σ → σ → Prop}

/-- A relation from a state to later ones.  A state in which one can start is related to itself. -/
structure IsCourse (T : σ → σ → Prop) : Prop where
  trans : ∀ s t u, T s t → T t u → T s u
  settled : ∀ s t, T s t → T t t

/-- From a state in which it can start, an action has a result and leads to a later state. -/
def Stays (T : σ → σ → Prop) (a : Action σ ε α) : Prop :=
  ∀ s, T s s → Meets True (a.on s) fun r => T s r.2

namespace Stays

theorem pure (x : α) :
  Stays T (Pure.pure x : Action σ ε α)
  := fun _ h => .ok h

theorem throw (e : ε) :
  Stays T (throw e : Action σ ε α)
  := fun _ h => .ok h

theorem bind (course : IsCourse T) {a : Action σ ε α} {f : α → Action σ ε β} (h : Stays T a)
    (hf : ∀ x, Stays T (f x)) :
  Stays T (a >>= f)
  := by
  intro s hs
  rw [on_bind]
  obtain ⟨⟨r, t⟩, hr, ht⟩ := (h s hs).exists_ok trivial
  rw [hr]
  cases r with
  | error e => exact .ok ht
  | ok x => exact (hf x t (course.settled s t ht)).imp fun r hr => course.trans s t r.2 ht hr

theorem map (course : IsCourse T) (f : α → β) {a : Action σ ε α} (h : Stays T a) :
  Stays T (f <$> a)
  := by
  rw [map_eq_pure_bind]
  exact h.bind course fun x => pure (f x)

theorem discard (course : IsCourse T) {a : Action σ ε α} (h : Stays T a) :
  Stays T (Functor.discard a)
  := by
  rw [Functor.discard, map_const]
  exact h.map course _

theorem imp {a : Action σ ε α} (h : Stays T a) (himp : ∀ s t, T s t → T' s t)
    (start : ∀ s, T' s s → T s s) :
  Stays T' a
  := fun s hs => (h s (start s hs)).imp fun r hr => himp s r.2 hr

end Stays

theorem on_adapt (f : ε → ε') (a : Action σ ε α) (s : σ) :
  Action.on (ExceptT.adapt f a) s = (a.on s).map fun r => (r.1.mapError f, r.2)
  := by
  change (StateT.run (Except.mapError f <$> a.run) s) = _
  rw [StateT.run_map]
  change (fun r : Except ε α × σ => (Except.mapError f r.1, r.2)) <$> a.on s = _
  cases a.on s with
  | error c => rfl
  | ok r => rfl

theorem on_of_adapt {f : ε → ε'} {a : Action σ ε α} {s t : σ} {x : α}
    (h : Action.on (ExceptT.adapt f a) s = .ok (.ok x, t)) :
  a.on s = .ok (.ok x, t)
  := by
  rw [on_adapt] at h
  cases hr : a.on s with
  | error c =>
    rw [hr] at h
    cases h
  | ok r =>
    obtain ⟨y, u⟩ := r
    rw [hr] at h
    cases y <;> cases h
    rfl

theorem Stays.adapt (f : ε → ε') {a : Action σ ε α} (h : Stays T a) :
  Stays T (ExceptT.adapt f a : Action σ ε' α)
  := by
  intro s hs
  obtain ⟨r, hr, ht⟩ := (h s hs).exists_ok trivial
  rw [on_adapt, hr]
  exact .ok ht

theorem Respects.adapt {R : σ → σ → Prop} (f : ε → ε') {a : Action σ ε α} (h : Respects R a) :
  Respects R (ExceptT.adapt f a : Action σ ε' α)
  := by
  intro s t hst
  rw [on_adapt, on_adapt]
  obtain ⟨c, hs, ht⟩ | ⟨r, s', t', hs, ht, hst'⟩ := (h s t hst).elim
  · rw [hs, ht]
    exact .crash c
  · rw [hs, ht]
    exact .ok _ hst'

end Action

namespace Memory

open CrossHart.Action

variable {allows : Query → Bool} {m m' : Memory} {s : Space}

/-! ### Places in RAM -/

/-- The byte of RAM at an address. -/
def Space.byteAt (s : Space) (addr : Word) : UInt8 :=
  Bytes.at0 s.ram (addr - s.base).toNat

/-- RAM and regions are in whole pages, and the lookaside table cannot be seen. -/
structure Guarded (allows : Query → Bool) (m : Memory) : Prop extends Honest allows m where
  whole : m.space.ram.size % pageSize = 0

/-- Memory is guarded, and there are no devices. -/
structure Plain (allows : Query → Bool) (m : Memory) : Prop extends Guarded allows m where
  bare : m.space.regions = []

/-- Memory that was not used yet is guarded. -/
theorem guarded_unused {policy : Policy} (pure : policy.IsPure allows) (aligned : s.Aligned)
    (whole : s.ram.size % pageSize = 0) :
  Guarded allows { space := s, policy }
  := by
  refine ⟨⟨pure, aligned, fun i e he => ?_⟩, whole⟩
  simp at he

/-- Memory without devices that was not used yet is plain. -/
theorem plain_unused {policy : Policy} (pure : policy.IsPure allows) (base : inPage s.base = 0)
    (bare : s.regions = []) (whole : s.ram.size % pageSize = 0) :
  Plain allows { space := s, policy }
  := by
  refine ⟨guarded_unused pure ⟨base, ?_⟩ whole, bare⟩
  rw [bare]
  nofun

/-- An address is at a position of RAM, and so is the whole page around it. -/
structure Space.Places (s : Space) (addr : Word) (position : Nat) : Prop where
  base : s.base.toNat % pageSize = 0
  addr : addr.toNat = s.base.toNat + position
  room : position / pageSize * pageSize + pageSize ≤ s.ram.size

namespace Space.Places

variable {addr : Word} {position size : Nat}

theorem lt_of_not_straddles (h : straddles addr size = false) :
  addr.toNat % pageSize + size ≤ pageSize
  := by
  simp only [straddles, decide_eq_false_iff_not, Nat.not_lt] at h
  rw [toNat_inPage] at h
  exact h

/-- An access within one page is within RAM. -/
theorem fits (h : s.Places addr position) (inside : straddles addr size = false) :
  position + size ≤ s.ram.size
  := by
  obtain ⟨hbase, haddr, hroom⟩ := h
  have hlt := lt_of_not_straddles inside
  simp only [pageSize] at *
  omega

/-- The bytes of an access within one page follow one another. -/
theorem byteAt_add (h : s.Places addr position) (inside : straddles addr size = false) {k : Nat}
    (hk : k < size) :
  s.byteAt (addr + BitVec.ofNat 64 k) = Bytes.at0 s.ram (position + k)
  := by
  obtain ⟨hbase, haddr, hroom⟩ := h
  have hlt := lt_of_not_straddles inside
  have htop := addr.isLt
  have hnat : (addr + BitVec.ofNat 64 k - s.base).toNat = position + k := by
    rw [BitVec.toNat_sub, BitVec.toNat_add, BitVec.toNat_ofNat]
    simp only [pageSize] at *
    omega
  rw [byteAt, hnat]

/-- What is at the positions of an access within one page is on the page. -/
theorem pageOf_eq (h : s.Places addr position) (inside : straddles addr size = false)
    {addr' : Word} (low : position ≤ (addr' - s.base).toNat)
    (high : (addr' - s.base).toNat < position + size) :
  pageOf addr' = pageOf addr
  := by
  obtain ⟨hbase, haddr, hroom⟩ := h
  have hlt := lt_of_not_straddles inside
  have htop := addr.isLt
  have htop' := addr'.isLt
  have hbasetop := s.base.isLt
  rw [BitVec.toNat_sub] at low high
  rw [pageOf_eq_iff]
  simp only [pageSize] at *
  omega

/-- What is written to an access within one page changes no byte of another page. -/
theorem byteAt_overwrite_of_ne (h : s.Places addr position) {new : List UInt8}
    (inside : straddles addr new.length = false) {addr' : Word} (ne : pageOf addr' ≠ pageOf addr) :
  Space.byteAt { s with ram := Bytes.overwrite s.ram position new } addr' = s.byteAt addr'
  := by
  unfold byteAt
  dsimp only
  rw [Bytes.at0_overwrite (h.fits inside), if_neg]
  rintro ⟨hlow, hhigh⟩
  exact ne (h.pageOf_eq inside hlow hhigh)

end Space.Places

/-- What has a backing in RAM is at a position of RAM. -/
theorem Space.places_of_resolve (base : inPage s.base = 0) (whole : s.ram.size % pageSize = 0)
    {addr : Word} {page : Backing} (resolve : s.resolve addr = some page) {position : Nat}
    (ram : page.plus (inPage addr) = .ram position) :
  s.Places addr position
  := by
  have hbase := (inPage_eq_zero_iff s.base).mp base
  unfold Space.resolve at resolve
  dsimp only at resolve
  split at resolve
  case isFalse =>
    obtain ⟨i, -, resolve⟩ := Option.bind_eq_some_iff.mp resolve
    obtain ⟨r, -, rfl⟩ := Option.map_eq_some_iff.mp resolve
    cases ram
  case isTrue hram =>
    cases resolve
    cases ram
    obtain ⟨hle, hsize⟩ := Bool.and_eq_true_iff.mp hram
    rw [BitVec.ule, decide_eq_true_eq, toNat_pageStart] at hle
    rw [decide_eq_true_eq] at hsize
    have hnat : (pageStart addr - s.base).toNat = addr.toNat / 4096 * 4096 - s.base.toNat := by
      have htop := addr.isLt
      rw [BitVec.toNat_sub, toNat_pageStart]
      omega
    rw [hnat] at hsize
    rw [hnat, toNat_inPage]
    refine ⟨hbase, ?_, ?_⟩
    · omega
    · simp only [pageSize] at *
      omega

/-- A translation is the backing of a page that may be accessed. -/
theorem Space.resolve_of_translate {addr : Word} {access : Access} {b : Backing}
    (h : s.translate allows addr access = .ok b) :
  allows ⟨pageOf addr, access⟩ = true ∧
    ∃ page, s.resolve addr = some page ∧ b = page.plus (inPage addr)
  := by
  unfold Space.translate at h
  split at h
  case h_1 => cases h
  case h_2 page hpage =>
    split at h
    case isFalse => cases h
    case isTrue hallowed =>
      cases h
      exact ⟨hallowed, page, hpage, rfl⟩

/-- Without devices, what has a backing is in RAM. -/
theorem Plain.places (plain : m.Plain allows) {addr : Word} {access : Access} {b : Backing}
    (h : m.space.translate allows addr access = .ok b) :
  ∃ position, b = .ram position ∧ m.space.Places addr position ∧ allows ⟨pageOf addr, access⟩ = true
  := by
  obtain ⟨hallowed, page, hresolve, rfl⟩ := Space.resolve_of_translate h
  have hram : ∃ position, page.plus (inPage addr) = .ram position := by
    unfold Space.resolve at hresolve
    rw [plain.bare] at hresolve
    dsimp only at hresolve
    split at hresolve
    · cases hresolve
      exact ⟨_, rfl⟩
    · cases hresolve
  obtain ⟨position, hposition⟩ := hram
  exact ⟨position, hposition,
    Space.places_of_resolve plain.aligned.base plain.whole hresolve hposition, hallowed⟩

/-! ### Accesses in one page and in two -/

theorem byteShift_eq {i : Nat} (h : i < 8) :
  byteShift i = .ok (8 * i)
  := if_pos h

theorem not_straddles_one (addr : Word) :
  straddles addr 1 = false
  := by
  simp only [straddles, decide_eq_false_iff_not, Nat.not_lt]
  rw [toNat_inPage, pageSize]
  omega

section

variable {T : Memory → Memory → Prop} (course : IsCourse T)

include course

/-- Reading goes through where it does within one page. -/
theorem stays_read_of {access : Access}
    (within : ∀ addr size, size ≤ 8 → straddles addr size = false →
      Stays T (locate addr access >>= fun b => readAt b size))
    (addr : Word) {size : Nat} (small : size ≤ 8) :
  Stays T (read addr size access)
  := by
  have hbytes {n i : Nat} (small : i + n ≤ 8) (value : Word) :
      Stays T (readEach addr access n i value) := by
    induction n generalizing i value with
    | zero => exact .pure value
    | succ n ih =>
      rw [readEach, ← bind_assoc, byteShift_eq (by omega)]
      apply (within _ 1 (by decide) (not_straddles_one _)).bind course
      intro byte
      exact ih (by omega) _
  unfold read
  split
  case isTrue => exact hbytes (by omega) 0
  case isFalse inside => exact within addr size small (Bool.eq_false_iff.mpr inside)

/-- Storing goes through where it does within one page. -/
theorem stays_store_of (check : ∀ addr, Stays T (locate addr .write))
    (within : ∀ addr size value, size ≤ 8 → straddles addr size = false →
      Stays T (locate addr .write >>= fun b => writeAt b size value))
    (addr : Word) {size : Nat} (small : size ≤ 8) (value : Word) :
  Stays T (store addr size value)
  := by
  have hbytes {n i : Nat} (small : i + n ≤ 8) : Stays T (writeEach addr value n i) := by
    induction n generalizing i with
    | zero => exact .pure ()
    | succ n ih =>
      rw [writeEach, byteShift_eq (by omega)]
      have hbyte := within (addr + BitVec.ofNat 64 i) 1 (value >>> (8 * i)) (by decide)
        (not_straddles_one _)
      have hrest := hbyte.bind course fun _ => ih (i := i + 1) (by omega)
      rw [bind_assoc] at hrest
      exact hrest
  unfold store
  split
  case isTrue =>
    refine Stays.bind course (Stays.discard course (check addr)) fun _ => ?_
    refine Stays.bind course (Stays.discard course (check _)) fun _ => ?_
    exact hbytes (by omega)
  case isFalse inside => exact within addr size value small (Bool.eq_false_iff.mpr inside)

end

/-! ### Looking -/

/-- Memory was only looked at. -/
structure Looks (allows : Query → Bool) (m m' : Memory) : Prop where
  before : m.Plain allows
  after : m'.Plain allows
  space : m'.space = m.space

theorem isCourse_looks (allows : Query → Bool) :
  IsCourse (Looks allows)
  := ⟨fun _ _ _ h h' => ⟨h.before, h'.after, h'.space.trans h.space⟩,
    fun _ _ h => ⟨h.after, h.after, rfl⟩⟩

theorem Plain.looks (plain : m.Plain allows) :
  Looks allows m m
  := ⟨plain, plain, rfl⟩

/-- Memory that may have devices was only looked at, and no device was. -/
structure Peeks (allows : Query → Bool) (m m' : Memory) : Prop where
  after : m'.Guarded allows
  space : m'.space = m.space

namespace Peeks

theorem refl (guarded : m.Guarded allows) :
  Peeks allows m m
  := ⟨guarded, rfl⟩

theorem trans {m'' : Memory} (h : Peeks allows m m') (h' : Peeks allows m' m'') :
  Peeks allows m m''
  := ⟨h'.after, h'.space.trans h.space⟩

theorem looks (h : Peeks allows m m') (plain : m.Plain allows) :
  Looks allows m m'
  := ⟨plain, ⟨h.after, h.space ▸ plain.bare⟩, h.space⟩

end Peeks

theorem Guarded.locate (guarded : m.Guarded allows) (addr : Word) (access : Access) :
  ∃ m', (locate addr access).on m = .ok (m.space.translate allows addr access, m') ∧
    Peeks allows m m'
  := by
  obtain ⟨m', hm', honest, hspace⟩ := guarded.toHonest.locate addr access
  exact ⟨m', hm', ⟨honest, hspace ▸ guarded.whole⟩, hspace⟩

/-- A translation looks at memory, and finds a position of RAM if there is no fault. -/
theorem Plain.locate (plain : m.Plain allows) (addr : Word) (access : Access) :
  ∃ m', (locate addr access).on m = .ok (m.space.translate allows addr access, m') ∧
    Looks allows m m'
  := by
  obtain ⟨m', hm', hpeeks⟩ := plain.toGuarded.locate addr access
  exact ⟨m', hm', hpeeks.looks plain⟩

theorem stays_locate (addr : Word) (access : Access) :
  Stays (Looks allows) (locate addr access)
  := by
  intro m h
  obtain ⟨m', hm', hlooks⟩ := h.before.locate addr access
  exact .of_eq hm' hlooks

theorem on_readAt {b : Nat} {size : Nat} (small : size ≤ 8) (fits : b + size ≤ m.space.ram.size) :
  (readAt (.ram b) size).on m = .ok (.ok (BitVec.ofNat 64 (Bytes.readNat m.space.ram b size)), m)
  := by
  obtain ⟨lookaside, space, policy⟩ := m
  rw [readAt, on_of]
  dsimp only
  rw [Space.read, if_pos ⟨small, fits⟩]

/-- What follows a translation happens at a position of RAM. -/
theorem stays_locate_bind {T : Memory → Memory → Prop} (course : IsCourse T)
    (later : ∀ m m', T m m → Looks allows m m' → T m m') (plain : ∀ m, T m m → m.Plain allows)
    {α : Type} {addr : Word} {access : Access} {f : Backing → Action Memory Fault α}
    (h : ∀ m position, T m m → m.space.Places addr position → allows ⟨pageOf addr, access⟩ = true →
      Meets True ((f (.ram position)).on m) fun r => T m r.2) :
  Stays T (Memory.locate addr access >>= f)
  := by
  intro m hm
  obtain ⟨m', hm', hlooks⟩ := (plain m hm).locate addr access
  have hlater := later m m' hm hlooks
  rw [on_bind, hm']
  cases hb : m.space.translate allows addr access with
  | error e => exact .ok hlater
  | ok b =>
    obtain ⟨position, rfl, hplaces, hallowed⟩ := (plain m hm).places hb
    rw [← hlooks.space] at hplaces
    exact (h m' position (course.settled m m' hlater) hplaces hallowed).imp
      fun r hr => course.trans m m' r.2 hlater hr

/-- Reading looks at memory. -/
theorem stays_read (addr : Word) {size : Nat} (small : size ≤ 8) (access : Access) :
  Stays (Looks allows) (read addr size access)
  := by
  have course := isCourse_looks allows
  refine stays_read_of course (fun addr size small inside => ?_) addr small
  refine stays_locate_bind course (fun _ _ _ h => h) (fun _ h => h.before) ?_
  intro m position hm hplaces _
  exact .of_eq (on_readAt small (hplaces.fits inside)) hm

theorem stays_fetch (pc : Word) :
  Stays (Looks allows) (fetch pc)
  := (stays_read pc (by decide) .execute).bind (isCourse_looks allows) fun _ => .pure _

/-! ### Changing -/

/-- Memory after accesses: what may not be written is as before. -/
structure Evolves (allows : Query → Bool) (m m' : Memory) : Prop where
  before : m.Plain allows
  after : m'.Plain allows
  layout : m.space.SameLayout m'.space
  kept : ∀ addr, allows ⟨pageOf addr, .write⟩ = false → m'.space.byteAt addr = m.space.byteAt addr

theorem Space.SameLayout.trans {s s' s'' : Space} (h : s.SameLayout s') (h' : s'.SameLayout s'') :
  s.SameLayout s''
  := ⟨h'.base.trans h.base, h'.size.trans h.size, h'.regions.trans h.regions⟩

theorem isCourse_evolves (allows : Query → Bool) :
  IsCourse (Evolves allows)
  := by
  refine ⟨fun _ _ _ h h' => ⟨h.before, h'.after, h.layout.trans h'.layout, fun addr ha => ?_⟩,
    fun _ _ h => ⟨h.after, h.after, .refl _, fun _ _ => rfl⟩⟩
  rw [h'.kept addr ha, h.kept addr ha]

theorem Looks.evolves (h : Looks allows m m') :
  Evolves allows m m'
  := by
  refine ⟨h.before, h.after, ?_, fun addr _ => ?_⟩
  · rw [h.space]
    exact .refl _
  · rw [h.space]

theorem Plain.evolves (plain : m.Plain allows) :
  Evolves allows m m
  := plain.looks.evolves

/-- What looks at memory keeps it. -/
theorem stays_evolves {ε α : Type} {a : Action Memory ε α} (h : Stays (Looks allows) a) :
  Stays (Evolves allows) a
  := h.imp (fun _ _ h => h.evolves) fun _ h => h.before.looks

theorem meets_writeAt (plain : m.Plain allows) {addr : Word} {position size : Nat} (value : Word)
    (small : size ≤ 8) (places : m.space.Places addr position)
    (inside : straddles addr size = false) (allowed : allows ⟨pageOf addr, .write⟩ = true) :
  Meets True ((writeAt (.ram position) size value).on m) fun r => Evolves allows m r.2
  := by
  obtain ⟨lookaside, ⟨ram, base, regions⟩, policy⟩ := m
  have hfits := places.fits inside
  have hlayout : Space.SameLayout ⟨ram, base, regions⟩
      ⟨Bytes.overwrite ram position (Bytes.ofWord size value), base, regions⟩ :=
    ⟨rfl, Bytes.size_overwrite _ _ _, rfl⟩
  rw [writeAt, on_of]
  dsimp only
  rw [Space.write, if_pos ⟨small, hfits⟩]
  refine .ok ⟨plain, ⟨⟨plain.toHonest.of_sameLayout hlayout, ?_⟩, plain.bare⟩, hlayout, fun addr' h => ?_⟩
  · rw [Bytes.size_overwrite]
    exact plain.whole
  · refine places.byteAt_overwrite_of_ne ?_ fun hpage => ?_
    · rw [Bytes.ofWord, Bytes.length_littleEndian]
      exact inside
    · rw [hpage, allowed] at h
      cases h

/-- A store changes bytes that may be written. -/
theorem stays_store (addr : Word) {size : Nat} (small : size ≤ 8) (value : Word) :
  Stays (Evolves allows) (store addr size value)
  := by
  have course := isCourse_evolves allows
  refine stays_store_of course (fun addr => stays_evolves (stays_locate addr .write))
    (fun addr size value small inside => ?_) addr small value
  refine stays_locate_bind course (fun _ _ _ h => h.evolves) (fun _ h => h.before) ?_
  intro m position hm hplaces hallowed
  exact meets_writeAt hm.before value small hplaces inside hallowed

end Memory

end CrossHart
