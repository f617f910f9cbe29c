import CrossHart.Proofs.Memory.Flat
import CrossHart.Proofs.Memory.Sound

/-!
# Stores that are carried out as a whole

A store that leaves its page is carried out byte by byte, and a policy may change its mind between two
bytes.  Still it writes all of its bytes or none: the first and the last byte are translated before any
is written, and what the lookaside table keeps of their pages stays there, since pages next to each
other do not share a slot.
-/

namespace CrossHart

/-! ### Bytes of a word -/

theorem extractLsb'_shiftRight (w : Word) (i k : Nat) :
  (w >>> (8 * i)).extractLsb' (8 * k) 8 = w.extractLsb' (8 * (i + k)) 8
  := by
  apply BitVec.eq_of_getLsbD_eq
  intro j hj
  rw [BitVec.getLsbD_extractLsb', BitVec.getLsbD_extractLsb', BitVec.getLsbD_ushiftRight,
    Nat.mul_add, Nat.add_assoc]

theorem Bytes.getD_ofWord {n k : Nat} (h : k < n) (w : Word) :
  ((ofWord n w).getD k 0).toBitVec = w.extractLsb' (8 * k) 8
  := by
  induction n generalizing k w with
  | zero => contradiction
  | succ n ih =>
    rw [ofWord_succ]
    cases k with
    | zero =>
      apply BitVec.eq_of_toNat_eq
      simp [BitVec.extractLsb'_toNat]
    | succ k =>
      rw [List.getD_cons_succ, ih (by omega), extractLsb'_shiftRight w 1 k, Nat.add_comm 1]

namespace Memory

open CrossHart.Action

/-! ### Rights that are kept -/

/-- Pages next to each other do not share a slot. -/
theorem pageOf_eq_of_slotOf_eq {k : Nat} (small : k < 8) (addr : Word)
    (h : slotOf (pageOf addr) = slotOf (pageOf (addr + BitVec.ofNat 64 k))) :
  pageOf addr = pageOf (addr + BitVec.ofNat 64 k)
  := by
  have hslot := congrArg Fin.val h
  have htop := addr.isLt
  simp only [slotOf, slotCount, pageOf, BitVec.toNat_ushiftRight, Nat.shiftRight_eq_div_pow,
    BitVec.toNat_add, BitVec.toNat_ofNat] at hslot
  rw [pageOf_eq_iff, BitVec.toNat_add, BitVec.toNat_ofNat]
  omega

namespace Lookaside

/-- The current entry of a page allows an access. -/
def Grants (t : Lookaside) (page : Word) (access : Access) : Prop :=
  ∃ e, t.entry? page = some e ∧ e.rights.allows access = true

variable {t t' : Lookaside} {s : Space} {p p' : Policy} {addr page : Word} {access access' : Access}
  {r : Except Fault Backing}

/-- An access that went through leaves an entry that allows it. -/
theorem Translates.grants {b : Backing} (h : Translates t s p addr access (.ok b) t' p') :
  t'.Grants (pageOf addr) access
  := by
  cases h with
  | hit entry allowed => exact ⟨_, entry, allowed⟩
  | filled =>
    refine ⟨_, (entry?_fill _ _ _ _ _).trans (if_pos rfl), ?_⟩
    rw [askRights, Rights.allows_ofFun]
    simp

/-- What an entry allows goes through, and no entry changes. -/
theorem Grants.hit (granted : t.Grants (pageOf addr) access)
    (h : Translates t s p addr access r t' p') :
  (∃ b, r = .ok b) ∧ ∀ page, entry? t' page = t.entry? page
  := by
  obtain ⟨e, hentry, hallowed⟩ := granted
  cases h with
  | hit => exact ⟨⟨_, rfl⟩, fun _ => rfl⟩
  | refused entry denied =>
    cases hentry.symm.trans entry
    cases hallowed.symm.trans denied
  | unmapped entry => cases hentry.symm.trans entry
  | denied entry => cases hentry.symm.trans entry
  | filled entry => cases hentry.symm.trans entry

/-- A translation replaces the entry of another page of its slot at most. -/
theorem Grants.translates (granted : t.Grants page access')
    (apart : slotOf page = slotOf (pageOf addr) → page = pageOf addr)
    (h : Translates t s p addr access r t' p') :
  t'.Grants page access'
  := by
  obtain ⟨e, hentry, hallowed⟩ := granted
  cases h with
  | hit => exact ⟨e, hentry, hallowed⟩
  | refused => exact ⟨e, hentry, hallowed⟩
  | unmapped => exact ⟨e, hentry, hallowed⟩
  | denied => exact ⟨e, hentry, hallowed⟩
  | filled entry =>
    have hne : page ≠ pageOf addr := by
      rintro rfl
      cases hentry.symm.trans entry
    refine ⟨e, ?_, hallowed⟩
    rw [entry?_fill, if_neg hne, if_neg fun hslot => hne (apart hslot)]
    exact hentry

end Lookaside

variable {m : Memory}

theorem locate_translates (m : Memory) (addr : Word) (access : Access) :
  Meets False ((locate addr access).on m) fun r => r.2.space = m.space ∧
    Lookaside.Translates m.lookaside m.space m.policy addr access r.1 r.2.lookaside r.2.policy
  := by
  obtain ⟨t, s, p⟩ := m
  rw [locate, on_of]
  dsimp only
  cases hlocate : t.locate s p addr access with
  | error crash => exact not_false
  | ok result => exact ⟨rfl, (t.locate_translates s p addr access).post_of_eq hlocate⟩

/-- Writing to a backing does not fault, and the table stays as it is. -/
theorem writeAt_done (m : Memory) (b : Backing) (size : Nat) (value : Word) :
  Meets False ((writeAt b size value).on m) fun r => r.1 = .ok () ∧ r.2.lookaside = m.lookaside
  := by
  obtain ⟨t, s, p⟩ := m
  rw [writeAt, on_of]
  dsimp only
  cases s.write b size value with
  | error crash => exact not_false
  | ok s' => exact ⟨rfl, rfl⟩

/-- Both ends of an access may be written, by what the table holds. -/
structure Checked (m : Memory) (addr : Word) (size : Nat) : Prop where
  first : m.lookaside.Grants (pageOf addr) .write
  last : m.lookaside.Grants (pageOf (addr + BitVec.ofNat 64 (size - 1))) .write

variable {m' : Memory} {addr : Word} {size : Nat}

theorem Checked.of_entries (checked : m.Checked addr size)
    (h : ∀ page, m'.lookaside.entry? page = m.lookaside.entry? page) :
  m'.Checked addr size
  := by
  obtain ⟨⟨e, he, hallowed⟩, ⟨e', he', hallowed'⟩⟩ := checked
  exact ⟨⟨e, (h _).trans he, hallowed⟩, ⟨e', (h _).trans he', hallowed'⟩⟩

/-- Translating the first and the last byte for writing checks an access. -/
theorem checked_of_locate {b b' : Backing} {m₁ m₂ : Memory} (small : size ≤ 8)
    (first : (locate addr .write).on m = .ok (.ok b, m₁))
    (last : (locate (addr + BitVec.ofNat 64 (size - 1)) .write).on m₁ = .ok (.ok b', m₂)) :
  m₂.Checked addr size
  := by
  obtain ⟨-, hfirst⟩ := (m.locate_translates _ _).post_of_eq first
  obtain ⟨-, hlast⟩ := (m₁.locate_translates _ _).post_of_eq last
  exact ⟨hfirst.grants.translates (pageOf_eq_of_slotOf_eq (by omega) addr) hlast, hlast.grants⟩

/-- No byte of a checked access faults, whatever the policy says by now. -/
theorem Checked.writeEach (checked : m.Checked addr size) (value : Word) {n i : Nat}
    (small : size ≤ 8) (within : i + n ≤ size) :
  Meets False ((writeEach addr value n i).on m) fun r => r.1 = .ok ()
  := by
  induction n generalizing m i with
  | zero => exact .ok rfl
  | succ n ih =>
    have hgranted : m.lookaside.Grants (pageOf (addr + BitVec.ofNat 64 i)) .write := by
      obtain hpage | hpage := pageOf_of_short addr small (by omega : i < size)
      · rw [hpage]
        exact checked.first
      · rw [hpage]
        exact checked.last
    rw [Memory.writeEach, on_bind]
    cases hlocate : (locate (addr + BitVec.ofNat 64 i) .write).on m with
    | error crash => exact not_false
    | ok result =>
      obtain ⟨r, m₁⟩ := result
      obtain ⟨-, htranslates⟩ := (m.locate_translates _ _).post_of_eq hlocate
      obtain ⟨⟨b, rfl⟩, hentries⟩ := hgranted.hit htranslates
      dsimp only
      rw [byteShift_eq (by omega)]
      change Meets False ((writeAt b 1 (value >>> (8 * i)) >>= fun _ =>
        Memory.writeEach addr value n (i + 1)).on m₁) _
      rw [on_bind]
      cases hwrite : (writeAt b 1 (value >>> (8 * i))).on m₁ with
      | error crash => exact not_false
      | ok result =>
        obtain ⟨r, m₂⟩ := result
        obtain ⟨rfl, htable⟩ := (m₁.writeAt_done _ _ _).post_of_eq hwrite
        dsimp only at htable ⊢
        refine ih (checked.of_entries fun page => ?_) (by omega)
        rw [htable]
        exact hentries page

theorem on_discard_eq_ok {σ ε α : Type} {a : Action σ ε α} {s t : σ} {u : Unit} :
  (discard a).on s = .ok (.ok u, t) ↔ ∃ x, a.on s = .ok (.ok x, t)
  := by
  rw [on_discard]
  cases a.on s with
  | error crash => simp
  | ok result =>
    obtain ⟨r, t⟩ := result
    cases r <;> simp

theorem on_discard_eq_error {σ ε α : Type} {a : Action σ ε α} {s t : σ} {e : ε} :
  (discard a).on s = .ok (.error e, t) ↔ a.on s = .ok (.error e, t)
  := by
  rw [on_discard]
  cases a.on s with
  | error crash => simp
  | ok result =>
    obtain ⟨r, t⟩ := result
    cases r <;> simp

/-- A store that faults has written nothing. -/
theorem space_of_store_error {value : Word} {f : Fault} (small : size ≤ 8)
    (h : (store addr size value).on m = .ok (.error f, m')) :
  m'.space = m.space
  := by
  unfold store at h
  split at h
  case isTrue =>
    obtain h | ⟨_, m₁, hfirst, h⟩ := on_bind_eq_error.mp h
    · exact ((m.locate_translates _ _).post_of_eq (on_discard_eq_error.mp h)).1
    obtain ⟨b, hfirst⟩ := on_discard_eq_ok.mp hfirst
    have hspace := ((m.locate_translates _ _).post_of_eq hfirst).1
    obtain h | ⟨_, m₂, hlast, h⟩ := on_bind_eq_error.mp h
    · exact ((m₁.locate_translates _ _).post_of_eq (on_discard_eq_error.mp h)).1.trans hspace
    obtain ⟨b', hlast⟩ := on_discard_eq_ok.mp hlast
    have hchecked := checked_of_locate small hfirst hlast
    cases (hchecked.writeEach value small (by omega)).post_of_eq h
  case isFalse =>
    obtain h | ⟨b, m₁, -, h⟩ := on_bind_eq_error.mp h
    · exact ((m.locate_translates _ _).post_of_eq h).1
    · cases ((m₁.writeAt_done _ _ _).post_of_eq h).1

/-! ### Bytes and their places -/

/-- The place of the byte at an address. -/
def Space.place? (s : Space) (addr : Word) : Option Backing :=
  (s.resolve addr).map (·.plus (inPage addr))

/-- The byte at a place, of RAM or as it was last written to a device. -/
def Space.byte? (s : Space) : Backing → Option (BitVec 8)
  | .ram position =>
    if position < s.ram.size then some (Bytes.at0 s.ram position).toBitVec else none
  | .device i offset => s.regions[i]?.bind fun r => r.device.history.written[offset.toNat]?

variable {s s' : Space}

theorem pageStart_add_inPage (addr : Word) :
  pageStart addr + inPage addr = addr
  := by
  apply BitVec.eq_of_toNat_eq
  rw [BitVec.toNat_add, toNat_pageStart, toNat_inPage]
  have htop := addr.isLt
  omega

/-- A place lies as far behind the start of RAM or of a region as its address. -/
theorem Space.place?_eq_some {b : Backing} (h : s.place? addr = some b) :
  (∃ position, b = .ram position ∧ addr.toNat = s.base.toNat + position) ∨
    ∃ i offset r, b = .device i offset ∧ s.regions[i]? = some r ∧ addr = r.base + offset
  := by
  obtain ⟨page, hpage, rfl⟩ := Option.map_eq_some_iff.mp h
  unfold Space.resolve at hpage
  dsimp only at hpage
  split at hpage
  case isTrue hram =>
    cases hpage
    have hle := ((s.ramContains_iff _).mp hram).1
    have hbase := s.base.isLt
    have htop := addr.isLt
    refine .inl ⟨_, rfl, ?_⟩
    rw [toNat_pageStart] at hle
    rw [toNat_inPage, BitVec.toNat_sub, toNat_pageStart]
    omega
  case isFalse =>
    obtain ⟨i, -, hpage⟩ := Option.bind_eq_some_iff.mp hpage
    obtain ⟨r, hr, rfl⟩ := Option.map_eq_some_iff.mp hpage
    refine .inr ⟨i, _, r, rfl, hr, ?_⟩
    rw [← BitVec.add_assoc, BitVec.add_comm r.base, BitVec.sub_add_cancel, pageStart_add_inPage]

/-- No two addresses share a place. -/
theorem Space.place?_inj {addr' : Word} {b : Backing} (h : s.place? addr = some b)
    (h' : s.place? addr' = some b) :
  addr = addr'
  := by
  obtain ⟨position, rfl, haddr⟩ | ⟨i, offset, r, rfl, hr, haddr⟩ := s.place?_eq_some h
  · obtain ⟨position, hb, haddr'⟩ | ⟨i, offset, r, hb, -⟩ := s.place?_eq_some h'
    · cases hb
      exact BitVec.eq_of_toNat_eq (haddr.trans haddr'.symm)
    · cases hb
  · obtain ⟨position, hb, -⟩ | ⟨i, offset, r', hb, hr', haddr'⟩ := s.place?_eq_some h'
    · cases hb
    · cases hb
      cases hr.symm.trans hr'
      exact haddr.trans haddr'.symm

theorem Space.place?_add {b : Backing} {k : Nat} (place : s.place? addr = some b)
    (inside : straddles addr size = false) (hk : k < size) :
  s.place? (addr + BitVec.ofNat 64 k) = some (b.plus (BitVec.ofNat 64 k))
  := by
  obtain ⟨page, hpage, rfl⟩ := Option.map_eq_some_iff.mp place
  have hlt := Space.Places.lt_of_not_straddles inside
  have hsum : inPage (addr + BitVec.ofNat 64 k) = inPage addr + BitVec.ofNat 64 k := by
    apply BitVec.eq_of_toNat_eq
    simp only [pageSize] at hlt
    rw [toNat_inPage, BitVec.toNat_add, BitVec.toNat_add, BitVec.toNat_ofNat, toNat_inPage]
    omega
  rw [Space.place?, s.resolve_congr (pageOf_of_not_straddles inside hk), hpage, Option.map_some, hsum]
  cases page with
  | ram position =>
    simp only [pageSize] at hlt
    simp only [Backing.plus, BitVec.toNat_add, toNat_inPage, BitVec.toNat_ofNat]
    congr 2
    omega
  | device i offset => simp only [Backing.plus, BitVec.add_assoc]

/-- The bytes that a device was last told to hold. -/
theorem History.written_write (h : History) (offset : Word) {size : Nat} (small : size ≤ 8)
    (value o : Word) :
  (h.write offset size value).written[o.toNat]? =
    if (o - offset).toNat < size then some (value.extractLsb' (8 * (o - offset).toNat) 8)
    else h.written[o.toNat]?
  := by
  unfold History.write
  dsimp only
  rw [Nat.min_eq_left small]
  induction size with
  | zero => rfl
  | succ n ih =>
    have hlast : (offset + BitVec.ofNat 64 n).toNat = o.toNat ↔ (o - offset).toNat = n := by
      have htop := offset.isLt
      have htop' := o.isLt
      rw [BitVec.toNat_add, BitVec.toNat_sub, BitVec.toNat_ofNat]
      omega
    rw [List.range_succ, List.foldl_append, List.foldl_cons, List.foldl_nil,
      Std.TreeMap.getElem?_insert, ih (by omega)]
    simp only [Std.LawfulEqCmp.compare_eq_iff_eq, hlast]
    by_cases hn : (o - offset).toNat = n
    · rw [if_pos hn, if_pos (by omega), hn]
    · rw [if_neg hn]
      by_cases hlt : (o - offset).toNat < n
      · rw [if_pos hlt, if_pos (by omega)]
      · rw [if_neg hlt, if_neg (by omega)]

/-- A write puts the bytes of its value to the places from its own on, and to no others. -/
theorem Space.Fits.byte?_write {b : Backing} {value : Word} (fits : s.Fits size b) (small : size ≤ 8)
    (h : s.write b size value = .ok s') :
  (∀ k < size, s'.byte? (b.plus (BitVec.ofNat 64 k)) = some (value.extractLsb' (8 * k) 8)) ∧
    ∀ c, (∀ k < size, b.plus (BitVec.ofNat 64 k) ≠ c) → s'.byte? c = s.byte? c
  := by
  obtain ⟨ram, base, regions⟩ := s
  have htoNat {k : Nat} (hk : k < size) : (BitVec.ofNat 64 k).toNat = k :=
    Nat.mod_eq_of_lt (by omega)
  cases b with
  | ram position =>
    have hlength : (Bytes.ofWord size value).length = size := Bytes.length_littleEndian _ _
    have hfits : position + (Bytes.ofWord size value).length ≤ ram.size := by
      rw [hlength]
      exact fits.2
    rw [Space.write, if_pos (⟨small, fits.2⟩ : size ≤ 8 ∧ position + size ≤ ram.size)] at h
    cases h
    constructor
    · intro k hk
      have hlt : position + k < ram.size := by omega
      simp only [Backing.plus, Space.byte?, htoNat hk, Bytes.size_overwrite]
      rw [if_pos hlt, Bytes.at0_overwrite hfits, if_pos (by omega), Nat.add_sub_cancel_left,
        Bytes.getD_ofWord hk]
    · intro c hc
      cases c with
      | device i offset => rfl
      | ram position' =>
        have hout : ¬(position ≤ position' ∧ position' < position + size) := by
          rintro ⟨hle, hlt⟩
          apply hc (position' - position) (by omega)
          rw [Backing.plus, htoNat (by omega)]
          congr 1
          omega
        simp only [Space.byte?, Bytes.size_overwrite]
        rw [Bytes.at0_overwrite hfits, hlength, if_neg hout]
  | device i offset =>
    have hi : i < regions.length := fits
    rw [Space.write, List.getElem?_eq_getElem hi] at h
    cases h
    have hdevice (o : Word) : Space.byte? ⟨ram, base, regions.set i
          { regions[i] with device := regions[i].device.write offset size value }⟩ (.device i o) =
        if (o - offset).toNat < size then some (value.extractLsb' (8 * (o - offset).toNat) 8)
        else Space.byte? ⟨ram, base, regions⟩ (.device i o) := by
      simp only [Space.byte?]
      rw [List.getElem?_set_self hi, List.getElem?_eq_getElem hi, Option.bind_some, Option.bind_some]
      apply History.written_write _ _ small
    constructor
    · intro k hk
      have hdistance : (offset + BitVec.ofNat 64 k - offset).toNat = k := by
        rw [BitVec.add_comm, BitVec.add_sub_cancel, htoNat hk]
      rw [Backing.plus, hdevice, hdistance, if_pos hk]
    · intro c hc
      cases c with
      | ram position => rfl
      | device i' o =>
        by_cases hsame : i = i'
        · subst hsame
          rw [hdevice, if_neg]
          intro hlt
          apply hc _ hlt
          rw [Backing.plus, BitVec.ofNat_toNat, BitVec.setWidth_eq, BitVec.add_comm,
            BitVec.sub_add_cancel]
        · simp only [Space.byte?]
          rw [List.getElem?_set_ne hsame]

/-- Bytes of a value, from the `i`-th on, came to the places of as many addresses, and all other places
have the bytes that they had. -/
structure Space.Rewritten (s s' : Space) (addr value : Word) (i n : Nat) : Prop where
  layout : s.SameLayout s'
  written : ∀ k, i ≤ k → k < i + n → ∃ b, s.place? (addr + BitVec.ofNat 64 k) = some b ∧
    s'.byte? b = some (value.extractLsb' (8 * k) 8)
  kept : ∀ b, (∀ k, i ≤ k → k < i + n → s.place? (addr + BitVec.ofNat 64 k) ≠ some b) →
    s'.byte? b = s.byte? b

theorem Space.rewritten_of_write {b : Backing} {value : Word} {i n : Nat} (small : n ≤ 8)
    (inside : straddles (addr + BitVec.ofNat 64 i) n = false)
    (place : s.place? (addr + BitVec.ofNat 64 i) = some b) (fits : s.Fits n b)
    (h : s.write b n (value >>> (8 * i)) = .ok s') :
  s.Rewritten s' addr value i n
  := by
  obtain ⟨hwritten, hkept⟩ := fits.byte?_write small h
  have hplace {k : Nat} (hk : k < n) :
      s.place? (addr + BitVec.ofNat 64 (i + k)) = some (b.plus (BitVec.ofNat 64 k)) := by
    rw [BitVec.ofNat_add, ← BitVec.add_assoc]
    exact s.place?_add place inside hk
  constructor
  · exact (s.write_sameLayout _ _ _).post_of_eq h
  · intro k hle hlt
    obtain ⟨k, rfl⟩ := Nat.exists_eq_add_of_le hle
    refine ⟨_, hplace (by omega), ?_⟩
    rw [hwritten k (by omega), extractLsb'_shiftRight]
  · intro c hc
    apply hkept
    intro k hk heq
    apply hc (i + k) (by omega) (by omega)
    rw [hplace hk, heq]

theorem Space.SameLayout.place? (h : s.SameLayout s') (addr : Word) :
  s'.place? addr = s.place? addr
  := by
  rw [Space.place?, Space.place?, h.resolve]

/-- One byte after the other is written, and none of them twice. -/
theorem Space.Rewritten.cons {s'' : Space} {value : Word} {i n : Nat} (small : i + n < 8)
    (first : s.Rewritten s' addr value i 1) (rest : s'.Rewritten s'' addr value (i + 1) n) :
  s.Rewritten s'' addr value i (n + 1)
  := by
  constructor
  · exact first.layout.trans rest.layout
  · intro k hle hlt
    by_cases hk : k = i
    · subst hk
      obtain ⟨b, hplace, hbyte⟩ := first.written k hle (by omega)
      refine ⟨b, hplace, (rest.kept b ?_).trans hbyte⟩
      intro k' hle' hlt' hplace'
      rw [first.layout.place?] at hplace'
      have haddr := congrArg BitVec.toNat (Space.place?_inj hplace hplace')
      rw [BitVec.toNat_add, BitVec.toNat_add, BitVec.toNat_ofNat, BitVec.toNat_ofNat] at haddr
      have htop := addr.isLt
      omega
    · obtain ⟨b, hplace, hbyte⟩ := rest.written k (by omega) (by omega)
      rw [first.layout.place?] at hplace
      exact ⟨b, hplace, hbyte⟩
  · intro b hb
    rw [rest.kept b, first.kept b]
    · exact fun k hle hlt => hb k hle (by omega)
    · intro k hle hlt
      rw [first.layout.place?]
      exact hb k (by omega) (by omega)

/-! ### Stores -/

theorem writeAt_eq_ok {b : Backing} {value : Word} {u : Unit}
    (h : (writeAt b size value).on m = .ok (.ok u, m')) :
  m.space.write b size value = .ok m'.space
  := by
  obtain ⟨t, s, p⟩ := m
  rw [writeAt, on_of] at h
  dsimp only at h ⊢
  cases hwrite : s.write b size value with
  | error crash =>
    rw [hwrite] at h
    cases h
  | ok s' =>
    rw [hwrite] at h
    cases h
    rfl

/-- What is translated and then written within a page is written to the places of its addresses. -/
theorem Sound.rewritten {b : Backing} {value : Word} {u : Unit} {i n : Nat} {m₁ m₂ : Memory}
    (sound : m.Sound) (small : n ≤ 8) (inside : straddles (addr + BitVec.ofNat 64 i) n = false)
    (locate : (Memory.locate (addr + BitVec.ofNat 64 i) .write).on m = .ok (.ok b, m₁))
    (write : (Memory.writeAt b n (value >>> (8 * i))).on m₁ = .ok (.ok u, m₂)) :
  m.space.Rewritten m₂.space addr value i n ∧ m₂.Sound
  := by
  obtain ⟨sound₁, hspace, hplace⟩ := (sound.locate _ _).post_of_eq locate
  obtain ⟨page, hresolve, rfl⟩ := hplace b rfl
  have hfits := sound.fits hresolve small inside
  have hwrite := writeAt_eq_ok write
  dsimp only at sound₁ hspace
  constructor
  · rw [hspace] at hwrite
    refine Space.rewritten_of_write small inside ?_ hfits hwrite
    rw [Space.place?, hresolve, Option.map_some]
  · rw [← hspace] at hfits
    exact (sound₁.writeAt hfits _).post_of_eq write

theorem Sound.writeEach_rewritten (sound : m.Sound) {value : Word} {u : Unit} {i n : Nat}
    (small : i + n ≤ 8) (h : (writeEach addr value n i).on m = .ok (.ok u, m')) :
  m.space.Rewritten m'.space addr value i n
  := by
  induction n generalizing m i with
  | zero =>
    cases h
    exact ⟨.refl _, fun k hle hlt => absurd hlt (by omega), fun _ _ => rfl⟩
  | succ n ih =>
    rw [writeEach, byteShift_eq (by omega)] at h
    obtain ⟨b, m₁, hlocate, h⟩ := on_bind_eq_ok.mp h
    obtain ⟨_, m₂, hwrite, h⟩ := (on_bind_eq_ok (a := Memory.writeAt b 1 (value >>> (8 * i)))).mp h
    obtain ⟨hfirst, sound₂⟩ := sound.rewritten (by decide) (not_straddles_one _) hlocate hwrite
    exact hfirst.cons (by omega) (ih sound₂ (by omega) h)

/-- A store that goes through has written all of its bytes. -/
theorem Sound.store_rewritten (sound : m.Sound) {value : Word} {u : Unit} (small : size ≤ 8)
    (h : (store addr size value).on m = .ok (.ok u, m')) :
  m.space.Rewritten m'.space addr value 0 size
  := by
  unfold store at h
  split at h
  case isTrue =>
    obtain ⟨_, m₁, hfirst, h⟩ := on_bind_eq_ok.mp h
    obtain ⟨_, m₂, hlast, h⟩ := on_bind_eq_ok.mp h
    obtain ⟨b, hfirst⟩ := on_discard_eq_ok.mp hfirst
    obtain ⟨b', hlast⟩ := on_discard_eq_ok.mp hlast
    obtain ⟨sound₁, hspace₁, -⟩ := (sound.locate _ _).post_of_eq hfirst
    obtain ⟨sound₂, hspace₂, -⟩ := (sound₁.locate _ _).post_of_eq hlast
    have hwritten := sound₂.writeEach_rewritten (by omega) h
    dsimp only at hspace₁ hspace₂
    rw [hspace₂, hspace₁] at hwritten
    exact hwritten
  case isFalse inside =>
    obtain ⟨b, m₁, hlocate, hwrite⟩ := on_bind_eq_ok.mp h
    have haddr : addr + BitVec.ofNat 64 0 = addr := BitVec.add_zero addr
    rw [← haddr] at inside hlocate
    exact (sound.rewritten small (Bool.eq_false_iff.mpr inside) hlocate hwrite).1

/-- A store writes all of its bytes or none.  Once its first and last byte were translated, no byte of
it faults, whatever the policy says by then. -/
theorem store_all_or_nothing (m : Memory) (addr value : Word) {size : Nat}
    (sized : size ∈ [1, 2, 4, 8]) :
  (∀ f m', (store addr size value).on m = .ok (.error f, m') → m'.space = m.space) ∧
  (∀ b b' m₁ m₂ r m', (locate addr .write).on m = .ok (.ok b, m₁) →
    (locate (addr + BitVec.ofNat 64 (size - 1)) .write).on m₁ = .ok (.ok b', m₂) →
    (writeEach addr value size 0).on m₂ = .ok (r, m') → r = .ok ()) ∧
  (m.Sound → ∃ r m', (store addr size value).on m = .ok (r, m') ∧ m'.Sound ∧
    (r = .ok () → m.space.Rewritten m'.space addr value 0 size))
  := by
  have hsmall : size ≤ 8 := by
    simp only [List.mem_cons, List.not_mem_nil, or_false] at sized
    omega
  refine ⟨fun f m' h => space_of_store_error hsmall h, ?_, ?_⟩
  · intro b b' m₁ m₂ r m' hfirst hlast h
    exact ((checked_of_locate hsmall hfirst hlast).writeEach value hsmall (by omega)).post_of_eq h
  · intro sound
    obtain ⟨⟨r, m'⟩, h, -, sound'⟩ :=
      (sound_store addr hsmall value m sound.stays).exists_ok trivial
    refine ⟨r, m', h, sound', ?_⟩
    rintro rfl
    exact sound.store_rewritten hsmall h

/-- A page of RAM, a page of a device behind it, and a policy that allows each access once. -/
def shore : Memory where
  space := ⟨Bytes.zeros 0x1000, 0, [⟨0x1000, 0x1000, .storage⟩]⟩
  policy := { answer := fun history q => !history.any fun asked => asked.1 = q }

/-- A store to the last bytes of RAM and the first ones of the device goes through, and one that
leaves the device has written nothing to it. -/
theorem store_all_or_nothing_at_shore :
  8 ∈ [1, 2, 4, 8] ∧ shore.Sound ∧
  (∃ m', (store 0xffc 8 0x1122334455667788).on shore = .ok (.ok (), m') ∧
    shore.space.Rewritten m'.space 0xffc 0x1122334455667788 0 8) ∧
  ∃ m', (store 0x1ffc 8 0x1122334455667788).on shore = .ok (.error ⟨0x2003, .write⟩, m') ∧
    m'.space = shore.space
  := by
  have hsound : shore.Sound :=
    sound_unused ⟨rfl, List.forall_mem_singleton.mpr rfl⟩ (by rw [Bytes.size_zeros]; rfl)
  have hdone : ((store 0xffc 8 0x1122334455667788).on shore).toOption.map Prod.fst = some (.ok ()) := by
    decide +kernel
  have hfault : ((store 0x1ffc 8 0x1122334455667788).on shore).toOption.map Prod.fst =
      some (.error ⟨0x2003, .write⟩) := by
    decide +kernel
  refine ⟨by decide, hsound, ?_, ?_⟩
  · obtain ⟨-, -, hstore⟩ := store_all_or_nothing shore 0xffc 0x1122334455667788 (by decide : 8 ∈ [1, 2, 4, 8])
    obtain ⟨r, m', h, -, hwritten⟩ := hstore hsound
    rw [h] at hdone
    obtain rfl := Option.some.inj hdone
    exact ⟨m', h, hwritten rfl⟩
  · obtain ⟨hkept, -, hstore⟩ :=
      store_all_or_nothing shore 0x1ffc 0x1122334455667788 (by decide : 8 ∈ [1, 2, 4, 8])
    obtain ⟨r, m', h, -⟩ := hstore hsound
    rw [h] at hfault
    obtain rfl := Option.some.inj hfault
    exact ⟨m', h, hkept _ m' h⟩

end Memory

end CrossHart
