import CrossHart.Proofs.Memory.Plain
import Mathlib.Data.List.GetD

/-!
# Guest memory as an array of bytes

Without devices and under a policy that does not change its mind, guest memory is an array with a byte
for every address.  A load or a store goes through exactly if all of its bytes are in RAM on pages
that allow it.  Whether it stays in one page or is carried out byte by byte makes no difference, nor
does what the lookaside table holds.  Devices make no difference either to loads from other pages.
-/

namespace CrossHart

/-! ### Numbers and their bytes -/

namespace Bytes

theorem ofLittleEndian_append (l l' : List UInt8) :
  ofLittleEndian (l ++ l') = ofLittleEndian l + 256 ^ l.length * ofLittleEndian l'
  := by
  induction l with
  | nil => simp [ofLittleEndian]
  | cons b bs ih =>
    rw [List.cons_append, ofLittleEndian, ofLittleEndian, ih, List.length_cons, Nat.pow_succ,
      Nat.mul_comm (256 ^ bs.length) 256, Nat.mul_assoc, Nat.mul_add, Nat.add_assoc]

/-- The low byte of a word stands before those of the rest. -/
theorem ofWord_succ (n : Nat) (w : Word) :
  ofWord (n + 1) w = UInt8.ofNat w.toNat :: ofWord n (w >>> 8)
  := by
  rw [ofWord, littleEndian, ofWord, BitVec.toNat_ushiftRight, Nat.shiftRight_eq_div_pow]

/-- A byte goes into a word above the bytes before it. -/
theorem ofNat_or_shiftLeft {x b i : Nat} (low : x < 256 ^ i) (byte : b < 256) (small : i < 8) :
  BitVec.ofNat 64 x ||| BitVec.ofNat 64 b <<< (8 * i) = BitVec.ofNat 64 (x + 256 ^ i * b)
  := by
  have hpow : 256 ^ i = 2 ^ (8 * i) := by rw [Nat.pow_mul]
  have htop : 2 ^ (8 * i) * 256 ≤ 2 ^ 64 := by
    rw [show 256 = 2 ^ 8 from rfl, ← Nat.pow_add]
    exact Nat.pow_le_pow_right (by decide) (by omega)
  have hmul : 2 ^ (8 * i) * b ≤ 2 ^ (8 * i) * 255 := Nat.mul_le_mul_left _ (by omega)
  rw [hpow] at low ⊢
  apply BitVec.eq_of_toNat_eq
  rw [BitVec.toNat_or, BitVec.toNat_shiftLeft, BitVec.toNat_ofNat, BitVec.toNat_ofNat,
    BitVec.toNat_ofNat, Nat.shiftLeft_eq, Nat.mod_eq_of_lt (by omega : b < 2 ^ 64),
    Nat.mul_comm b, Nat.mod_eq_of_lt (by omega), Nat.mod_eq_of_lt (by omega),
    Nat.mod_eq_of_lt (by omega), Nat.or_comm, Nat.add_comm x,
    Nat.two_pow_add_eq_or_of_lt low]

end Bytes

namespace Memory

open CrossHart.Action

/-! ### Arrays of bytes -/

/-- The bytes from an address on.  Behind the last address comes the first. -/
def gather (bytes : Word → UInt8) (addr : Word) (n : Nat) : List UInt8 :=
  (List.range n).map fun i => bytes (addr + BitVec.ofNat 64 i)

/-- The array with the bytes from an address on replaced. -/
def scatter (bytes : Word → UInt8) (addr : Word) (new : List UInt8) : Word → UInt8 :=
  fun a => new.getD (a - addr).toNat (bytes a)

@[simp]
theorem length_gather (bytes : Word → UInt8) (addr : Word) (n : Nat) :
  (gather bytes addr n).length = n
  := by
  rw [gather, List.length_map, List.length_range]

theorem gather_succ (bytes : Word → UInt8) (addr : Word) (n : Nat) :
  gather bytes addr (n + 1) = gather bytes addr n ++ [bytes (addr + BitVec.ofNat 64 n)]
  := by
  rw [gather, List.range_succ, List.map_append]
  rfl

/-- Replacing bytes one after the other. -/
theorem scatter_cons (bytes : Word → UInt8) (addr : Word) (b : UInt8) {new : List UInt8}
    (short : new.length < Word.count) :
  scatter bytes addr (b :: new) = scatter (scatter bytes addr [b]) (addr + 1) new
  := by
  funext a
  have hnext : a - (addr + 1) = a - addr - 1 := by bv_omega
  unfold scatter
  rw [hnext]
  generalize a - addr = d
  cases hd : d.toNat with
  | zero =>
    have hwrap : (d - 1).toNat = Word.count - 1 := by
      rw [BitVec.eq_of_toNat_eq (x := d) (y := 0) hd]
      rfl
    rw [hwrap, List.getD_eq_default new _ (by omega)]
    rfl
  | succ k =>
    have hprev : (d - 1).toNat = k := by
      have hlt := d.isLt
      rw [BitVec.toNat_sub, show (1 : Word).toNat = 1 from rfl]
      omega
    rw [hprev]
    rfl

variable {allows : Query → Bool} {m m' : Memory} {s : Space} {access : Access} {addr addr' : Word}

/-! ### Bytes that may be accessed -/

/-- The byte at an address is in RAM, on a page that allows an access. -/
def Space.Grants (s : Space) (allows : Query → Bool) (access : Access) (addr : Word) : Prop :=
  s.ramContains addr = true ∧ allows ⟨pageOf addr, access⟩ = true

theorem Space.ramContains_iff (s : Space) (addr : Word) :
  s.ramContains addr = true ↔ s.base.toNat ≤ addr.toNat ∧ addr.toNat - s.base.toNat < s.ram.size
  := by
  have htop := addr.isLt
  rw [ramContains, Bool.and_eq_true_iff, BitVec.ule, decide_eq_true_eq, decide_eq_true_eq,
    BitVec.toNat_sub]
  constructor
  · rintro ⟨hle, hlt⟩
    exact ⟨hle, by omega⟩
  · rintro ⟨hle, hlt⟩
    exact ⟨hle, by omega⟩

/-- A page is in RAM as a whole or not at all. -/
theorem Space.ramContains_pageStart (base : inPage s.base = 0) (whole : s.ram.size % pageSize = 0)
    (addr : Word) :
  s.ramContains (pageStart addr) = s.ramContains addr
  := by
  have hbase : s.base.toNat % 4096 = 0 := (inPage_eq_zero_iff s.base).mp base
  rw [pageSize] at whole
  rw [Bool.eq_iff_iff, s.ramContains_iff, s.ramContains_iff, toNat_pageStart]
  constructor
  · rintro ⟨hle, hlt⟩
    exact ⟨by omega, by omega⟩
  · rintro ⟨hle, hlt⟩
    exact ⟨by omega, by omega⟩

theorem Guarded.ramContains_pageStart (guarded : m.Guarded allows) (addr : Word) :
  m.space.ramContains (pageStart addr) = m.space.ramContains addr
  := m.space.ramContains_pageStart guarded.aligned.base guarded.whole addr

/-- All bytes of a page may be accessed, or none. -/
theorem Guarded.grants_congr (guarded : m.Guarded allows) (h : pageOf addr = pageOf addr') :
  m.space.Grants allows access addr ↔ m.space.Grants allows access addr'
  := by
  unfold Space.Grants
  rw [← guarded.ramContains_pageStart addr, ← guarded.ramContains_pageStart addr', pageStart_eq,
    pageStart_eq, h]

/-- The page of an address is a device's. -/
def Space.OnDevice (s : Space) (addr : Word) : Prop :=
  ∃ i offset, s.resolve addr = some (.device i offset)

theorem Guarded.resolve_of_ramContains (guarded : m.Guarded allows)
    (inside : m.space.ramContains addr = true) :
  m.space.resolve addr = some (.ram (pageStart addr - m.space.base).toNat)
  := by
  rw [← guarded.ramContains_pageStart addr] at inside
  unfold Space.resolve
  dsimp only
  rw [if_pos inside]

/-- Without devices, there are none at any address. -/
theorem Plain.not_onDevice (plain : m.Plain allows) (addr : Word) :
  ¬m.space.OnDevice addr
  := by
  rintro ⟨i, offset, hresolve⟩
  unfold Space.resolve at hresolve
  rw [plain.bare] at hresolve
  dsimp only at hresolve
  split at hresolve <;> cases hresolve

/-- What neither RAM nor a device contains has no backing. -/
theorem Guarded.resolve_eq_none (guarded : m.Guarded allows) (outside : ¬m.space.ramContains addr = true)
    (apart : ¬m.space.OnDevice addr) :
  m.space.resolve addr = none
  := by
  cases hresolve : m.space.resolve addr with
  | none => rfl
  | some page =>
    cases page with
    | device i offset => exact absurd ⟨i, offset, hresolve⟩ apart
    | ram position =>
      rw [← guarded.ramContains_pageStart addr] at outside
      unfold Space.resolve at hresolve
      dsimp only at hresolve
      rw [if_neg outside] at hresolve
      obtain ⟨i, -, hregion⟩ := Option.bind_eq_some_iff.mp hresolve
      obtain ⟨r, -, hdevice⟩ := Option.map_eq_some_iff.mp hregion
      cases hdevice

theorem Guarded.locate_granted (guarded : m.Guarded allows)
    (granted : m.space.Grants allows access addr) :
  ∃ position m', (Memory.locate addr access).on m = .ok (.ok (.ram position), m') ∧
    m'.space.Places addr position ∧ Peeks allows m m'
  := by
  obtain ⟨m', hm', hpeeks⟩ := guarded.locate addr access
  have hresolve := guarded.resolve_of_ramContains granted.1
  rw [Space.translate, hresolve] at hm'
  dsimp only at hm'
  rw [if_pos granted.2] at hm'
  refine ⟨_, m', hm', ?_, hpeeks⟩
  rw [hpeeks.space]
  exact Space.places_of_resolve guarded.aligned.base guarded.whole hresolve rfl

theorem Guarded.locate_denied (guarded : m.Guarded allows) (apart : ¬m.space.OnDevice addr)
    (denied : ¬m.space.Grants allows access addr) :
  ∃ m', (Memory.locate addr access).on m = .ok (.error ⟨addr, access⟩, m') ∧ Peeks allows m m'
  := by
  obtain ⟨m', hm', hpeeks⟩ := guarded.locate addr access
  refine ⟨m', ?_, hpeeks⟩
  rw [hm', Space.translate]
  by_cases hram : m.space.ramContains addr = true
  · rw [guarded.resolve_of_ramContains hram]
    dsimp only
    rw [if_neg fun hallowed => denied ⟨hram, hallowed⟩]
  · rw [guarded.resolve_eq_none hram apart]

theorem Plain.locate_granted (plain : m.Plain allows) (granted : m.space.Grants allows access addr) :
  ∃ position m', (Memory.locate addr access).on m = .ok (.ok (.ram position), m') ∧
    m'.space.Places addr position ∧ Looks allows m m'
  := by
  obtain ⟨position, m', hm', hplaces, hpeeks⟩ := plain.toGuarded.locate_granted granted
  exact ⟨position, m', hm', hplaces, hpeeks.looks plain⟩

theorem Plain.locate_denied (plain : m.Plain allows) (denied : ¬m.space.Grants allows access addr) :
  ∃ m', (Memory.locate addr access).on m = .ok (.error ⟨addr, access⟩, m') ∧ Looks allows m m'
  := by
  obtain ⟨m', hm', hpeeks⟩ := plain.toGuarded.locate_denied (plain.not_onDevice addr) denied
  exact ⟨m', hm', hpeeks.looks plain⟩

/-! ### Reading -/

/-- What `n` bytes from an address on give: their value, or a fault at one that may not be accessed. -/
inductive Reads (grants : Access → Word → Prop) (bytes : Word → UInt8) (addr : Word) (n : Nat)
    (access : Access) : Except Fault Word → Prop where
  | value (granted : ∀ i < n, grants access (addr + BitVec.ofNat 64 i)) :
      Reads grants bytes addr n access
        (.ok (BitVec.ofNat 64 (Bytes.ofLittleEndian (gather bytes addr n))))
  | fault {i : Nat} (inside : i < n) (denied : ¬grants access (addr + BitVec.ofNat 64 i)) :
      Reads grants bytes addr n access (.error ⟨addr + BitVec.ofNat 64 i, access⟩)

theorem Space.Places.slice0_eq {position size : Nat} (places : s.Places addr position)
    (inside : straddles addr size = false) :
  Bytes.slice0 s.ram position size = gather s.byteAt addr size
  := by
  apply List.ext_getElem
  · rw [Bytes.length_slice0, length_gather]
  · intro k hk hk'
    rw [Bytes.length_slice0] at hk
    have hget : (Bytes.slice0 s.ram position size)[k]? = some (Bytes.at0 s.ram (position + k)) :=
      Bytes.getElem?_slice0 hk
    rw [List.getElem?_eq_getElem (by rwa [Bytes.length_slice0])] at hget
    rw [Option.some.inj hget, ← places.byteAt_add inside hk]
    simp [gather]

theorem on_readAt_gather {position size : Nat} (places : m.space.Places addr position)
    (inside : straddles addr size = false) (small : size ≤ 8) :
  (readAt (.ram position) size).on m =
    .ok (.ok (BitVec.ofNat 64 (Bytes.ofLittleEndian (gather m.space.byteAt addr size))), m)
  := by
  rw [on_readAt small (places.fits inside), Bytes.readNat, places.slice0_eq inside]

/-- Reading byte by byte, with the bytes before the `i`-th read already. -/
theorem Guarded.readEach (guarded : m.Guarded allows) (addr : Word) (access : Access) {n i : Nat}
    (small : i + n ≤ 8) (apart : ∀ j < i + n, ¬m.space.OnDevice (addr + BitVec.ofNat 64 j))
    (before : ∀ j < i, m.space.Grants allows access (addr + BitVec.ofNat 64 j)) :
  ∃ result m', (readEach addr access n i
      (BitVec.ofNat 64 (Bytes.ofLittleEndian (gather m.space.byteAt addr i)))).on m =
        .ok (result, m') ∧
    Peeks allows m m' ∧ Reads (m.space.Grants allows) m.space.byteAt addr (i + n) access result
  := by
  induction n generalizing m i with
  | zero => exact ⟨_, m, rfl, .refl guarded, .value before⟩
  | succ n ih =>
    rw [Memory.readEach, on_bind]
    by_cases hgranted : m.space.Grants allows access (addr + BitVec.ofNat 64 i)
    · obtain ⟨position, m₁, hlocate, hplaces, hpeeks⟩ := guarded.locate_granted hgranted
      rw [hlocate]
      dsimp only
      rw [on_bind, on_readAt_gather hplaces (not_straddles_one _) (by decide), hpeeks.space]
      dsimp only
      have hbyte : gather m.space.byteAt (addr + BitVec.ofNat 64 i) 1 =
          [m.space.byteAt (addr + BitVec.ofNat 64 i)] := by
        rw [gather_succ, BitVec.add_zero]
        rfl
      have hvalue : BitVec.ofNat 64 (Bytes.ofLittleEndian (gather m.space.byteAt addr i)) |||
          BitVec.ofNat 64 (Bytes.ofLittleEndian
            (gather m.space.byteAt (addr + BitVec.ofNat 64 i) 1)) <<< (8 * i) =
          BitVec.ofNat 64 (Bytes.ofLittleEndian (gather m₁.space.byteAt addr (i + 1))) := by
        have hlow := Bytes.ofLittleEndian_lt (gather m.space.byteAt addr i)
        have hhigh := Bytes.ofLittleEndian_lt [m.space.byteAt (addr + BitVec.ofNat 64 i)]
        rw [length_gather] at hlow
        rw [hbyte, hpeeks.space, gather_succ, Bytes.ofLittleEndian_append, length_gather,
          Bytes.ofNat_or_shiftLeft hlow hhigh (by omega)]
      obtain ⟨result, m', hrest, hpeeks', hreads⟩ := ih hpeeks.after (by omega : i + 1 + n ≤ 8) (by
        intro j hj
        rw [hpeeks.space]
        exact apart j (by omega)) (by
        intro j hj
        rw [hpeeks.space]
        obtain rfl | hj := Nat.eq_or_lt_of_le (Nat.le_of_lt_succ hj)
        · exact hgranted
        · exact before j hj)
      refine ⟨result, m', ?_, hpeeks.trans hpeeks', ?_⟩
      · rw [byteShift_eq (by omega), ← hrest, ← hvalue]
        rfl
      · rw [hpeeks.space, Nat.add_right_comm] at hreads
        exact hreads
    · obtain ⟨m', hlocate, hpeeks⟩ := guarded.locate_denied (apart i (by omega)) hgranted
      rw [hlocate]
      exact ⟨_, m', rfl, hpeeks, .fault (by omega) hgranted⟩

/-- An access that stays in its page is all on the page of its first byte. -/
theorem pageOf_of_not_straddles {size i : Nat} (inside : straddles addr size = false) (hi : i < size) :
  pageOf (addr + BitVec.ofNat 64 i) = pageOf addr
  := by
  have hlt := Space.Places.lt_of_not_straddles inside
  have htop := addr.isLt
  rw [pageOf_eq_iff, BitVec.toNat_add, BitVec.toNat_ofNat]
  simp only [pageSize] at hlt
  omega

/-- Reading gives the little-endian value of the bytes read, if all of them may be accessed. -/
theorem Guarded.read (guarded : m.Guarded allows) (addr : Word) {size : Nat} (pos : 0 < size)
    (small : size ≤ 8) (access : Access)
    (apart : ∀ j < size, ¬m.space.OnDevice (addr + BitVec.ofNat 64 j)) :
  ∃ result m', (read addr size access).on m = .ok (result, m') ∧
    Peeks allows m m' ∧ Reads (m.space.Grants allows) m.space.byteAt addr size access result
  := by
  unfold Memory.read
  split
  case isTrue =>
    have hreads := guarded.readEach addr access (n := size) (i := 0) (by omega) (by rwa [Nat.zero_add])
      nofun
    rw [Nat.zero_add] at hreads
    exact hreads
  case isFalse inside =>
    have inside := Bool.eq_false_iff.mpr inside
    rw [on_bind]
    by_cases hgranted : m.space.Grants allows access addr
    · obtain ⟨position, m', hlocate, hplaces, hpeeks⟩ := guarded.locate_granted hgranted
      rw [hlocate]
      dsimp only
      rw [on_readAt_gather hplaces inside small, hpeeks.space]
      refine ⟨_, m', rfl, hpeeks, .value fun i hi => ?_⟩
      rw [guarded.grants_congr (pageOf_of_not_straddles inside hi)]
      exact hgranted
    · have hfirst := apart 0 pos
      rw [BitVec.add_zero] at hfirst
      obtain ⟨m', hlocate, hpeeks⟩ := guarded.locate_denied hfirst hgranted
      rw [hlocate]
      have hfault : Reads (m.space.Grants allows) m.space.byteAt addr size access
          (.error ⟨addr + BitVec.ofNat 64 0, access⟩) := .fault pos (by rwa [BitVec.add_zero])
      rw [BitVec.add_zero] at hfault
      exact ⟨_, m', rfl, hpeeks, hfault⟩

theorem Plain.read (plain : m.Plain allows) (addr : Word) {size : Nat} (pos : 0 < size)
    (small : size ≤ 8) (access : Access) :
  ∃ result m', (read addr size access).on m = .ok (result, m') ∧
    Looks allows m m' ∧ Reads (m.space.Grants allows) m.space.byteAt addr size access result
  := by
  obtain ⟨result, m', hread, hpeeks, hreads⟩ :=
    plain.toGuarded.read addr pos small access fun _ _ => plain.not_onDevice _
  exact ⟨result, m', hread, hpeeks.looks plain, hreads⟩

/-! ### Writing -/

theorem on_discard {σ ε α : Type} (a : Action σ ε α) (s : σ) :
  (discard a).on s =
    match a.on s with
    | .ok (.ok _, t) => .ok (.ok (), t)
    | .ok (.error e, t) => .ok (.error e, t)
    | .error crash => .error crash
  := by
  rw [discard, map_const]
  apply on_map

/-- What storing bytes from an address on does: it replaces them, or faults at one that may not be
written. -/
inductive Writes (grants : Access → Word → Prop) (bytes : Word → UInt8) (addr : Word) (n : Nat)
    (value : Word) : Except Fault Unit → (Word → UInt8) → Prop where
  | done (granted : ∀ i < n, grants .write (addr + BitVec.ofNat 64 i)) :
      Writes grants bytes addr n value (.ok ()) (scatter bytes addr (Bytes.ofWord n value))
  | fault {i : Nat} (inside : i < n) (denied : ¬grants .write (addr + BitVec.ofNat 64 i)) :
      Writes grants bytes addr n value (.error ⟨addr + BitVec.ofNat 64 i, .write⟩) bytes

/-- A position of RAM belongs to an access within one page if its address does. -/
theorem Space.Places.byteAt_overwrite {position : Nat} (places : s.Places addr position)
    (new : List UInt8) (inside : straddles addr new.length = false) :
  Space.byteAt { s with ram := Bytes.overwrite s.ram position new } =
    scatter s.byteAt addr new
  := by
  funext a
  have hfits := places.fits inside
  have hlt := lt_of_not_straddles inside
  have haddr := places.addr
  have htop := addr.isLt
  have ha := a.isLt
  have hbase := s.base.isLt
  simp only [pageSize] at hlt
  change Bytes.at0 (Bytes.overwrite s.ram position new) (a - s.base).toNat = _
  rw [Bytes.at0_overwrite hfits, scatter]
  have hoffset : (a - addr).toNat < new.length ↔
      position ≤ (a - s.base).toNat ∧ (a - s.base).toNat < position + new.length := by
    rw [BitVec.toNat_sub, BitVec.toNat_sub]
    omega
  by_cases hin : (a - addr).toNat < new.length
  · have hpos : (a - s.base).toNat - position = (a - addr).toNat := by
      obtain ⟨hlow, hhigh⟩ := hoffset.mp hin
      rw [BitVec.toNat_sub] at hlow hhigh ⊢
      rw [BitVec.toNat_sub]
      omega
    rw [if_pos (hoffset.mp hin), hpos, List.getD_eq_getElem new _ hin, List.getD_eq_getElem new _ hin]
  · rw [if_neg fun h => hin (hoffset.mpr h), List.getD_eq_default new _ (Nat.le_of_not_lt hin)]
    rfl

theorem Plain.writeAt (plain : m.Plain allows) {position size : Nat} (value : Word) (small : size ≤ 8)
    (places : m.space.Places addr position) (inside : straddles addr size = false)
    (granted : m.space.Grants allows .write addr) :
  ∃ m', (writeAt (.ram position) size value).on m = .ok (.ok (), m') ∧ Evolves allows m m' ∧
    m'.space.byteAt = scatter m.space.byteAt addr (Bytes.ofWord size value)
  := by
  have hlength : (Bytes.ofWord size value).length = size := Bytes.length_littleEndian _ _
  have hevolves := meets_writeAt plain value small places inside granted.2
  have hbytes := places.byteAt_overwrite (Bytes.ofWord size value) (by rwa [hlength])
  have hfits := places.fits inside
  obtain ⟨lookaside, ⟨ram, base, regions⟩, policy⟩ := m
  have hon : (Memory.writeAt (.ram position) size value).on ⟨lookaside, ⟨ram, base, regions⟩, policy⟩ =
      .ok (.ok (), ⟨lookaside, ⟨Bytes.overwrite ram position (Bytes.ofWord size value), base, regions⟩,
        policy⟩) := by
    rw [Memory.writeAt, on_of]
    dsimp only
    rw [Space.write, if_pos ⟨small, hfits⟩]
  exact ⟨_, hon, hevolves.post_of_eq hon, hbytes⟩

theorem Space.SameLayout.grants {s s' : Space} (h : s.SameLayout s') (access : Access) (addr : Word) :
  s'.Grants allows access addr ↔ s.Grants allows access addr
  := by
  unfold Space.Grants
  rw [s'.ramContains_iff, s.ramContains_iff, h.base, h.size]

/-- Writing byte by byte, all of which may be written. -/
theorem Plain.writeEach (plain : m.Plain allows) (addr value : Word) {n i : Nat} (small : i + n ≤ 8)
    (granted : ∀ j < i + n, m.space.Grants allows .write (addr + BitVec.ofNat 64 j)) :
  ∃ m', (writeEach addr value n i).on m = .ok (.ok (), m') ∧ Evolves allows m m' ∧
    m'.space.byteAt =
      scatter m.space.byteAt (addr + BitVec.ofNat 64 i) (Bytes.ofWord n (value >>> (8 * i)))
  := by
  induction n generalizing m i with
  | zero => exact ⟨m, rfl, plain.evolves, rfl⟩
  | succ n ih =>
    have hgranted := granted i (by omega)
    obtain ⟨position, m₁, hlocate, hplaces, hlooks⟩ := plain.locate_granted hgranted
    rw [← hlooks.space] at hgranted
    obtain ⟨m₂, hwrite, hevolves, hbytes⟩ := hlooks.after.writeAt (value >>> (8 * i)) (by decide)
      hplaces (not_straddles_one _) hgranted
    obtain ⟨m', hrest, hevolves', hbytes'⟩ := ih hevolves.after (by omega : i + 1 + n ≤ 8) (by
      intro j hj
      rw [hevolves.layout.grants, hlooks.space]
      exact granted j (by omega))
    refine ⟨m', ?_, ?_, ?_⟩
    · rw [Memory.writeEach, on_bind, hlocate]
      dsimp only
      rw [byteShift_eq (by omega)]
      change (Memory.writeAt (.ram position) 1 (value >>> (8 * i)) >>= fun _ =>
        Memory.writeEach addr value n (i + 1)).on m₁ = _
      rw [on_bind, hwrite]
      exact hrest
    · have course := isCourse_evolves allows
      exact course.trans _ _ _ hlooks.evolves (course.trans _ _ _ hevolves hevolves')
    · have hshift : value >>> (8 * i) >>> 8 = value >>> (8 * (i + 1)) := by
        rw [← BitVec.shiftRight_add]
        rfl
      have hnext : addr + BitVec.ofNat 64 i + 1 = addr + BitVec.ofNat 64 (i + 1) := by
        rw [BitVec.ofNat_add, BitVec.add_assoc]
        rfl
      have hshort : (Bytes.ofWord n (value >>> (8 * (i + 1)))).length < Word.count := by
        rw [Bytes.ofWord, Bytes.length_littleEndian, Word.count]
        omega
      rw [hbytes', hbytes, hlooks.space, Bytes.ofWord_succ, Bytes.ofWord_succ, hshift,
        scatter_cons _ _ _ hshort, hnext]
      rfl

/-- A byte of a short access is on the page of the first or of the last one. -/
theorem pageOf_of_short {size i : Nat} (addr : Word) (small : size ≤ 8) (hi : i < size) :
  pageOf (addr + BitVec.ofNat 64 i) = pageOf addr ∨
    pageOf (addr + BitVec.ofNat 64 i) = pageOf (addr + BitVec.ofNat 64 (size - 1))
  := by
  have htop := addr.isLt
  rw [pageOf_eq_iff, pageOf_eq_iff, BitVec.toNat_add, BitVec.toNat_add, BitVec.toNat_ofNat,
    BitVec.toNat_ofNat]
  omega

/-- Storing replaces the bytes stored to, if all of them may be written, and none otherwise. -/
theorem Plain.store (plain : m.Plain allows) (addr : Word) {size : Nat} (pos : 0 < size)
    (small : size ≤ 8) (value : Word) :
  ∃ result m', (store addr size value).on m = .ok (result, m') ∧ Evolves allows m m' ∧
    Writes (m.space.Grants allows) m.space.byteAt addr size value result m'.space.byteAt
  := by
  have hfault {i : Nat} (hi : i < size) {m' : Memory} (hlooks : Looks allows m m')
      (denied : ¬m.space.Grants allows .write (addr + BitVec.ofNat 64 i)) :
      Writes (m.space.Grants allows) m.space.byteAt addr size value
        (.error ⟨addr + BitVec.ofNat 64 i, .write⟩) m'.space.byteAt := by
    rw [hlooks.space]
    exact .fault hi denied
  unfold Memory.store
  split
  case isTrue =>
    rw [on_bind]
    by_cases hfirst : m.space.Grants allows .write addr
    · obtain ⟨position, m₁, hlocate, -, hlooks⟩ := plain.locate_granted hfirst
      rw [on_discard, hlocate]
      dsimp only
      rw [on_bind]
      by_cases hlast : m.space.Grants allows .write (addr + BitVec.ofNat 64 (size - 1))
      · rw [← hlooks.space] at hlast
        obtain ⟨position', m₂, hlocate', -, hlooks'⟩ := hlooks.after.locate_granted hlast
        have hlooked := (isCourse_looks allows).trans _ _ _ hlooks hlooks'
        rw [hlooks.space] at hlast
        have hgranted (i : Nat) (hi : i < size) :
            m.space.Grants allows .write (addr + BitVec.ofNat 64 i) := by
          obtain hpage | hpage := pageOf_of_short addr small hi
          · rwa [plain.grants_congr hpage]
          · rwa [plain.grants_congr hpage]
        obtain ⟨m', hwrite, hevolves, hbytes⟩ := hlooks'.after.writeEach addr value
          (n := size) (i := 0) (by omega) (by
            intro j hj
            rw [hlooked.space]
            exact hgranted j (by omega))
        rw [on_discard, hlocate']
        refine ⟨_, m', hwrite, (isCourse_evolves allows).trans _ _ _ hlooked.evolves hevolves, ?_⟩
        rw [hbytes, hlooked.space, BitVec.add_zero]
        exact .done hgranted
      · rw [← hlooks.space] at hlast
        obtain ⟨m₂, hlocate', hlooks'⟩ := hlooks.after.locate_denied hlast
        have hlooked := (isCourse_looks allows).trans _ _ _ hlooks hlooks'
        rw [hlooks.space] at hlast
        rw [on_discard, hlocate']
        exact ⟨_, m₂, rfl, hlooked.evolves, hfault (by omega) hlooked hlast⟩
    · obtain ⟨m', hlocate, hlooks⟩ := plain.locate_denied hfirst
      rw [on_discard, hlocate]
      have hwrites := hfault pos hlooks (by rwa [BitVec.add_zero])
      rw [BitVec.add_zero] at hwrites
      exact ⟨_, m', rfl, hlooks.evolves, hwrites⟩
  case isFalse inside =>
    have inside := Bool.eq_false_iff.mpr inside
    rw [on_bind]
    by_cases hgranted : m.space.Grants allows .write addr
    · obtain ⟨position, m₁, hlocate, hplaces, hlooks⟩ := plain.locate_granted hgranted
      rw [hlocate]
      dsimp only
      rw [← hlooks.space] at hgranted
      obtain ⟨m', hwrite, hevolves, hbytes⟩ := hlooks.after.writeAt value small hplaces inside hgranted
      rw [hlooks.space] at hgranted hbytes
      refine ⟨_, m', hwrite, (isCourse_evolves allows).trans _ _ _ hlooks.evolves hevolves, ?_⟩
      rw [hbytes]
      refine .done fun i hi => ?_
      rw [plain.grants_congr (pageOf_of_not_straddles inside hi)]
      exact hgranted
    · obtain ⟨m', hlocate, hlooks⟩ := plain.locate_denied hgranted
      rw [hlocate]
      have hwrites := hfault pos hlooks (by rwa [BitVec.add_zero])
      rw [BitVec.add_zero] at hwrites
      exact ⟨_, m', rfl, hlooks.evolves, hwrites⟩

/-! ### Loads and stores, one after the other -/

/-- A load or a store. -/
inductive Operation where
  | load (addr : Word) (size : Nat)
  | store (addr : Word) (size : Nat) (value : Word)

namespace Operation

/-- The number of bytes loaded or stored. -/
def size : Operation → Nat
  | load _ size => size
  | store _ size _ => size

/-- Carrying out a load or a store.  Only a load has a value. -/
def run : Operation → Action Memory Fault (Option Word)
  | load addr size => some <$> Memory.load addr size
  | store addr size value => (fun _ => none) <$> Memory.store addr size value

/-- Carrying out loads and stores in order, whether they fault or not. -/
def runAll : List Operation → Memory → Except Crash (List (Except Fault (Option Word)) × Memory)
  | [], m => .ok ([], m)
  | t :: rest, m => do
    let (result, m) ← t.run.on m
    let (results, m) ← runAll rest m
    return (result :: results, m)

/-- What a load or a store gives and makes of an array of bytes. -/
inductive Acts (grants : Access → Word → Prop) (bytes : Word → UInt8) :
    Operation → Except Fault (Option Word) → (Word → UInt8) → Prop where
  | load {addr : Word} {size : Nat} {result : Except Fault Word}
      (reads : Reads grants bytes addr size .read result) :
      Acts grants bytes (.load addr size) (result.map some) bytes
  | store {addr : Word} {size : Nat} {value : Word} {result : Except Fault Unit}
      {bytes' : Word → UInt8} (writes : Writes grants bytes addr size value result bytes') :
      Acts grants bytes (.store addr size value) (result.map fun _ => none) bytes'

/-- What loads and stores give and make of an array of bytes, one after the other. -/
inductive ActsAll (grants : Access → Word → Prop) :
    (Word → UInt8) → List Operation → List (Except Fault (Option Word)) → (Word → UInt8) → Prop where
  | nil (bytes : Word → UInt8) : ActsAll grants bytes [] [] bytes
  | cons {bytes bytes' bytes'' : Word → UInt8} {t : Operation} {rest : List Operation}
      {result : Except Fault (Option Word)} {results : List (Except Fault (Option Word))}
      (first : Acts grants bytes t result bytes') (later : ActsAll grants bytes' rest results bytes'') :
      ActsAll grants bytes (t :: rest) (result :: results) bytes''

end Operation

theorem on_map_of_eq {σ ε α β : Type} (f : α → β) {a : Action σ ε α} {s t : σ} {r : Except ε α}
    (h : a.on s = .ok (r, t)) :
  (f <$> a).on s = .ok (r.map f, t)
  := by
  rw [on_map, h]
  cases r <;> rfl

/-- A load or a store acts on guest memory as on an array of bytes. -/
theorem Plain.acts (plain : m.Plain allows) {t : Operation} (pos : 0 < t.size) (small : t.size ≤ 8) :
  ∃ result m', t.run.on m = .ok (result, m') ∧ Evolves allows m m' ∧
    t.Acts (m.space.Grants allows) m.space.byteAt result m'.space.byteAt
  := by
  cases t with
  | load addr size =>
    obtain ⟨result, m', hread, hlooks, hreads⟩ := plain.read addr pos small .read
    refine ⟨_, m', on_map_of_eq some hread, hlooks.evolves, ?_⟩
    rw [hlooks.space]
    exact .load hreads
  | store addr size value =>
    obtain ⟨result, m', hstore, hevolves, hwrites⟩ := plain.store addr pos small value
    exact ⟨_, m', on_map_of_eq _ hstore, hevolves, .store hwrites⟩

theorem Plain.acts_all (plain : m.Plain allows) {operations : List Operation}
    (sizes : ∀ t ∈ operations, 0 < t.size ∧ t.size ≤ 8) :
  ∃ results m', Operation.runAll operations m = .ok (results, m') ∧ Evolves allows m m' ∧
    Operation.ActsAll (m.space.Grants allows) m.space.byteAt operations results m'.space.byteAt
  := by
  induction operations generalizing m with
  | nil => exact ⟨[], m, rfl, plain.evolves, .nil _⟩
  | cons t rest ih =>
    obtain ⟨pos, small⟩ := sizes t List.mem_cons_self
    obtain ⟨result, m₁, hfirst, hevolves, hacts⟩ := plain.acts pos small
    obtain ⟨results, m', hrest, hevolves', hacts'⟩ :=
      ih hevolves.after fun t ht => sizes t (List.mem_cons_of_mem _ ht)
    refine ⟨result :: results, m', ?_, (isCourse_evolves allows).trans _ _ _ hevolves hevolves', ?_⟩
    · rw [Operation.runAll, hfirst, Except.ok_bind]
      dsimp only
      rw [hrest]
      rfl
    · have hgrants : m₁.space.Grants allows = m.space.Grants allows := by
        funext access addr
        exact propext (hevolves.layout.grants access addr)
      rw [hgrants] at hacts'
      exact .cons hacts hacts'

/-- Loads and stores of 1, 2, 4 and 8 bytes at any addresses act on guest memory as on an array of
bytes, whichever pages they meet. -/
theorem operations_act_on_bytes (plain : m.Plain allows) (operations : List Operation)
    (sizes : ∀ t ∈ operations, t.size ∈ [1, 2, 4, 8]) :
  ∃ results m', Operation.runAll operations m = .ok (results, m') ∧ m.space.SameLayout m'.space ∧
    Operation.ActsAll (m.space.Grants allows) m.space.byteAt operations results m'.space.byteAt
  := by
  have hsizes (t : Operation) (ht : t ∈ operations) : 0 < t.size ∧ t.size ≤ 8 := by
    have hsize := sizes t ht
    simp only [List.mem_cons, List.not_mem_nil, or_false] at hsize
    omega
  obtain ⟨results, m', hrun, hevolves, hacts⟩ := plain.acts_all hsizes
  exact ⟨results, m', hrun, hevolves.layout, hacts⟩

/-- RAM at the last page of the address space. -/
def topPage : Memory where
  space := ⟨Bytes.zeros 0x1000, 0xfffffffffffff000, []⟩
  policy := .allowAll

/-- A store of the last two bytes, a load of the last one, and a load that goes round to the first
address, which is not in RAM. -/
theorem operations_act_on_bytes_at_top :
  let operations : List Operation :=
    [.store 0xfffffffffffffffe 2 0x1122, .load 0xffffffffffffffff 1, .load 0xffffffffffffffff 2]
  topPage.Plain (fun _ => true) ∧ (∀ t ∈ operations, t.size ∈ [1, 2, 4, 8]) ∧
    ∃ m', Operation.runAll operations topPage =
        .ok ([.ok none, .ok (some 0x11), .error ⟨0, .read⟩], m') ∧
      Operation.ActsAll (topPage.space.Grants fun _ => true) topPage.space.byteAt operations
        [.ok none, .ok (some 0x11), .error ⟨0, .read⟩] m'.space.byteAt
  := by
  intro operations
  have hplain : topPage.Plain (fun _ => true) :=
    plain_unused (fun _ _ => rfl) rfl rfl (by rw [Bytes.size_zeros]; rfl)
  have hsizes : ∀ t ∈ operations, t.size ∈ [1, 2, 4, 8] := by decide
  have hresults : (Operation.runAll operations topPage).toOption.map Prod.fst =
      some [.ok none, .ok (some 0x11), .error ⟨0, .read⟩] := by decide +kernel
  obtain ⟨results, m', hrun, -, hacts⟩ := operations_act_on_bytes hplain operations hsizes
  rw [hrun] at hresults
  obtain rfl := Option.some.inj hresults
  exact ⟨hplain, hsizes, m', hrun, hacts⟩

end Memory

end CrossHart
