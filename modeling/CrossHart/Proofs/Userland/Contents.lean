import CrossHart.Proofs.Memory.Flat
import CrossHart.Proofs.Userland.Loading

/-!
# What RAM holds

RAM as an array of bytes, and what is left of it when bytes are copied into it while a program is loaded.
-/

namespace CrossHart

namespace Word

theorem toNat_of_diff {a b c : Word} (h : diff a b = .ok c) :
  c.toNat + b.toNat = a.toNat
  := by
  unfold diff at h
  split at h
  case isTrue hle =>
    cases h
    rw [BitVec.toNat_sub_of_le (BitVec.le_def.mpr hle)]
    apply Nat.sub_add_cancel hle
  case isFalse => cases h

theorem toNat_offset {addr : Word} {n : Nat} (below : addr.toNat + n < count) :
  (addr + BitVec.ofNat 64 n).toNat = addr.toNat + n
  := by
  rw [BitVec.toNat_add, BitVec.toNat_ofNat]
  unfold count at below
  omega

end Word

namespace Memory

variable {bytes bytes' : Word → UInt8} {addr : Word}

/-! ### Ranges of an array of bytes -/

theorem gather_congr {n : Nat} (below : addr.toNat + n ≤ Word.count)
    (same : ∀ a : Word, addr.toNat ≤ a.toNat → a.toNat < addr.toNat + n → bytes a = bytes' a) :
  gather bytes addr n = gather bytes' addr n
  := by
  apply List.map_congr_left
  intro i hi
  rw [List.mem_range] at hi
  have haddr : (addr + BitVec.ofNat 64 i).toNat = addr.toNat + i := Word.toNat_offset (by omega)
  apply same
  · omega
  · omega

theorem gather_add (bytes : Word → UInt8) (addr : Word) (m n : Nat) :
  gather bytes addr (m + n) = gather bytes addr m ++ gather bytes (addr + BitVec.ofNat 64 m) n
  := by
  unfold gather
  rw [List.range_add, List.map_append, List.map_map]
  congr 1
  apply List.map_congr_left
  intro i _
  rw [Function.comp, BitVec.ofNat_add, BitVec.add_assoc]

/-- What was written to a range is read from it. -/
theorem gather_scatter (bytes : Word → UInt8) (addr : Word) {new : List UInt8}
    (short : new.length ≤ Word.count) :
  gather (scatter bytes addr new) addr new.length = new
  := by
  apply List.ext_getElem
  · apply length_gather
  intro i hi hi'
  have hdistance : (addr + BitVec.ofNat 64 i - addr).toNat = i := by
    rw [BitVec.add_comm, BitVec.add_sub_cancel, BitVec.toNat_ofNat]
    exact Nat.mod_eq_of_lt (Nat.lt_of_lt_of_le hi' short)
  simp only [gather, List.getElem_map, List.getElem_range, scatter, hdistance]
  rw [List.getD_eq_getElem?_getD, List.getElem?_eq_getElem hi']
  rfl

/-- Writing to a range changes no byte outside of it. -/
theorem scatter_of_outside {new : List UInt8} (below : addr.toNat + new.length ≤ Word.count) {a : Word}
    (outside : a.toNat < addr.toNat ∨ addr.toNat + new.length ≤ a.toNat) :
  scatter bytes addr new a = bytes a
  := by
  unfold scatter
  apply List.getD_eq_default
  have hlt := a.isLt
  rw [BitVec.toNat_sub]
  unfold Word.count at below
  omega

theorem scatter_of_inside {new : List UInt8} {a : Word} (start : addr.toNat ≤ a.toNat)
    (stop : a.toNat < addr.toNat + new.length) :
  scatter bytes addr new a = new.getD (a.toNat - addr.toNat) 0
  := by
  have hdistance : (a - addr).toNat = a.toNat - addr.toNat := BitVec.toNat_sub_of_le start
  have hlt : a.toNat - addr.toNat < new.length := by omega
  rw [scatter, hdistance, List.getD_eq_getElem?_getD, List.getD_eq_getElem?_getD,
    List.getElem?_eq_getElem hlt]
  rfl

end Memory

namespace Machine

open Memory

/-- The byte of a machine's RAM at an address. -/
def byteAt (m : Machine) : Word → UInt8 :=
  m.guest.memory.space.byteAt

/-- The address behind a machine's RAM. -/
def ramEnd (m : Machine) : Nat :=
  m.base.toNat + m.ram.size

/-- Bytes that are copied into RAM are written to their range. -/
theorem byteAt_copyIn {s : Space} {addr : Word} {data : ByteArray} (small : s.ram.size ≤ Word.count)
    (fits : inRam s addr data.size = true) :
  (copyIn addr data s).byteAt = scatter s.byteAt addr data.data.toList
  := by
  rw [inRam, Bool.and_eq_true, decide_eq_true_iff] at fits
  have hfits := fits.2
  have hlength : data.data.toList.length = data.size := rfl
  funext a
  have hdistance : a - addr = a - s.base - (addr - s.base) := by bv_omega
  change Bytes.at0 (Bytes.blit s.ram (addr - s.base).toNat data) (a - s.base).toNat =
    data.data.toList.getD (a - addr).toNat (Bytes.at0 s.ram (a - s.base).toNat)
  rw [Bytes.at0_blit hfits, hdistance]
  generalize a - s.base = position
  generalize addr - s.base = start at hfits
  have hlt := position.isLt
  by_cases hin : start.toNat ≤ position.toNat ∧ position.toNat < start.toNat + data.size
  · have hsub : (position - start).toNat = position.toNat - start.toNat :=
      BitVec.toNat_sub_of_le (BitVec.le_def.mpr hin.1)
    have hindex : position.toNat - start.toNat < data.data.toList.length := by omega
    rw [if_pos hin, hsub, Bytes.at0_eq_getD, ← Array.getElem?_toList, List.getElem?_eq_getElem hindex,
      List.getD_eq_getElem?_getD, List.getElem?_eq_getElem hindex]
    rfl
  · rw [if_neg hin, List.getD_eq_default]
    rw [hlength, BitVec.toNat_sub]
    unfold Word.count at small
    omega

theorem guest_invalidateCode {m m' : Machine} {start len : Word}
    (h : m.invalidateCode start len = .ok m') :
  m'.guest = m.guest
  := by
  unfold invalidateCode at h
  split at h
  · cases h
    rfl
  · obtain ⟨r, -, h⟩ := Except.bind_eq_ok.mp h
    cases h
    rfl

theorem space_of_load {m m' : Machine} {addr : Word} {data : ByteArray}
    (h : load addr data m = .ok (.ok (), m')) :
  inRam m.guest.memory.space addr data.size = true ∧
    m'.guest.memory.space = copyIn addr data m.guest.memory.space
  := by
  unfold load at h
  split at h
  case isTrue fits =>
    obtain ⟨m₁, hm₁, h⟩ := Except.bind_eq_ok.mp h
    cases h
    rw [guest_invalidateCode hm₁]
    exact ⟨fits, rfl⟩
  case isFalse => cases h

end Machine

namespace Userland.Loading

variable {α β : Type}

/-! ### Computations that end with a result -/

theorem run_bind_eq_ok {x : Loading α} {f : α → Loading β} {b : β} :
  (x >>= f).run = .ok (.ok b) ↔ ∃ a, x.run = .ok (.ok a) ∧ (f a).run = .ok (.ok b)
  := by
  rw [ExceptT.run_bind, Except.bind_eq_ok]
  constructor
  · rintro ⟨r, hx, h⟩
    cases r with
    | ok a => exact ⟨a, hx, h⟩
    | error e => cases h
  · rintro ⟨a, hx, h⟩
    exact ⟨.ok a, hx, h⟩

theorem run_ite_bind_eq_ok {c : Prop} [Decidable c] {x y : Loading α} {f : α → Loading β} {b : β}
    (h : (if c then x >>= f else y >>= f).run = .ok (.ok b)) :
  ∃ a, (if c then x else y).run = .ok (.ok a) ∧ (f a).run = .ok (.ok b)
  := by
  by_cases hc : c
  · rw [if_pos hc] at h ⊢
    exact run_bind_eq_ok.mp h
  · rw [if_neg hc] at h ⊢
    exact run_bind_eq_ok.mp h

theorem run_lift_eq_ok {x : Except Crash α} {a : α} :
  (lift x).run = .ok (.ok a) ↔ x = .ok a
  := by
  cases x with
  | ok a' =>
    constructor
    · rintro ⟨⟩
      rfl
    · rintro ⟨⟩
      rfl
  | error c =>
    constructor
    · rintro ⟨⟩
    · rintro ⟨⟩

theorem run_ofElf_eq_ok {x : Except ElfError α} {a : α} :
  (ofElf x).run = .ok (.ok a) ↔ x = .ok a
  := by
  cases x with
  | ok a' =>
    constructor
    · rintro ⟨⟩
      rfl
    · rintro ⟨⟩
      rfl
  | error e =>
    constructor
    · rintro ⟨⟩
    · rintro ⟨⟩

/-! ### Copying -/

/-- From one machine to another, no byte of RAM changed but those from one address to another. -/
structure Wrote (start stop : Nat) (m m' : Machine) : Prop where
  base : m'.base = m.base
  size : m'.ram.size = m.ram.size
  kept : ∀ a : Word, a.toNat < start ∨ stop ≤ a.toNat → m'.byteAt a = m.byteAt a

variable {low high start stop mid : Nat} {m m' m'' : Machine}

theorem Wrote.rfl :
  Wrote start stop m m
  := ⟨.refl _, .refl _, fun _ _ => .refl _⟩

theorem Wrote.trans (h : Wrote start stop m m') (h' : Wrote start stop m' m'') :
  Wrote start stop m m''
  := ⟨h'.base.trans h.base, h'.size.trans h.size, fun a ha => (h'.kept a ha).trans (h.kept a ha)⟩

/-- Less was written than a larger range. -/
theorem Wrote.mono {start' stop' : Nat} (h : Wrote start stop m m') (le : start' ≤ start)
    (le' : stop ≤ stop') :
  Wrote start' stop' m m'
  := by
  refine ⟨h.base, h.size, fun a ha => h.kept a ?_⟩
  omega

theorem Wrote.ramEnd (h : Wrote start stop m m') :
  m'.ramEnd = m.ramEnd
  := by
  rw [Machine.ramEnd, h.base, h.size]
  rfl

theorem Spans.wrote (spans : Spans low high m) (h : Wrote start stop m m') :
  Spans low high m'
  := ⟨h.base ▸ spans.start, h.size ▸ spans.stop, spans.below⟩

/-- Copying bytes writes them to their range, which is in RAM. -/
structure Copied (low high : Nat) (addr : Word) (data : ByteArray) (m m' : Machine) : Prop
    extends Wrote addr.toNat (addr.toNat + data.size) m m' where
  start : low ≤ addr.toNat
  stop : addr.toNat + data.size ≤ high
  bytes : m'.byteAt = Memory.scatter m.byteAt addr data.data.toList

theorem copied_of_copy (spans : Spans low high m) {addr : Word} {data : ByteArray}
    (copied : (copy m addr data).run = .ok (.ok m')) :
  Copied low high addr data m m'
  := by
  obtain ⟨⟨r, m₁⟩, hload, copied⟩ := run_bind_eq_ok.mp copied
  replace hload := run_lift_eq_ok.mp hload
  cases r with
  | error e => cases copied
  | ok _ =>
  cases copied
  obtain ⟨hfits, hspace⟩ := Machine.space_of_load hload
  obtain ⟨hstart, hstop⟩ := (spans.inRam_iff addr data.size).mp hfits
  have hbelow := spans.below
  have hram : m.guest.memory.space.ram.size ≤ Word.count := by
    have hsize : low + m.guest.memory.space.ram.size = high := spans.stop
    omega
  have hbytes : m'.byteAt = Memory.scatter m.byteAt addr data.data.toList := by
    rw [Machine.byteAt, hspace]
    apply Machine.byteAt_copyIn hram hfits
  have hlength : data.data.toList.length = data.size := rfl
  refine ⟨⟨?_, ?_, fun a ha => ?_⟩, hstart, hstop, hbytes⟩
  · rw [Machine.base, hspace]
    rfl
  · rw [Machine.ram, hspace]
    rw [Machine.inRam, Bool.and_eq_true, decide_eq_true_iff] at hfits
    apply Bytes.size_blit hfits.2
  · rw [hbytes]
    apply Memory.scatter_of_outside
    · omega
    · exact ha

theorem Copied.gather {addr : Word} {data : ByteArray} (copied : Copied low high addr data m m')
    (below : high < Word.count) :
  Memory.gather m'.byteAt addr data.size = data.data.toList
  := by
  have hstop := copied.stop
  rw [copied.bytes]
  apply Memory.gather_scatter
  change data.size ≤ _
  omega

end Userland.Loading

end CrossHart
