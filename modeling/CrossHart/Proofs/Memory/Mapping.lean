import CrossHart.Proofs.Memory.Flat

/-!
# The map of the address space

Devices are mapped one after the other, each where neither RAM nor a device is yet.  However often this
is asked for, and with whatever ranges, RAM and devices stay apart, so a page has at most one backing
(`mapped_ranges_stay_apart`).

RAM of two kinds is in the way of ranges that it shares no address with (`vacant_range_not_mapped`): the
end of RAM that reaches the last address is no word, and RAM without a byte still has a start.
-/

namespace CrossHart.Memory

/-! ### Extents -/

/-- A range of addresses.  These are natural numbers, so the end of a range never wraps around. -/
structure Extent where
  start : Nat
  length : Nat

namespace Extent

variable {x y : Extent}

def Contains (x : Extent) (a : Nat) : Prop :=
  x.start ≤ a ∧ a < x.start + x.length

/-- No address is in both ranges. -/
def Disjoint (x y : Extent) : Prop :=
  ∀ a, x.Contains a → ¬y.Contains a

/-- The range consists of whole pages. -/
structure Whole (x : Extent) : Prop where
  start : x.start % pageSize = 0
  length : x.length % pageSize = 0

/-- The range consists of at least one whole page, and its end is an address. -/
structure Proper (x : Extent) : Prop extends Whole x where
  pos : 0 < x.length
  inside : x.start + x.length < Word.count

/-- An address is in a range if its distance from the start is less than the length. -/
theorem contains_mk {start length a : Nat} :
  Contains ⟨start, length⟩ a ↔ start ≤ a ∧ a - start < length
  := by
  apply and_congr_right
  intro hle
  rw [Nat.sub_lt_iff_lt_add' hle]

/-- Ranges that are not empty are disjoint if one ends before the other starts. -/
theorem disjoint_iff (hx : 0 < x.length) (hy : 0 < y.length) :
  x.Disjoint y ↔ ¬(x.start < y.start + y.length ∧ y.start < x.start + x.length)
  := by
  constructor
  · rintro hdisjoint ⟨hlt, hlt'⟩
    obtain hle | hle := Nat.le_total x.start y.start
    · exact hdisjoint y.start ⟨hle, hlt'⟩ ⟨Nat.le_refl _, by omega⟩
    · exact hdisjoint x.start ⟨Nat.le_refl _, by omega⟩ ⟨hle, hlt⟩
  · rintro hnot a ⟨hle, hlt⟩ ⟨hle', hlt'⟩
    apply hnot
    constructor
    all_goals omega

theorem disjoint_of_length_eq_zero (h : y.length = 0) :
  x.Disjoint y
  := by
  rintro a - ⟨hle, hlt⟩
  omega

theorem contains_of_add_eq {start length distance a : Nat} (h : start + distance = a)
    (within : distance < length) :
  Contains ⟨start, length⟩ a
  := by
  rw [← h]
  exact ⟨Nat.le_add_right _ _, Nat.add_lt_add_left within _⟩

/-- An address is in only one of the ranges that are apart from each other. -/
theorem index_unique {xs : List Extent} (apart : xs.Pairwise Disjoint) {i j a : Nat}
    (hx : xs[i]? = some x) (hy : xs[j]? = some y) (ha : x.Contains a) (ha' : y.Contains a) :
  i = j
  := by
  obtain ⟨hi, rfl⟩ := List.getElem?_eq_some_iff.mp hx
  obtain ⟨hj, rfl⟩ := List.getElem?_eq_some_iff.mp hy
  rw [List.pairwise_iff_getElem] at apart
  obtain hlt | heq | hgt := Nat.lt_trichotomy i j
  · exact absurd ha' (apart i j hi hj hlt a ha)
  · exact heq
  · exact absurd ha (apart j i hj hi hgt a ha')

/-- Whole pages have all addresses of a page or none. -/
theorem Whole.contains_pageStart (whole : x.Whole) (addr : Word) :
  x.Contains (pageStart addr).toNat ↔ x.Contains addr.toNat
  := by
  obtain ⟨hstart, hlength⟩ := whole
  rw [pageSize] at hstart hlength
  unfold Contains
  rw [toNat_pageStart]
  constructor
  · rintro ⟨hle, hlt⟩
    constructor
    all_goals omega
  · rintro ⟨hle, hlt⟩
    constructor
    all_goals omega

end Extent

/-- The addresses of a device. -/
def Region.extent (r : Region) : Extent :=
  ⟨r.base.toNat, r.len.toNat⟩

theorem Region.contains_iff (r : Region) (addr : Word) :
  r.contains addr = true ↔ r.extent.Contains addr.toNat
  := by
  rw [contains, Bool.and_eq_true_iff, BitVec.ule, BitVec.ult, decide_eq_true_eq, decide_eq_true_eq,
    extent, Extent.contains_mk]
  apply and_congr_right
  intro hle
  rw [BitVec.toNat_sub_of_le hle]

namespace Space

variable {s s' : Space} {r : Region}

/-- The addresses of RAM. -/
def ramExtent (s : Space) : Extent :=
  ⟨s.base.toNat, s.ram.size⟩

/-- The ranges of RAM and of all devices. -/
def extents (s : Space) : List Extent :=
  s.ramExtent :: s.regions.map Region.extent

theorem ramContains_iff_extent (s : Space) (addr : Word) :
  s.ramContains addr = true ↔ s.ramExtent.Contains addr.toNat
  := (s.ramContains_iff addr).trans Extent.contains_mk.symm

/-- The backing of an address is the place in RAM or in a device that is as far from the start as the
address. -/
inductive Backs (s : Space) (a : Nat) : Backing → Prop where
  | ram {position : Nat} (start : s.base.toNat + position = a) (within : position < s.ram.size) :
      s.Backs a (.ram position)
  | device {i : Nat} {r : Region} {offset : Word} (region : s.regions[i]? = some r)
      (start : r.base.toNat + offset.toNat = a) (within : offset.toNat < r.len.toNat) :
      s.Backs a (.device i offset)

/-! ### Asking for devices -/

/-- Asks for a device to be mapped.  If this is refused, the address space stays as it is. -/
def request (s : Space) (r : Region) : Except Crash (Except MapError Unit × Space) := do
  let answer ← s.map r.base r.len r.device
  return (answer.map fun _ => (), answer.toOption.getD s)

/-- Asks for devices to be mapped, one after the other. -/
def requestAll (s : Space) : List Region → Except Crash (List (Except MapError Unit) × Space)
  | [] => .ok ([], s)
  | r :: rest => do
    let (answer, s) ← s.request r
    let (answers, s) ← s.requestAll rest
    return (answer :: answers, s)

/-- No address of a range is in RAM or in a device. -/
def Vacant (s : Space) (x : Extent) : Prop :=
  ∀ y ∈ s.extents, x.Disjoint y

/-- There is no RAM, but the place where it would start is within a range. -/
def PinnedIn (s : Space) (x : Extent) : Prop :=
  s.ram.size = 0 ∧ x.start < s.base.toNat ∧ s.base.toNat < x.start + x.length

/-- What is answered when a device is asked for, and the address space after it. -/
inductive Answers (s : Space) (r : Region) : Except MapError Unit → Space → Prop where
  | mapped (proper : r.extent.Proper) (vacant : s.Vacant r.extent) (free : ¬s.PinnedIn r.extent) :
      s.Answers r (.ok ()) { s with regions := s.regions ++ [r] }
  | improper (improper : ¬r.extent.Proper) :
      s.Answers r (.error (.unaligned r.base r.len)) s
  | occupied (proper : r.extent.Proper) (occupied : s.Vacant r.extent → s.PinnedIn r.extent) :
      s.Answers r (.error (.overlap r.base r.len)) s

/-- What is answered when devices are asked for one after the other, and the address space in the
end. -/
inductive AnswersAll : Space → List Region → List (Except MapError Unit) → Space → Prop where
  | nil (s : Space) : AnswersAll s [] [] s
  | cons {s s' s'' : Space} {r : Region} {rest : List Region} {answer : Except MapError Unit}
      {answers : List (Except MapError Unit)} (first : s.Answers r answer s')
      (later : AnswersAll s' rest answers s'') :
      AnswersAll s (r :: rest) (answer :: answers) s''

/-- RAM and devices are in whole pages within the address space, and apart from each other. -/
structure Charted (s : Space) : Prop where
  ram : s.ramExtent.Whole
  size : s.ram.size < Word.count
  within : s.base.toNat + s.ram.size ≤ Word.count
  regions : ∀ r ∈ s.regions, r.extent.Proper
  apart : s.extents.Pairwise Extent.Disjoint

/-- RAM without devices is charted. -/
theorem charted_of_create {base size : Word} (created : create base size = .ok s)
    (room : base.toNat + Size.roundUp size.toNat pageSize ≤ Word.count) :
  s.Charted
  := by
  obtain ⟨haligned, hsize, rfl⟩ := eq_of_create created
  constructor
  · constructor
    · apply (inPage_eq_zero_iff _).mp haligned
    · rw [ramExtent, Bytes.size_zeros]
      apply Nat.mul_mod_left
  · rw [Bytes.size_zeros]
    apply hsize
  · rw [Bytes.size_zeros]
    apply room
  · intro r hr
    cases hr
  · apply List.pairwise_singleton

/-! ### One request -/

theorem improper_iff (r : Region) :
  (r.len = 0 ∨ inPage r.base ≠ 0 ∨ inPage r.len ≠ 0 ∨ Word.count ≤ r.base.toNat + r.len.toNat) ↔
    ¬r.extent.Proper
  := by
  rw [ne_eq, ne_eq, inPage_eq_zero_iff, inPage_eq_zero_iff, ← BitVec.toNat_inj]
  constructor
  · rintro himproper ⟨⟨hstart, hlength⟩, hpos, hinside⟩
    obtain hzero | hbase | hlen | hcount := himproper
    · apply Nat.ne_of_gt hpos hzero
    · apply hbase hstart
    · apply hlen hlength
    · apply Nat.not_lt.mpr hcount hinside
  · intro hnot
    by_contra hproper
    obtain ⟨hpos, hproper⟩ := not_or.mp hproper
    obtain ⟨hstart, hproper⟩ := not_or.mp hproper
    obtain ⟨hlength, hinside⟩ := not_or.mp hproper
    apply hnot
    constructor
    · exact ⟨not_not.mp hstart, not_not.mp hlength⟩
    · apply Nat.pos_of_ne_zero hpos
    · apply Nat.lt_of_not_le hinside

/-- A range that is not proper is refused, whatever is mapped. -/
theorem request_improper (s : Space) (improper : ¬r.extent.Proper) :
  s.request r = .ok (.error (.unaligned r.base r.len), s)
  := by
  rw [request, map, if_pos ((improper_iff r).mpr improper)]
  rfl

theorem Charted.toNat_size (charted : s.Charted) :
  (BitVec.ofNat 64 s.ram.size).toNat = s.ram.size
  := Nat.mod_eq_of_lt charted.size

/-- Another range can be compared with RAM only if the end of RAM is a word. -/
theorem Charted.request_crash (charted : s.Charted)
    (last : s.base.toNat + s.ram.size = Word.count) (proper : r.extent.Proper) :
  s.request r = .error .overflow
  := by
  have hsum : Word.sum s.base (BitVec.ofNat 64 s.ram.size) = .error .overflow := by
    rw [Word.sum, charted.toNat_size, last, if_neg (Nat.lt_irrefl _)]
  rw [request, map, if_neg fun h => (improper_iff r).mp h proper, hsum]
  rfl

theorem vacant_iff (s : Space) (x : Extent) :
  s.Vacant x ↔ x.Disjoint s.ramExtent ∧ ∀ r ∈ s.regions, x.Disjoint r.extent
  := by
  rw [Vacant, extents, List.forall_mem_cons, List.forall_mem_map]

theorem ult_and_ult_iff (a b c d : Word) :
  (a.ult b && c.ult d) = true ↔ a.toNat < b.toNat ∧ c.toNat < d.toNat
  := by
  rw [Bool.and_eq_true_iff, BitVec.ult, BitVec.ult, decide_eq_true_eq, decide_eq_true_eq]

/-- The comparison of end points tells whether two devices have an address in common. -/
theorem meets_region_iff {r' : Region} (proper : r.extent.Proper) (proper' : r'.extent.Proper) :
  (r.base.ult (r'.base + r'.len) && r'.base.ult (r.base + r.len)) = true ↔
    ¬r.extent.Disjoint r'.extent
  := by
  rw [ult_and_ult_iff, BitVec.toNat_add_of_lt proper.inside, BitVec.toNat_add_of_lt proper'.inside,
    Extent.disjoint_iff proper.pos proper'.pos, not_not]
  rfl

/-- For RAM it also tells whether empty RAM would start within the range. -/
theorem Charted.meets_ram_iff (charted : s.Charted)
    (inside : s.base.toNat + s.ram.size < Word.count) (proper : r.extent.Proper) :
  (r.base.ult (s.base + BitVec.ofNat 64 s.ram.size) && s.base.ult (r.base + r.len)) = true ↔
    ¬r.extent.Disjoint s.ramExtent ∨ s.PinnedIn r.extent
  := by
  have hend : (s.base + BitVec.ofNat 64 s.ram.size).toNat = s.base.toNat + s.ram.size := by
    rw [BitVec.toNat_add_of_lt, charted.toNat_size]
    rw [charted.toNat_size]
    apply inside
  rw [ult_and_ult_iff, BitVec.toNat_add_of_lt proper.inside, hend]
  obtain hzero | hpos := Nat.eq_zero_or_pos s.ram.size
  · have hdisjoint : r.extent.Disjoint s.ramExtent := Extent.disjoint_of_length_eq_zero hzero
    rw [hzero, or_iff_right (not_not.mpr hdisjoint), PinnedIn, and_iff_right hzero]
    rfl
  · have hfree : ¬s.PinnedIn r.extent := fun hpinned => Nat.ne_of_gt hpos hpinned.1
    rw [or_iff_left hfree, Extent.disjoint_iff proper.pos hpos, not_not]
    rfl

theorem Charted.meets_regions_iff (charted : s.Charted) (proper : r.extent.Proper) :
  (s.regions.any fun r' => r.base.ult (r'.base + r'.len) && r'.base.ult (r.base + r.len)) = true ↔
    ∃ r' ∈ s.regions, ¬r.extent.Disjoint r'.extent
  := by
  rw [List.any_eq_true]
  apply exists_congr
  intro r'
  apply and_congr_right
  intro hr'
  apply meets_region_iff proper (charted.regions r' hr')

/-- All comparisons together tell whether a range is in the way of what is mapped. -/
theorem Charted.meets_iff (charted : s.Charted)
    (inside : s.base.toNat + s.ram.size < Word.count) (proper : r.extent.Proper) :
  (((r.base.ult (s.base + BitVec.ofNat 64 s.ram.size) && s.base.ult (r.base + r.len)) ||
      s.regions.any fun r' => r.base.ult (r'.base + r'.len) && r'.base.ult (r.base + r.len)) = true) ↔
    (s.Vacant r.extent → s.PinnedIn r.extent)
  := by
  rw [Bool.or_eq_true, charted.meets_ram_iff inside proper, charted.meets_regions_iff proper,
    vacant_iff]
  constructor
  · rintro ((hnot | hpinned) | ⟨r', hr', hnot⟩) ⟨hram, hvacant⟩
    · exact absurd hram hnot
    · exact hpinned
    · exact absurd (hvacant r' hr') hnot
  · intro hpinned
    by_contra hnone
    rw [not_or, not_or, not_not] at hnone
    obtain ⟨⟨hram, hfree⟩, hvacant⟩ := hnone
    apply hfree
    apply hpinned
    refine ⟨hram, fun r' hr' => ?_⟩
    by_contra hnot
    exact hvacant ⟨r', hr', hnot⟩

/-- A request is answered, unless the range is proper and the end of RAM is no word. -/
theorem Charted.answers (charted : s.Charted)
    (safe : r.extent.Proper → s.base.toNat + s.ram.size < Word.count) :
  ∃ answer s', s.request r = .ok (answer, s') ∧ s.Answers r answer s'
  := by
  by_cases hproper : r.extent.Proper
  case neg => exact ⟨_, _, s.request_improper hproper, .improper hproper⟩
  have hinside := safe hproper
  have hsum : Word.sum s.base (BitVec.ofNat 64 s.ram.size) =
      .ok (s.base + BitVec.ofNat 64 s.ram.size) := by
    rw [Word.sum, charted.toNat_size, if_pos hinside]
  rw [request, map, if_neg fun h => (improper_iff r).mp h hproper, hsum, Except.ok_bind]
  dsimp only
  split
  case isTrue hmeets =>
    rw [charted.meets_iff hinside hproper] at hmeets
    exact ⟨_, _, rfl, .occupied hproper hmeets⟩
  case isFalse hmeets =>
    rw [charted.meets_iff hinside hproper, Classical.not_imp] at hmeets
    obtain ⟨hvacant, hfree⟩ := hmeets
    exact ⟨_, _, rfl, .mapped hproper hvacant hfree⟩

/-- RAM and devices are still apart when a request was answered. -/
theorem Answers.charted {answer : Except MapError Unit} (answers : s.Answers r answer s')
    (charted : s.Charted) :
  s'.Charted
  := by
  cases answers with
  | improper => exact charted
  | occupied => exact charted
  | mapped proper vacant free =>
    obtain ⟨ram, size, within, regions, apart⟩ := charted
    refine ⟨ram, size, within, fun r' hr' => ?_, ?_⟩
    · obtain hr' | hr' := List.mem_append.mp hr'
      · apply regions r' hr'
      · rw [List.mem_singleton.mp hr']
        exact proper
    · have hextents : extents { s with regions := s.regions ++ [r] } = s.extents ++ [r.extent] := by
        rw [extents, List.map_append]
        rfl
      rw [hextents, List.pairwise_append]
      refine ⟨apart, List.pairwise_singleton _ _, fun x hx y hy a ha => ?_⟩
      rw [List.mem_singleton.mp hy]
      intro ha'
      apply vacant x hx a ha' ha

/-- RAM stays where it is. -/
theorem Answers.ram_eq {answer : Except MapError Unit} (answers : s.Answers r answer s') :
  s'.base = s.base ∧ s'.ram = s.ram
  := by
  cases answers with
  | improper => exact ⟨rfl, rfl⟩
  | occupied => exact ⟨rfl, rfl⟩
  | mapped => exact ⟨rfl, rfl⟩

/-! ### All requests -/

theorem Charted.answersAll (charted : s.Charted) (requests : List Region)
    (safe : (∃ r ∈ requests, r.extent.Proper) → s.base.toNat + s.ram.size < Word.count) :
  ∃ answers s', s.requestAll requests = .ok (answers, s') ∧ AnswersAll s requests answers s' ∧
    s'.Charted
  := by
  induction requests generalizing s with
  | nil => exact ⟨[], s, rfl, .nil s, charted⟩
  | cons r rest ih =>
    have hsafe (proper : r.extent.Proper) := safe ⟨r, List.mem_cons_self, proper⟩
    obtain ⟨answer, s₁, hrequest, hanswers⟩ := charted.answers hsafe
    obtain ⟨hbase, hram⟩ := hanswers.ram_eq
    have hsafe' : (∃ r ∈ rest, r.extent.Proper) → s₁.base.toNat + s₁.ram.size < Word.count := by
      rintro ⟨r', hr', proper⟩
      rw [hbase, hram]
      apply safe ⟨r', List.mem_cons_of_mem r hr', proper⟩
    obtain ⟨answers, s', hrest, hanswers', hcharted⟩ := ih (hanswers.charted charted) hsafe'
    refine ⟨answer :: answers, s', ?_, .cons hanswers hanswers', hcharted⟩
    rw [Space.requestAll, hrequest, Except.ok_bind]
    dsimp only
    rw [hrest]
    rfl

theorem Charted.requestAll_crash (charted : s.Charted)
    (last : s.base.toNat + s.ram.size = Word.count) {requests : List Region}
    (proper : ∃ r ∈ requests, r.extent.Proper) :
  s.requestAll requests = .error .overflow
  := by
  induction requests with
  | nil =>
    obtain ⟨r, hr, -⟩ := proper
    cases hr
  | cons r rest ih =>
    by_cases hproper : r.extent.Proper
    · rw [Space.requestAll, charted.request_crash last hproper]
      rfl
    · obtain ⟨r', hr', proper⟩ := proper
      -- the request for `r` is refused, so what comes after it meets the same address space
      obtain rfl | hr' := List.mem_cons.mp hr'
      · exact absurd proper hproper
      rw [Space.requestAll, s.request_improper hproper, Except.ok_bind]
      dsimp only
      rw [ih ⟨r', hr', proper⟩]
      rfl

/-! ### Backings -/

theorem getElem?_extents_succ {i : Nat} (region : s.regions[i]? = some r) :
  s.extents[i + 1]? = some r.extent
  := by
  rw [extents, List.getElem?_cons_succ, List.getElem?_map, region]
  rfl

/-- If RAM and devices are apart, an address has one backing. -/
theorem Charted.backs_unique (charted : s.Charted) {a : Nat} {b b' : Backing} (backs : s.Backs a b)
    (backs' : s.Backs a b') :
  b = b'
  := by
  have hram : s.extents[0]? = some s.ramExtent := rfl
  cases backs with
  | ram start within =>
    have ha : s.ramExtent.Contains a := Extent.contains_of_add_eq start within
    cases backs' with
    | ram start' within' => rw [Nat.add_left_cancel (start.trans start'.symm)]
    | device region' start' within' =>
      have hindex := Extent.index_unique charted.apart hram (getElem?_extents_succ region') ha
        (Extent.contains_of_add_eq start' within')
      exact absurd hindex (Nat.succ_ne_zero _).symm
  | device region start within =>
    have hregion := getElem?_extents_succ region
    have ha := Extent.contains_of_add_eq start within
    cases backs' with
    | ram start' within' =>
      have hindex := Extent.index_unique charted.apart hregion hram ha
        (Extent.contains_of_add_eq start' within')
      exact absurd hindex (Nat.succ_ne_zero _)
    | device region' start' within' =>
      have hindex := Extent.index_unique charted.apart hregion (getElem?_extents_succ region') ha
        (Extent.contains_of_add_eq start' within')
      obtain rfl := Nat.succ.inj hindex
      obtain rfl := Option.some.inj (region.symm.trans region')
      rw [BitVec.eq_of_toNat_eq (Nat.add_left_cancel (start.trans start'.symm))]

/-- The backing that is found is that of the page. -/
theorem backs_of_resolve {addr : Word} {b : Backing} (found : s.resolve addr = some b) :
  s.Backs (pageStart addr).toNat b
  := by
  unfold resolve at found
  dsimp only at found
  split at found
  case isTrue hram =>
    cases found
    obtain ⟨hle, hlt⟩ := (s.ramContains_iff _).mp hram
    have hposition : (pageStart addr - s.base).toNat = (pageStart addr).toNat - s.base.toNat :=
      BitVec.toNat_sub_of_le hle
    rw [hposition]
    exact .ram (Nat.add_sub_cancel' hle) hlt
  case isFalse =>
    obtain ⟨i, hi, found⟩ := Option.bind_eq_some_iff.mp found
    obtain ⟨r, hr, rfl⟩ := Option.map_eq_some_iff.mp found
    obtain ⟨hlt, hcontains, -⟩ := List.findIdx?_eq_some_iff_getElem.mp hi
    rw [List.getElem?_eq_getElem hlt, Option.some_inj] at hr
    rw [hr, r.contains_iff, Region.extent, Extent.contains_mk] at hcontains
    obtain ⟨hle, hlt'⟩ := hcontains
    have hoffset : (pageStart addr - r.base).toNat = (pageStart addr).toNat - r.base.toNat :=
      BitVec.toNat_sub_of_le hle
    refine .device (r := r) ?_ ?_ ?_
    · rw [List.getElem?_eq_getElem hlt, hr]
    · rw [hoffset]
      apply Nat.add_sub_cancel' hle
    · rw [hoffset]
      apply hlt'

/-- Nothing is found exactly where there is neither RAM nor a device. -/
theorem resolve_eq_none_iff (s : Space) (addr : Word) :
  s.resolve addr = none ↔ ∀ x ∈ s.extents, ¬x.Contains (pageStart addr).toNat
  := by
  rw [extents, List.forall_mem_cons, List.forall_mem_map, ← ramContains_iff_extent]
  unfold resolve
  dsimp only
  split
  case isTrue hram => simp [hram]
  case isFalse hram =>
    rw [and_iff_right hram]
    constructor
    · intro hnone r hr hcontains
      rw [← r.contains_iff] at hcontains
      cases hfind : s.regions.findIdx? (·.contains (pageStart addr)) with
      | none =>
        rw [List.findIdx?_eq_none_iff] at hfind
        rw [hfind r hr] at hcontains
        cases hcontains
      | some i =>
        obtain ⟨hlt, -, -⟩ := List.findIdx?_eq_some_iff_getElem.mp hfind
        rw [hfind, Option.bind_some, List.getElem?_eq_getElem hlt] at hnone
        cases hnone
    · intro hnone
      have hfind : s.regions.findIdx? (·.contains (pageStart addr)) = none := by
        rw [List.findIdx?_eq_none_iff]
        intro r hr
        rw [Bool.eq_false_iff, ne_eq, r.contains_iff]
        apply hnone r hr
      rw [hfind]
      rfl

theorem Charted.whole (charted : s.Charted) {x : Extent} (hx : x ∈ s.extents) :
  x.Whole
  := by
  obtain rfl | hx := List.mem_cons.mp hx
  · apply charted.ram
  · obtain ⟨r, hr, rfl⟩ := List.mem_map.mp hx
    apply (charted.regions r hr).toWhole

theorem Backs.exists_extent {a : Nat} {b : Backing} (backs : s.Backs a b) :
  ∃ x ∈ s.extents, x.Contains a
  := by
  cases backs with
  | ram start within =>
    exact ⟨s.ramExtent, List.mem_cons_self, Extent.contains_of_add_eq start within⟩
  | device region start within =>
    exact ⟨_, List.mem_of_getElem? (getElem?_extents_succ region),
      Extent.contains_of_add_eq start within⟩

/-- What is found for an address is the backing of its page. -/
theorem Charted.resolve_eq_some_iff (charted : s.Charted) (addr : Word) (b : Backing) :
  s.resolve addr = some b ↔ s.Backs (pageStart addr).toNat b
  := by
  constructor
  · apply backs_of_resolve
  · intro backs
    cases hresolve : s.resolve addr with
    | none =>
      obtain ⟨x, hx, hcontains⟩ := backs.exists_extent
      exact absurd hcontains ((s.resolve_eq_none_iff addr).mp hresolve x hx)
    | some b' => rw [charted.backs_unique backs (backs_of_resolve hresolve)]

end Space

/-- Devices are asked for with any ranges, one after the other.  Each request is answered, unless RAM
reaches the last address and one of the ranges could be mapped as far as its shape goes.  RAM and
devices stay apart: what is found for an address is the one backing that its page has, and nothing is
found exactly for the addresses that are neither in RAM nor in a device. -/
theorem mapped_ranges_stay_apart {base size : Word} {s : Space}
    (created : Space.create base size = .ok s)
    (room : base.toNat + Size.roundUp size.toNat pageSize ≤ Word.count) (requests : List Region) :
  (base.toNat + Size.roundUp size.toNat pageSize = Word.count →
    (∃ r ∈ requests, r.extent.Proper) → s.requestAll requests = .error .overflow) ∧
  ((base.toNat + Size.roundUp size.toNat pageSize = Word.count →
      ∀ r ∈ requests, ¬r.extent.Proper) →
    ∃ answers s', s.requestAll requests = .ok (answers, s') ∧
      s.AnswersAll requests answers s' ∧ s'.extents.Pairwise Extent.Disjoint ∧
      ∀ addr,
        (∀ b, s'.resolve addr = some b ↔ s'.Backs (pageStart addr).toNat b) ∧
        (s'.resolve addr = none ↔ ∀ x ∈ s'.extents, ¬x.Contains addr.toNat))
  := by
  have hcharted := Space.charted_of_create created room
  have hend : s.base.toNat + s.ram.size = base.toNat + Size.roundUp size.toNat pageSize := by
    obtain ⟨-, -, rfl⟩ := Space.eq_of_create created
    rw [Bytes.size_zeros]
  rw [← hend] at room ⊢
  constructor
  · intro hlast hproper
    apply hcharted.requestAll_crash hlast hproper
  · intro hsafe
    have hsafe' : (∃ r ∈ requests, r.extent.Proper) → s.base.toNat + s.ram.size < Word.count := by
      rintro ⟨r, hr, hproper⟩
      apply Nat.lt_of_le_of_ne room
      intro hlast
      apply hsafe hlast r hr hproper
    obtain ⟨answers, s', hrequests, hanswers, hcharted'⟩ := hcharted.answersAll requests hsafe'
    refine ⟨answers, s', hrequests, hanswers, hcharted'.apart, fun addr => ⟨?_, ?_⟩⟩
    · apply hcharted'.resolve_eq_some_iff
    · rw [s'.resolve_eq_none_iff]
      apply forall₂_congr
      intro x hx
      rw [(hcharted'.whole hx).contains_pageStart]

/-- RAM of one page, from an address on. -/
def pageAt (base : Word) : Space :=
  ⟨Bytes.zeros 0x1000, base, []⟩

/-- Devices are mapped on both sides of a page of RAM, while a range that has this page in it and a range
that ends behind the last address are refused.  If the page is the last one, there is no answer. -/
theorem mapped_ranges_stay_apart_of_page :
  let requests : List Region := [⟨0x2000, 0x1000, .storage⟩, ⟨0, 0x3000, .storage⟩,
    ⟨0, 0x1000, .storage⟩, ⟨0xfffffffffffff000, 0x1000, .storage⟩]
  let answers : List (Except MapError Unit) := [.ok (), .error (.overlap 0 0x3000), .ok (),
    .error (.unaligned 0xfffffffffffff000 0x1000)]
  (Space.create 0x1000 0x800 = .ok (pageAt 0x1000) ∧
    ∃ s', (pageAt 0x1000).requestAll requests = .ok (answers, s') ∧
      (pageAt 0x1000).AnswersAll requests answers s' ∧ s'.extents.Pairwise Extent.Disjoint ∧
      s'.Backs 0x2000 (.device 0 0)) ∧
  (Space.create 0xfffffffffffff000 0x800 = .ok (pageAt 0xfffffffffffff000) ∧
    (pageAt 0xfffffffffffff000).requestAll requests = .error .overflow)
  := by
  intro requests answers
  have hcreated : Space.create 0x1000 0x800 = .ok (pageAt 0x1000) := rfl
  have hcreated' : Space.create 0xfffffffffffff000 0x800 = .ok (pageAt 0xfffffffffffff000) := rfl
  have hproper : Extent.Proper ⟨0x2000, 0x1000⟩ := ⟨⟨rfl, rfl⟩, by decide, by decide⟩
  have hresults : ((pageAt 0x1000).requestAll requests).toOption.map
      (fun r => (r.1, r.2.resolve 0x2abc)) = some (answers, some (.device 0 0)) := by
    decide +kernel
  obtain ⟨-, hapart⟩ := mapped_ranges_stay_apart hcreated (by decide) requests
  obtain ⟨hcrash, -⟩ := mapped_ranges_stay_apart hcreated' (by decide) requests
  obtain ⟨answers', s', hrequests, hanswers, hdisjoint, hresolve⟩ :=
    hapart fun hlast => absurd hlast (by decide)
  rw [hrequests] at hresults
  obtain ⟨rfl, hfound⟩ := Prod.mk.inj (Option.some.inj hresults)
  refine ⟨⟨hcreated, s', hrequests, hanswers, hdisjoint, ?_⟩, hcreated', ?_⟩
  · apply ((hresolve 0x2abc).1 _).mp hfound
  · apply hcrash (by decide)
    exact ⟨_, List.mem_cons_self, hproper⟩

/-- Where neither RAM nor a device is, a range in whole pages may still not be mapped: the end of RAM on
the last page is no word, and RAM without a byte is taken to be at its start. -/
theorem vacant_range_not_mapped :
  (∃ s r, Space.create 0xfffffffffffff000 0x1000 = .ok s ∧ r.extent.Proper ∧
    s.Vacant r.extent ∧ s.request r = .error .overflow) ∧
  ∃ s r, Space.create 0x2000 0 = .ok s ∧ r.extent.Proper ∧
    s.Vacant r.extent ∧ s.request r = .ok (.error (.overlap r.base r.len), s)
  := by
  constructor
  · have hcreated : Space.create 0xfffffffffffff000 0x1000 = .ok (pageAt 0xfffffffffffff000) := rfl
    have hproper : Extent.Proper ⟨0x1000, 0x1000⟩ := ⟨⟨rfl, rfl⟩, by decide, by decide⟩
    refine ⟨_, ⟨0x1000, 0x1000, .storage⟩, hcreated, hproper, ?_, ?_⟩
    · rw [Space.vacant_iff]
      refine ⟨?_, fun _ h => absurd h List.not_mem_nil⟩
      rintro a ⟨-, hlt⟩ ⟨hle, -⟩
      apply Nat.not_le.mpr (Nat.lt_trans hlt _) hle
      decide
    · apply Space.Charted.request_crash (Space.charted_of_create hcreated (by decide))
      · rw [pageAt, Bytes.size_zeros]
        rfl
      · exact hproper
  · refine ⟨⟨Bytes.zeros 0, 0x2000, []⟩, ⟨0x1000, 0x2000, .storage⟩, rfl, ⟨⟨rfl, rfl⟩, ?_, ?_⟩, ?_, rfl⟩
    · decide
    · decide
    · rw [Space.vacant_iff]
      refine ⟨?_, fun _ h => absurd h List.not_mem_nil⟩
      apply Extent.disjoint_of_length_eq_zero
      rfl

end CrossHart.Memory
