import CrossHart.Proofs.Bytes
import CrossHart.Proofs.Hart.Related
import Mathlib.Tactic.Common

/-!
# What the lookaside table hides

With a policy that always gives the same answer to the same question, the lookaside table cannot be
seen.  Every entry in it, current or not, tells what the address space and the policy say of its page:
regions are added where nothing was, so a page with a backing keeps it.
-/

namespace CrossHart

theorem Word.toNat_of_sum {a b c : Word} (h : sum a b = .ok c) :
  c.toNat = a.toNat + b.toNat
  := by
  unfold sum at h
  split at h
  case isTrue hlt =>
    cases h
    apply BitVec.toNat_add_of_lt hlt
  case isFalse => cases h

namespace Memory

open CrossHart.Action

/-! ### Pages -/

/-- Clearing the lowest bits of a word. -/
theorem and_not_low (w : Word) (k : Nat) :
  w &&& ~~~BitVec.ofNat 64 (2 ^ k - 1) = w >>> k <<< k
  := by
  apply BitVec.eq_of_getLsbD_eq
  intro i hi
  have hmask : (BitVec.ofNat 64 (2 ^ k - 1)).getLsbD i = decide (i < k) := by
    rw [BitVec.getLsbD_ofNat, Nat.testBit_two_pow_sub_one]
    simp [hi]
  simp only [BitVec.getLsbD_and, BitVec.getLsbD_not, hmask, BitVec.getLsbD_shiftLeft,
    BitVec.getLsbD_ushiftRight]
  by_cases h : i < k
  · simp [h]
  · simp [h, hi, Nat.add_sub_cancel' (Nat.le_of_not_lt h)]

theorem toNat_and_not_low (w : Word) (k : Nat) :
  (w &&& ~~~BitVec.ofNat 64 (2 ^ k - 1)).toNat = w.toNat / 2 ^ k * 2 ^ k
  := by
  rw [and_not_low, BitVec.toNat_shiftLeft, BitVec.toNat_ushiftRight, Nat.shiftLeft_eq,
    Nat.shiftRight_eq_div_pow]
  exact Nat.mod_eq_of_lt (Nat.lt_of_le_of_lt (Nat.div_mul_le_self _ _) w.isLt)

theorem pageStart_eq (addr : Word) :
  pageStart addr = pageOf addr <<< 12
  := and_not_low addr 12

theorem toNat_pageStart (addr : Word) :
  (pageStart addr).toNat = addr.toNat / 4096 * 4096
  := toNat_and_not_low addr 12

/-- There is a page boundary above every address that is not on the last page. -/
theorem pageUp_eq_ok {n : Word} (room : Size.roundUp n.toNat pageSize < Word.count) :
  ∃ c, pageUp n = .ok c ∧ c.toNat = Size.roundUp n.toNat pageSize
  := by
  have hmask : pageMask.toNat = 4095 := rfl
  have hlt : n.toNat + pageMask.toNat < Word.count := by
    rw [hmask]
    unfold Size.roundUp pageSize Word.count at room
    unfold Word.count
    omega
  refine ⟨pageStart (n + pageMask), ?_, ?_⟩
  · rw [pageUp, Word.sum, if_pos hlt]
    rfl
  · rw [toNat_pageStart, BitVec.toNat_add_of_lt hlt, hmask]
    unfold Size.roundUp pageSize
    omega

/-- A page boundary that is found is the first one. -/
theorem toNat_of_pageUp {n c : Word} (h : pageUp n = .ok c) :
  c.toNat = Size.roundUp n.toNat pageSize
  := by
  have hmask : pageMask.toNat = 4095 := rfl
  unfold pageUp at h
  cases hsum : Word.sum n pageMask with
  | error crash =>
    rw [hsum] at h
    cases h
  | ok stop =>
    rw [hsum] at h
    cases h
    rw [toNat_pageStart, Word.toNat_of_sum hsum, hmask]
    rfl

/-- RAM starts at a page boundary, and its size is rounded up to whole pages. -/
theorem Space.eq_of_create {base size : Word} {s : Space} (created : create base size = .ok s) :
  inPage base = 0 ∧ Size.roundUp size.toNat pageSize < Word.count ∧
    s = { ram := Bytes.zeros (Size.roundUp size.toNat pageSize), base }
  := by
  unfold create at created
  by_cases haligned : inPage base ≠ 0
  · rw [if_pos haligned] at created
    cases created
  rw [if_neg haligned] at created
  obtain ⟨bytes, hbytes, created⟩ := Except.bind_eq_ok.mp created
  have hlt := bytes.isLt
  rw [toNat_of_pageUp hbytes] at created hlt
  split at created
  · cases created
    exact ⟨not_not.mp haligned, hlt, rfl⟩
  · cases created

theorem toNat_inPage (addr : Word) :
  (inPage addr).toNat = addr.toNat % 4096
  := by
  rw [inPage, pageMask, BitVec.toNat_and]
  exact Nat.and_two_pow_sub_one_eq_mod addr.toNat 12

/-- Page boundaries are the multiples of the page size. -/
theorem inPage_eq_zero_iff (w : Word) :
  inPage w = 0 ↔ w.toNat % pageSize = 0
  := by
  rw [← BitVec.toNat_inj, toNat_inPage]
  rfl

theorem pageOf_eq_iff (addr addr' : Word) :
  pageOf addr = pageOf addr' ↔ addr.toNat / 4096 = addr'.toNat / 4096
  := by
  rw [← BitVec.toNat_inj, pageOf, pageOf, BitVec.toNat_ushiftRight, BitVec.toNat_ushiftRight,
    Nat.shiftRight_eq_div_pow, Nat.shiftRight_eq_div_pow]

/-- Whole pages lead from a page boundary to a page. -/
theorem toNat_pageStart_sub_mod {base : Word} (aligned : inPage base = 0) (addr : Word) :
  (pageStart addr - base).toNat % 4096 = 0
  := by
  have hbase : base.toNat % 4096 = 0 := (inPage_eq_zero_iff base).mp aligned
  rw [BitVec.toNat_sub, toNat_pageStart]
  omega

/-! ### Translation without a table -/

/-- RAM and regions are in whole pages. -/
structure Space.Aligned (s : Space) : Prop where
  base : inPage s.base = 0
  regions : ∀ r ∈ s.regions, inPage r.base = 0

/-- The backing of the byte a distance further on, if that does not matter for sizes. -/
def Backing.plus (b : Backing) (distance : Word) : Backing :=
  match b with
  | .ram position => .ram (position + distance.toNat)
  | .device region offset => .device region (offset + distance)

/-- The backing of an address for an access, asked for anew each time. -/
def Space.translate (s : Space) (allows : Query → Bool) (addr : Word) (access : Access) :
    Except Fault Backing :=
  match s.resolve addr with
  | none => .error ⟨addr, access⟩
  | some b => if allows ⟨pageOf addr, access⟩ then .ok (b.plus (inPage addr)) else .error ⟨addr, access⟩

/-- The address is on a page of which the backing is known. -/
theorem Space.resolve_congr (s : Space) {addr addr' : Word} (h : pageOf addr = pageOf addr') :
  s.resolve addr = s.resolve addr'
  := by
  rw [resolve, resolve, pageStart_eq, pageStart_eq, h]

/-- No distance within a page leads beyond the last address. -/
theorem Space.Aligned.shift_eq {s : Space} (aligned : s.Aligned) {addr : Word} {b : Backing}
    (h : s.resolve addr = some b) :
  b.shift (inPage addr) = .ok (b.plus (inPage addr))
  := by
  have hin := toNat_inPage addr
  unfold Space.resolve at h
  dsimp only at h
  split at h
  · obtain rfl := Option.some.inj h
    have hmod := toNat_pageStart_sub_mod aligned.base addr
    have hlt : (pageStart addr - s.base).toNat + (inPage addr).toNat < Word.count := by
      rw [Word.count]
      omega
    rw [Backing.shift, Size.sum, Size.exact, if_pos hlt]
    rfl
  · obtain ⟨i, hi, h⟩ := Option.bind_eq_some_iff.mp h
    obtain ⟨r, hr, rfl⟩ := Option.map_eq_some_iff.mp h
    have hmod := toNat_pageStart_sub_mod (aligned.regions r (List.mem_of_getElem? hr)) addr
    have hlt : (pageStart addr - r.base).toNat + (inPage addr).toNat < Word.count := by
      rw [Word.count]
      omega
    rw [Backing.shift, Word.sum, if_pos hlt]
    rfl

/-! ### Tables that tell the truth -/

/-- A policy that always gives the same answer to the same question. -/
def Policy.IsPure (allows : Query → Bool) (p : Policy) : Prop :=
  ∀ history q, p.answer history q = allows q

/-- What the entries say of their pages is what the address space and the policy say. -/
def Lookaside.Truthful (s : Space) (allows : Query → Bool) (t : Lookaside) : Prop :=
  ∀ (i : Fin slotCount) e, t.entries.get i = some e → ∀ addr, pageOf addr = e.page →
    s.resolve addr = some e.backing ∧ ∀ access, e.rights.allows access = allows ⟨e.page, access⟩

/-- The policy is pure, and the table tells the truth. -/
structure Honest (allows : Query → Bool) (m : Memory) : Prop where
  pure : m.policy.IsPure allows
  aligned : m.space.Aligned
  truthful : m.lookaside.Truthful m.space allows

variable {allows : Query → Bool}

namespace Policy

variable {p : Policy}

theorem IsPure.ask (pure : p.IsPure allows) (q : Query) :
  (p.ask q).1 = allows q ∧ (p.ask q).2.IsPure allows
  := ⟨pure _ q, pure⟩

theorem IsPure.askEach (pure : p.IsPure allows) (page : Word) (accesses : List Access) :
  (p.askEach page accesses).1 = accesses.map (fun a => (a, allows ⟨page, a⟩)) ∧
    (p.askEach page accesses).2.IsPure allows
  := by
  induction accesses generalizing p with
  | nil => exact ⟨rfl, pure⟩
  | cons a rest ih =>
    obtain ⟨hanswer, hpure⟩ := pure.ask ⟨page, a⟩
    obtain ⟨hrest, hpure'⟩ := ih hpure
    refine ⟨?_, hpure'⟩
    rw [List.map_cons, ← hanswer, ← hrest]
    rfl

/-- The rights of a page are what the policy allows on it. -/
theorem IsPure.askRights (pure : p.IsPure allows) {page : Word} {allowed : Access}
    (h : allows ⟨page, allowed⟩ = true) :
  (∀ access, (Lookaside.askRights p page allowed).1.allows access = allows ⟨page, access⟩) ∧
    (Lookaside.askRights p page allowed).2.IsPure allows
  := by
  obtain ⟨hanswers, hpure⟩ := pure.askEach page (Access.all.filter (· ≠ allowed))
  refine ⟨fun access => ?_, hpure⟩
  rw [Lookaside.askRights, Rights.allows_ofFun, hanswers]
  by_cases hsame : access = allowed
  · rw [hsame, h]
    simp
  · have hmem : access ∈ Access.all.filter (· ≠ allowed) := by
      cases access <;> simp [Access.all, hsame]
    have hcontains : (access, true) ∈ (Access.all.filter (· ≠ allowed)).map
        (fun a => (a, allows ⟨page, a⟩)) ↔ allows ⟨page, access⟩ = true := by
      simp only [List.mem_map, Prod.mk.injEq]
      constructor
      · rintro ⟨a, -, rfl, ha⟩
        exact ha
      · intro ha
        exact ⟨access, hmem, rfl, ha⟩
    rw [Bool.eq_iff_iff, Bool.or_eq_true, List.contains_iff_mem, hcontains]
    simp [hsame]

end Policy

namespace Lookaside

variable {s : Space} {t : Lookaside}

theorem Truthful.fill (truthful : t.Truthful s allows) {addr : Word} {b : Backing} {rights : Rights}
    (backed : s.resolve addr = some b)
    (allowed : ∀ access, rights.allows access = allows ⟨pageOf addr, access⟩) :
  (t.fill (pageOf addr) b rights).Truthful s allows
  := by
  intro i e he addr' hpage
  have hentries : (t.fill (pageOf addr) b rights).entries = t.entries.set (slotOf (pageOf addr)) (some
      ⟨pageOf addr, b, rights, t.slotGenerations.get (slotOf (pageOf addr)), t.generation⟩) := rfl
  rw [hentries, Vector.get_set] at he
  split at he
  case isTrue =>
    obtain rfl := Option.some.inj he
    rw [s.resolve_congr hpage]
    exact ⟨backed, allowed⟩
  case isFalse => exact truthful i e he addr' hpage

theorem Truthful.entry? (truthful : t.Truthful s allows) {addr : Word} {e : Entry}
    (h : t.entry? (pageOf addr) = some e) :
  s.resolve addr = some e.backing ∧
    ∀ access, e.rights.allows access = allows ⟨pageOf addr, access⟩
  := by
  obtain ⟨he, hpage⟩ := Option.filter_eq_some_iff.mp h
  obtain ⟨hpage, -⟩ := Bool.and_eq_true_iff.mp hpage
  have hpage : e.page = pageOf addr := eq_of_beq hpage
  rw [← hpage]
  exact truthful _ e he addr hpage.symm

/-- A translation gives what the address space and the policy say. -/
theorem Truthful.locate (truthful : t.Truthful s allows) (aligned : s.Aligned) {p : Policy}
    (pure : p.IsPure allows) (addr : Word) (access : Access) :
  ∃ t' p', t.locate s p addr access = .ok (s.translate allows addr access, t', p') ∧
    t'.Truthful s allows ∧ p'.IsPure allows
  := by
  unfold Lookaside.locate
  dsimp only
  cases hentry : t.entry? (pageOf addr) with
  | some e =>
    obtain ⟨hbacked, hrights⟩ := truthful.entry? hentry
    dsimp only
    rw [Space.translate, hbacked, hrights, aligned.shift_eq hbacked]
    cases allows ⟨pageOf addr, access⟩ with
    | true => exact ⟨_, _, rfl, truthful, pure⟩
    | false => exact ⟨_, _, rfl, truthful, pure⟩
  | none =>
    dsimp only
    rw [Space.translate]
    cases hbacked : s.resolve addr with
    | none => exact ⟨_, _, rfl, truthful, pure⟩
    | some b =>
      obtain ⟨hanswer, hpure⟩ := pure.ask ⟨pageOf addr, access⟩
      dsimp only
      generalize p.ask ⟨pageOf addr, access⟩ = answer at hanswer hpure ⊢
      obtain ⟨allowed, p'⟩ := answer
      dsimp only at hanswer hpure
      subst hanswer
      cases hallowed : allows ⟨pageOf addr, access⟩ with
      | false => exact ⟨_, _, rfl, truthful, hpure⟩
      | true =>
        obtain ⟨hrights, hpure'⟩ := hpure.askRights hallowed
        dsimp only
        rw [aligned.shift_eq hbacked]
        refine ⟨_, _, rfl, ?_, hpure'⟩
        exact Truthful.fill truthful hbacked hrights

end Lookaside

/-- A translation gives what the address space and the policy say, and keeps the address space. -/
theorem Honest.locate {m : Memory} (honest : m.Honest allows) (addr : Word) (access : Access) :
  ∃ m', (locate addr access).on m = .ok (m.space.translate allows addr access, m') ∧
    m'.Honest allows ∧ m'.space = m.space
  := by
  obtain ⟨t, s, p⟩ := m
  obtain ⟨pure, aligned, truthful⟩ := honest
  obtain ⟨t', p', hlocate, truthful', pure'⟩ := Lookaside.Truthful.locate truthful aligned pure addr access
  refine ⟨⟨t', s, p'⟩, ?_, ⟨pure', aligned, truthful'⟩, rfl⟩
  rw [Memory.locate, on_of]
  dsimp only
  rw [hlocate]

/-! ### Layouts -/

/-- The range of addresses of a region. -/
def Region.range (r : Region) : Word × Word :=
  (r.base, r.len)

namespace Space

/-- RAM and devices are at the same addresses. -/
structure SameLayout (s s' : Space) : Prop where
  base : s'.base = s.base
  size : s'.ram.size = s.ram.size
  regions : s'.regions.map Region.range = s.regions.map Region.range

variable {s s' : Space}

theorem SameLayout.refl (s : Space) :
  SameLayout s s
  := ⟨rfl, rfl, rfl⟩

/-- The backing of a page depends on the layout only. -/
theorem SameLayout.resolve (h : SameLayout s s') (addr : Word) :
  s'.resolve addr = s.resolve addr
  := by
  have hregions (s : Space) : ((s.regions.findIdx? (·.contains (pageStart addr))).bind fun i =>
      s.regions[i]?.map fun r => Backing.device i (pageStart addr - r.base)) =
      ((s.regions.map Region.range).findIdx? fun r =>
        r.1.ule (pageStart addr) && (pageStart addr - r.1).ult r.2).bind fun i =>
          (s.regions.map Region.range)[i]?.map fun r => .device i (pageStart addr - r.1) := by
    rw [List.findIdx?_map]
    simp only [List.getElem?_map, Option.map_map]
    rfl
  have hram : s'.ramContains (pageStart addr) = s.ramContains (pageStart addr) := by
    rw [ramContains, ramContains, h.base, h.size]
  unfold Space.resolve
  dsimp only
  rw [hram, hregions, hregions, h.regions, h.base]

theorem SameLayout.aligned (h : SameLayout s s') (aligned : s.Aligned) :
  s'.Aligned
  := by
  refine ⟨by rw [h.base, aligned.base], fun r hr => ?_⟩
  have hmem : r.range ∈ s.regions.map Region.range := by
    rw [← h.regions]
    exact List.mem_map_of_mem hr
  obtain ⟨r', hr', hrange⟩ := List.mem_map.mp hmem
  rw [show r.base = r'.base from (congrArg Prod.fst hrange).symm]
  exact aligned.regions r' hr'

/-- What a device answers to does not matter. -/
theorem map_range_set {regions : List Region} {i : Nat} {r : Region} (h : regions[i]? = some r)
    (device : Device) :
  (regions.set i { r with device }).map Region.range = regions.map Region.range
  := by
  rw [List.map_set]
  apply List.ext_getElem?
  intro j
  rw [List.getElem?_set]
  split
  case isTrue hij =>
    subst hij
    obtain ⟨hlt, rfl⟩ := List.getElem?_eq_some_iff.mp h
    simp [Region.range, hlt]
  case isFalse => rfl

theorem read_sameLayout (s : Space) (b : Backing) (size : Nat) :
  Meets False (s.read b size) fun r => SameLayout s r.2
  := by
  cases b with
  | ram position =>
    unfold Space.read
    dsimp only
    split
    · exact .ok (.refl s)
    · exact not_false
  | device i offset =>
    unfold Space.read
    dsimp only
    split
    · exact not_false
    case h_2 r hr => exact .ok ⟨rfl, rfl, map_range_set hr _⟩

theorem write_sameLayout (s : Space) (b : Backing) (size : Nat) (value : Word) :
  Meets False (s.write b size value) (SameLayout s)
  := by
  obtain ⟨ram, base, regions⟩ := s
  cases b with
  | ram position =>
    unfold Space.write
    dsimp only
    split
    · exact .ok ⟨rfl, Bytes.size_overwrite _ _ _, rfl⟩
    · exact not_false
  | device i offset =>
    unfold Space.write
    dsimp only
    split
    · exact not_false
    case h_2 r hr => exact .ok ⟨rfl, rfl, map_range_set hr _⟩

end Space

theorem Honest.of_sameLayout {t : Lookaside} {s s' : Space} {p : Policy}
    (honest : Honest allows ⟨t, s, p⟩) (h : s.SameLayout s') :
  Honest allows ⟨t, s', p⟩
  := by
  refine ⟨honest.pure, h.aligned honest.aligned, fun i e he addr hpage => ?_⟩
  rw [h.resolve]
  exact honest.truthful i e he addr hpage

/-! ### Memories that differ in their tables -/

/-- The same address space under the same pure policy, whatever the tables and the history of the
policy. -/
structure Alike (allows : Query → Bool) (m m' : Memory) : Prop where
  left : m.Honest allows
  right : m'.Honest allows
  space : m.space = m'.space

theorem respects_locate (addr : Word) (access : Access) :
  Respects (Alike allows) (locate addr access)
  := by
  intro m m' h
  obtain ⟨n, hn, honest, hspace⟩ := h.left.locate addr access
  obtain ⟨n', hn', honest', hspace'⟩ := h.right.locate addr access
  rw [hn, hn', h.space]
  exact .ok _ ⟨honest, honest', by rw [hspace, hspace', h.space]⟩

theorem respects_readAt (b : Backing) (size : Nat) :
  Respects (Alike allows) (readAt b size)
  := by
  rintro ⟨t, s, p⟩ ⟨t', _, p'⟩ ⟨honest, honest', rfl⟩
  rw [readAt, on_of, on_of]
  dsimp only
  cases hread : s.read b size with
  | error c => exact .crash c
  | ok r =>
    have hlayout := (s.read_sameLayout b size).post_of_eq hread
    exact .ok _ ⟨honest.of_sameLayout hlayout, honest'.of_sameLayout hlayout, rfl⟩

theorem respects_writeAt (b : Backing) (size : Nat) (value : Word) :
  Respects (Alike allows) (writeAt b size value)
  := by
  rintro ⟨t, s, p⟩ ⟨t', _, p'⟩ ⟨honest, honest', rfl⟩
  rw [writeAt, on_of, on_of]
  dsimp only
  cases hwrite : s.write b size value with
  | error c => exact .crash c
  | ok s' =>
    have hlayout := (s.write_sameLayout b size value).post_of_eq hwrite
    exact .ok _ ⟨honest.of_sameLayout hlayout, honest'.of_sameLayout hlayout, rfl⟩

theorem respects_readEach (addr : Word) (access : Access) (n i : Nat) (value : Word) :
  Respects (Alike allows) (readEach addr access n i value)
  := by
  induction n generalizing i value with
  | zero => exact .pure value
  | succ n ih =>
    apply (respects_locate _ access).bind
    intro b
    apply (respects_readAt b 1).bind
    intro byte
    apply (Respects.lift (byteShift i)).bind
    intro shift
    exact ih (i + 1) _

theorem respects_writeEach (addr value : Word) (n i : Nat) :
  Respects (Alike allows) (writeEach addr value n i)
  := by
  induction n generalizing i with
  | zero => exact .pure ()
  | succ n ih =>
    apply (respects_locate _ .write).bind
    intro b
    apply (Respects.lift (byteShift i)).bind
    intro shift
    apply (respects_writeAt b 1 _).bind
    intro _
    exact ih (i + 1)

theorem respects_read (addr : Word) (size : Nat) (access : Access) :
  Respects (Alike allows) (read addr size access)
  := by
  unfold read
  split
  · exact respects_readEach addr access size 0 0
  · apply (respects_locate addr access).bind
    intro b
    exact respects_readAt b size

theorem respects_store (addr : Word) (size : Nat) (value : Word) :
  Respects (Alike allows) (store addr size value)
  := by
  unfold store
  split
  · apply (Respects.discard (respects_locate addr .write)).bind
    intro _
    apply (Respects.discard (respects_locate _ .write)).bind
    intro _
    exact respects_writeEach addr value size 0
  · apply (respects_locate addr .write).bind
    intro b
    exact respects_writeAt b size value

theorem respects_fetch (pc : Word) :
  Respects (Alike allows) (fetch pc)
  := by
  apply (respects_read pc 2 .execute).bind
  intro value
  exact .pure _

/-- Loads and stores do not see the lookaside table. -/
theorem isCongruence_alike (allows : Query → Bool) :
  IsCongruence (Alike allows)
  := ⟨respects_locate, fun addr size => respects_read addr size .read, respects_store⟩

/-- What an action that respects memories with different tables keeps. -/
theorem Honest.on {m : Memory} (honest : m.Honest allows) {α : Type} {a : Action Memory Fault α}
    (respects : Respects (Alike allows) a) :
  Meets False (a.on m) fun r => r.2.Honest allows
  := by
  obtain ⟨c, hc, -⟩ | ⟨r, n, n', hn, -, halike⟩ := (respects m m ⟨honest, honest, rfl⟩).elim
  · rw [hc]
    exact not_false
  · rw [hn]
    exact halike.left

end Memory

end CrossHart
