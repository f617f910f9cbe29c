import CrossHart.Proofs.Cache.Coherence

/-!
# The guest bytes of compiled blocks

A block is decoded from the bytes of its instructions, which follow one another and may go round the
end of the address space.  Of a compiled block, only the first address and the one behind the last
byte are kept.  That is enough to tell which blocks meet a range of addresses, unless a block
reaches the last address: what is behind it is then at the front again.
-/

namespace CrossHart.Block

open Isa

/-- The number of bytes of instructions. -/
def widths (ds : List Located) : Nat :=
  (ds.map (·.width)).sum

/-- One of some instructions was decoded from a byte. -/
def Cover (ds : List Located) (addr : Word) : Prop :=
  ∃ d ∈ ds, ∃ k < d.width, addr = d.pc + BitVec.ofNat 64 k

/-- A block was decoded from a byte of the guest. -/
def Covers (b : Block) (addr : Word) : Prop :=
  Cover b.insns addr

/-- The last byte of a block is not at the last address. -/
def EndsBelowTop (b : Block) : Prop :=
  b.pc.toNat + widths b.insns < Word.count

namespace IsRun

variable {pc stop : Word} {ds : List Located} {e : Ending}

theorem widths_pos (h : IsRun pc ds e stop) :
  0 < widths ds
  := by
  have hwidth {d : Located} (decoded : d.IsDecoded) : 0 < d.width := by
    obtain hd | hd := decoded.width_eq <;> omega
  cases h with
  | last decoded => simpa [widths] using hwidth decoded
  | limit decoded => simpa [widths] using hwidth decoded
  | cons decoded _ rest =>
    have := hwidth decoded
    simp only [widths, List.map_cons, List.sum_cons]
    omega

/-- The address behind instructions that follow one another. -/
theorem stop_eq (h : IsRun pc ds e stop) :
  stop = pc + BitVec.ofNat 64 (widths ds)
  := by
  induction h with
  | last => simp [widths, Located.next]
  | limit => simp [widths, Located.next]
  | cons _ _ _ ih =>
    rw [ih, Located.next, BitVec.add_assoc, ← BitVec.ofNat_add]
    rfl

/-- Instructions that follow one another are decoded from the bytes that follow one another. -/
theorem cover_iff (h : IsRun pc ds e stop) {addr : Word} :
  Cover ds addr ↔ ∃ k < widths ds, addr = pc + BitVec.ofNat 64 k
  := by
  induction h with
  | last => simp [Cover, widths]
  | limit => simp [Cover, widths]
  | @cons d ds e stop _ _ _ ih =>
    have hsplit : Cover (d :: ds) addr ↔
        (∃ k < d.width, addr = d.pc + BitVec.ofNat 64 k) ∨ Cover ds addr := by
      simp [Cover]
    have hshift (k : Nat) : d.next + BitVec.ofNat 64 k = d.pc + BitVec.ofNat 64 (d.width + k) := by
      rw [Located.next, BitVec.add_assoc, ← BitVec.ofNat_add]
    have hwidths : widths (d :: ds) = d.width + widths ds := rfl
    rw [hsplit, ih, hwidths]
    constructor
    · rintro (⟨k, hk, rfl⟩ | ⟨k, hk, rfl⟩)
      · exact ⟨k, by omega, rfl⟩
      · exact ⟨d.width + k, by omega, hshift k⟩
    · rintro ⟨k, hk, rfl⟩
      by_cases hlt : k < d.width
      · exact .inl ⟨k, hlt, rfl⟩
      · refine .inr ⟨k - d.width, by omega, ?_⟩
        rw [hshift]
        congr 2
        omega

end IsRun

end CrossHart.Block

namespace CrossHart.Cache

/-- An address is one of `len` addresses from `start` on, none of them beyond the last one. -/
def InRange (start : Word) (len : Nat) (addr : Word) : Prop :=
  start.toNat ≤ addr.toNat ∧ addr.toNat < start.toNat + len

instance (start : Word) (len : Nat) (addr : Word) : Decidable (InRange start len addr) :=
  inferInstanceAs (Decidable (_ ∧ _))

/-- A compiled block is made from a block of the guest. -/
structure Compiled.From (c : Compiled) (block : Block) : Prop where
  formed : block.WasFormed
  pc : c.pc = block.pc
  endPc : c.endPc = block.endPc
  count : c.count = block.count

namespace Compiled.From

variable {c : Compiled} {block : Block}

/-- Links of a compiled block do not count. -/
theorem of_bare_eq {c' : Compiled} (h : c.From block) (same : c'.bare = c.bare) :
  c'.From block
  := by
  refine ⟨h.formed, ?_, ?_, ?_⟩
  · exact (congrArg Compiled.pc same).trans h.pc
  · exact (congrArg Compiled.endPc same).trans h.endPc
  · exact (congrArg Compiled.count same).trans h.count

/-- Where the bytes of a compiled block are. -/
theorem covers_iff (h : c.From block) {addr : Word} :
  block.Covers addr ↔ ∃ k < Block.widths block.insns, addr = c.pc + BitVec.ofNat 64 k
  := by
  rw [h.pc]
  exact h.formed.isFormed.cover_iff

theorem toNat_endPc (h : c.From block) :
  c.endPc.toNat = (c.pc.toNat + Block.widths block.insns) % Word.count
  := by
  rw [h.pc, h.endPc, h.formed.isFormed.stop_eq, BitVec.toNat_add, BitVec.toNat_ofNat]
  simp

/-- A byte so far behind the first one of a block that it is one of the block. -/
theorem covers_of_lt (h : c.From block) {addr : Word}
    (hlt : (addr - c.pc).toNat < Block.widths block.insns) :
  block.Covers addr
  := by
  apply h.covers_iff.mpr
  refine ⟨(addr - c.pc).toNat, hlt, ?_⟩
  rw [BitVec.ofNat_toNat, BitVec.setWidth_eq, BitVec.add_comm, BitVec.sub_add_cancel]

/-- A block that is taken to meet a range shares a byte with it. -/
theorem exists_of_overlapsGuest (h : c.From block) {start len : Word} (pos : 0 < len.toNat)
    (overlaps : c.overlapsGuest start len = true) :
  ∃ addr, block.Covers addr ∧ InRange start len.toNat addr
  := by
  have hend := h.toNat_endPc
  have hpos := h.formed.isFormed.widths_pos
  simp only [Compiled.overlapsGuest, Bool.and_eq_true, decide_eq_true_eq, BitVec.ult] at overlaps
  obtain ⟨hlow, hhigh⟩ := overlaps
  rw [Word.count] at hend hlow
  -- It is the first byte of the block if that is within the range, and of the range otherwise.
  by_cases hstart : start.toNat ≤ c.pc.toNat
  · refine ⟨c.pc, h.covers_of_lt (by simpa using hpos), hstart, ?_⟩
    omega
  · refine ⟨start, h.covers_of_lt ?_, Nat.le_refl _, by omega⟩
    rw [BitVec.toNat_sub]
    omega

/-- A block that ends below the last address and shares a byte with a range is taken to meet it. -/
theorem overlapsGuest_of_exists (h : c.From block) (below : block.EndsBelowTop) {start len : Word}
    {addr : Word} (covers : block.Covers addr) (inRange : InRange start len.toNat addr) :
  c.overlapsGuest start len = true
  := by
  have hend := h.toNat_endPc
  obtain ⟨k, hk, rfl⟩ := h.covers_iff.mp covers
  rw [Block.EndsBelowTop, ← h.pc] at below
  simp only [InRange, BitVec.toNat_add, BitVec.toNat_ofNat] at inRange
  simp only [Compiled.overlapsGuest, Bool.and_eq_true, decide_eq_true_eq, BitVec.ult]
  rw [Word.count] at *
  omega

/-- A block that reaches the last address has a byte with which it is not taken to meet. -/
theorem exists_missed (h : c.From block) (top : ¬block.EndsBelowTop) :
  ∃ addr, block.Covers addr ∧ c.overlapsGuest addr 1 = false
  := by
  have hend := h.toNat_endPc
  have hpos := h.formed.isFormed.widths_pos
  rw [Block.EndsBelowTop, ← h.pc] at top
  have hmissed (addr : Word) (hle : c.endPc.toNat ≤ addr.toNat) : c.overlapsGuest addr 1 = false := by
    simp only [Compiled.overlapsGuest, Bool.and_eq_false_iff, BitVec.ult, decide_eq_false_iff_not]
    exact .inr (Nat.not_lt.mpr hle)
  by_cases hle : c.endPc.toNat ≤ c.pc.toNat
  · exact ⟨c.pc, h.covers_of_lt (by simpa using hpos), hmissed _ hle⟩
  · -- The block has gone all the way round.
    refine ⟨c.endPc, h.covers_of_lt ?_, hmissed _ (Nat.le_refl _)⟩
    rw [BitVec.toNat_sub]
    rw [Word.count] at *
    omega

end Compiled.From

end CrossHart.Cache

namespace CrossHart.CodeCache

open Cache Host

variable {c c' : CodeCache}

/-- Each block is made from one of the guest. -/
def Sourced (c : CodeCache) : Prop :=
  ∀ id b, c.table.view.bare id = some b → ∃ block, b.From block

theorem on_sourced (sourced : c.Sourced) (arena : c.Arena) {op : Operation} (admitted : Admits c op) :
  Meets False (op.on c) Sourced
  := by
  cases op with
  | install block =>
    refine ((install_installs arena block).imp fun r h => ?_).map
    cases h with
    | refused => exact sourced
    | placed _ _ makes _ places =>
      intro j b hb
      rw [places.bare, Function.update_apply] at hb
      split at hb
      case isTrue =>
        obtain rfl := Option.some.inj hb
        exact ⟨block, admitted.1, rfl, rfl, rfl⟩
      case isFalse => exact sourced j b (makes.left hb)
  | lookup pc => exact .ok fun j b hb => sourced j b ((lookup_evicts c pc).left hb)
  | invalidate start len =>
    exact ((invalidate_evicts c start len).imp fun r h j b hb => sourced j b (h.left hb)).map
  | flush =>
    refine .ok fun j b hb => ?_
    simp [flush, Table.view, Table.block?] at hb

theorem runs_sourced {c₀ : CodeCache} (sourced : c₀.Sourced) (arena : c₀.Arena)
    (runs : Runs Admits c₀ c) :
  c.Sourced
  := by
  induction runs with
  | refl => exact sourced
  | step runs admitted on ih =>
    exact (on_sourced ih (runs_arena arena runs).1 admitted).post_of_eq on

theorem Sourced.exists_from (sourced : c.Sourced) {id : Nat} {b : Compiled}
    (hb : c.block? id = some b) :
  ∃ block, b.From block
  := by
  obtain ⟨block, source⟩ := sourced id b.bare (Table.bare_of_block? hb)
  exact ⟨block, source.formed, source.pc, source.endPc, source.count⟩

theorem Created.sourced {size : Nat} {eviction : Eviction} {services : Services}
    (created : c.Created size eviction services) :
  c.Sourced
  := by
  intro id b hb
  simp [created.table, Table.view, Table.block?] at hb

/-! ### Invalidation -/

/-- A range of the guest was invalidated: the blocks that are left were there before, all blocks that
share no byte with the range are left, and no block that ends below the last address and shares one
is. -/
structure Purges (start : Word) (len : Nat) (c c' : CodeCache) : Prop where
  left : ∀ id b', c'.block? id = some b' → ∃ b, c.block? id = some b ∧ b'.bare = b.bare
  kept : ∀ id b block, c.block? id = some b → b.From block →
    (∀ addr, block.Covers addr → ¬InRange start len addr) →
    ∃ b', c'.block? id = some b' ∧ b'.bare = b.bare
  gone : ∀ id b block, c'.block? id = some b → b.From block → block.EndsBelowTop →
    ∀ addr, block.Covers addr → ¬InRange start len addr

/-- The blocks that are taken to meet a range. -/
theorem mem_victims (dir : c.Directory) {start len : Word} {id : Nat} :
  id ∈ (c.blocks.filter fun p => p.2.overlapsGuest start len).map (·.1) ↔
    ∃ b, c.block? id = some b ∧ b.overlapsGuest start len = true
  := by
  have hmem (p : Nat × Compiled) : p ∈ c.blocks ↔ p.1 ∈ c.queue ∧ c.block? p.1 = some p.2 :=
    mem_blocksOf
  simp only [List.mem_map, List.mem_filter, hmem]
  constructor
  · rintro ⟨⟨_, b⟩, ⟨⟨-, hb⟩, hoverlaps⟩, rfl⟩
    exact ⟨b, hb, hoverlaps⟩
  · rintro ⟨b, hb, hoverlaps⟩
    refine ⟨(id, b), ⟨⟨?_, hb⟩, hoverlaps⟩, rfl⟩
    apply (dir.mem_queue id).mpr
    rw [Table.bare_of_block? hb]
    rfl

theorem invalidate_purges (dir : c.Directory) {start len : Word} (pos : 0 < len.toNat) :
  Meets False (c.invalidate start len) fun r => Purges start len.toNat c r.2
  := by
  refine (invalidate_evicts c start len).imp ?_
  rintro ⟨n, c'⟩ evicts
  dsimp only at evicts ⊢
  refine ⟨fun id b' hb' => ?_, fun id b block hb source apart => ?_,
    fun id b' block hb' source below addr covers inRange => ?_⟩
  · obtain ⟨b, hb, heq⟩ := Table.bare_eq_some.mp (evicts.left (Table.bare_of_block? hb'))
    exact ⟨b, hb, heq.symm⟩
  · have hkept : id ∉ (c.blocks.filter fun p => p.2.overlapsGuest start len).map (·.1) := by
      rw [mem_victims dir]
      rintro ⟨_, hb₁, hoverlaps⟩
      cases hb.symm.trans hb₁
      obtain ⟨addr, covers, inRange⟩ := source.exists_of_overlapsGuest pos hoverlaps
      exact apart addr covers inRange
    have hbare : c'.table.view.bare id = some b.bare := by
      rw [evicts.bare, if_neg hkept]
      exact Table.bare_of_block? hb
    obtain ⟨b', hb', heq⟩ := Table.bare_eq_some.mp hbare
    exact ⟨b', hb', heq⟩
  · have hbare' := Table.bare_of_block? hb'
    obtain ⟨b, hb, heq⟩ := Table.bare_eq_some.mp (evicts.left hbare')
    have hoverlaps : b.overlapsGuest start len = true := by
      have h := source.overlapsGuest_of_exists below covers inRange
      change b.bare.overlapsGuest start len = true
      rw [heq]
      exact h
    rw [evicts.bare, if_pos ((mem_victims dir).mpr ⟨b, hb, hoverlaps⟩)] at hbare'
    cases hbare'

/-- A block that reaches the last address is left when a byte of it is invalidated. -/
theorem invalidate_misses (dir : c.Directory) {id : Nat} {b : Compiled} {block : Block}
    (hb : c.block? id = some b) (source : b.From block) (top : ¬block.EndsBelowTop) :
  ∃ addr, block.Covers addr ∧ Meets False (c.invalidate addr 1) fun r =>
    ∃ b', r.2.block? id = some b' ∧ b'.From block
  := by
  obtain ⟨addr, covers, hmissed⟩ := source.exists_missed top
  refine ⟨addr, covers, (invalidate_evicts c addr 1).imp ?_⟩
  rintro ⟨n, c'⟩ evicts
  have hbare : c'.table.view.bare id = some b.bare := by
    rw [evicts.bare, if_neg, Table.bare_of_block? hb]
    rw [mem_victims dir]
    rintro ⟨_, hb₁, hoverlaps⟩
    cases hb.symm.trans hb₁
    cases hmissed.symm.trans hoverlaps
  obtain ⟨b', hb', heq⟩ := Table.bare_eq_some.mp hbare
  exact ⟨b', hb', source.of_bare_eq heq⟩

end CrossHart.CodeCache
