import CrossHart.Proofs.Machine.Reachable

/-!
# Changes from outside

A change of the guest's bytes or pages from outside discards the code that was compiled from them,
and no other code.  The exception are blocks that reach the last address: code compiled from such a
block is kept although bytes of it changed.
-/

namespace CrossHart.CodeCache

open Cache

variable {c c' : CodeCache}

/-- No block was decoded from a byte of a range. -/
def ClearOf (start : Word) (len : Nat) (c : CodeCache) : Prop :=
  ∀ id b block, c.block? id = some b → b.From block → ∀ addr, block.Covers addr →
    ¬InRange start len addr

/-- Every block ends below the last address. -/
def EndsBelowTop (c : CodeCache) : Prop :=
  ∀ id b block, c.block? id = some b → b.From block → block.EndsBelowTop

/-- If no byte is affected, nothing is discarded. -/
theorem Purges.refl (start : Word) (c : CodeCache) :
  Purges start 0 c c
  := by
  refine ⟨fun id b hb => ⟨b, hb, rfl⟩, fun id b _ hb _ _ => ⟨b, hb, rfl⟩, ?_⟩
  rintro _ _ _ _ _ _ addr _ ⟨hlow, hhigh⟩
  omega

theorem Purges.clearOf {start : Word} {len : Nat} (purges : Purges start len c c')
    (below : c.EndsBelowTop) :
  c'.ClearOf start len
  := by
  intro id b' block hb' source
  obtain ⟨b, hb, heq⟩ := purges.left id b' hb'
  exact purges.gone id b' block hb' source (below id b block hb (source.of_bare_eq heq.symm))

theorem invalidate_purges_of_intact (dir : c.Directory) {start len : Word} (pos : 0 < len.toNat) :
  Meets (c.Intact fun _ => True) (c.invalidate start len) fun r => Purges start len.toNat c r.2
  := by
  have hsafe (intact : c.Intact fun _ => True) : ∃ r, c.invalidate start len = .ok r := by
    obtain ⟨r, hr, -⟩ := (invalidate_intact intact start len).exists_ok trivial
    exact ⟨r, hr⟩
  exact ((Meets.self hsafe).and (invalidate_purges dir pos)).imp fun _ h => h.2

/-- Blocks with a byte in a range are always discarded if all blocks end below the last address, and
only then. -/
theorem endsBelowTop_iff (intact : c.Intact fun _ => True) :
  c.EndsBelowTop ↔ ∀ start len : Word, 0 < len.toNat →
    ∃ n c', c.invalidate start len = .ok (n, c') ∧ c'.ClearOf start len.toNat
  := by
  have dir := intact.arena.toDirectory
  constructor
  · intro below start len pos
    obtain ⟨⟨n, c'⟩, hr, purges⟩ := (invalidate_purges_of_intact dir pos).exists_ok intact
    exact ⟨n, c', hr, purges.clearOf below⟩
  · intro clear id b block hb source
    by_contra htop
    obtain ⟨addr, covers, misses⟩ := invalidate_misses dir hb source htop
    obtain ⟨n, c', hr, hclear⟩ := clear addr 1 Nat.one_pos
    obtain ⟨b', hb', source'⟩ := misses.post_of_eq hr
    exact hclear id b' block hb' source' addr covers ⟨le_rfl, Nat.lt_succ_self _⟩

end CrossHart.CodeCache

namespace CrossHart.Machine

open Cache Host

/-- A change from outside, after which code compiled from some bytes is out of date. -/
inductive Intrusion where
  | load (addr : Word) (data : ByteArray)
  | page (number : Word)
  | code (start len : Word)

namespace Intrusion

/-- What a change does. -/
def on : Intrusion → Change Unit
  | load addr data => Machine.load addr data
  | page number => fun m => (m.invalidatePage number).map (.ok (), ·)
  | code start len => fun m => (m.invalidateCode start len).map (.ok (), ·)

/-- The first byte that a change affects. -/
def start : Intrusion → Word
  | load addr _ => addr
  | page number => number <<< 12
  | code start _ => start

/-- The number of bytes that a change affects.  There are no pages behind the last address. -/
def len : Intrusion → Nat
  | load _ data => data.size
  | page number => if number.toNat * Memory.pageSize < Word.count then Memory.pageSize else 0
  | code _ len => len.toNat

/-- A change affects some bytes, and fewer than there are addresses. -/
def Proper : Intrusion → Prop
  | load _ data => 0 < data.size ∧ data.size < Word.count
  | page _ => True
  | code _ len => 0 < len.toNat

end Intrusion

variable {m : Machine} {c : CodeCache}

theorem invalidateCode_purges (cached : m.cache = some c) (dir : c.Directory) (start : Word)
    {len : Word} (pos : 0 < len.toNat) :
  Meets (c.Intact fun _ => True) (m.invalidateCode start len) fun m' =>
    ∃ c', m'.cache = some c' ∧ CodeCache.Purges start len.toNat c c'
  := by
  unfold invalidateCode
  rw [cached]
  refine (CodeCache.invalidate_purges_of_intact dir pos).bind fun r purges => ?_
  exact .ok ⟨r.2, rfl, purges⟩

theorem load_purges (cached : m.cache = some c) (dir : c.Directory) (addr : Word)
    {data : ByteArray} (pos : 0 < data.size) (small : data.size < Word.count) :
  Meets (c.Intact fun _ => True) (load addr data m) fun r => r.1 = .ok () →
    ∃ c', r.2.cache = some c' ∧ CodeCache.Purges addr data.size c c'
  := by
  have hlen : (BitVec.ofNat 64 data.size).toNat = data.size := Nat.mod_eq_of_lt small
  unfold load
  split
  · rw [← hlen] at pos
    refine (invalidateCode_purges (m := m.mapMemory _) cached dir addr pos).bind fun m' h => ?_
    rw [hlen] at h
    exact .ok fun _ => h
  · exact .ok nofun

theorem invalidatePage_purges (cached : m.cache = some c) (dir : c.Directory) (number : Word) :
  Meets (c.Intact fun _ => True) (m.invalidatePage number) fun m' =>
    ∃ c', m'.cache = some c' ∧
      CodeCache.Purges (number <<< 12) (Intrusion.page number).len c c'
  := by
  unfold invalidatePage Intrusion.len
  dsimp only
  split
  · exact invalidateCode_purges (m := m.mapMemory _) cached dir _ (by decide)
  · exact .ok ⟨c, cached, .refl _ c⟩

theorem intrusion_purges (cached : m.cache = some c) (dir : c.Directory) {change : Intrusion}
    (proper : change.Proper) :
  Meets (c.Intact fun _ => True) (change.on m) fun r => r.1 = .ok () →
    ∃ c', r.2.cache = some c' ∧ CodeCache.Purges change.start change.len c c'
  := by
  cases change with
  | load addr data => exact load_purges cached dir addr proper.1 proper.2
  | page number =>
    apply Meets.map
    exact (invalidatePage_purges cached dir number).imp fun m' h _ => h
  | code start len =>
    apply Meets.map
    exact (invalidateCode_purges cached dir start proper).imp fun m' h _ => h

/-- After a change from outside, the code cache of a machine has the blocks from before that share no
byte with what changed, and no block that shares one and ends below the last address.  In a cache of
at most two gigabytes, a change always has a result, and blocks that share a byte with what changed
are always gone if all blocks end below the last address, and only then. -/
theorem stale_code_only_at_top (reached : m.Reachable) :
  ∃ c, m.cache = some c ∧ (∀ id b, c.block? id = some b → ∃ block, b.From block) ∧
    (∀ change : Intrusion, change.Proper → ∀ m', change.on m = .ok (.ok (), m') →
      ∃ c', m'.cache = some c' ∧ CodeCache.Purges change.start change.len c c') ∧
    (c.buffer.capacity ≤ 0x80000000 →
      (∀ change : Intrusion, change.Proper → ∃ r, change.on m = .ok r) ∧
      (c.EndsBelowTop ↔ ∀ start len : Word, 0 < len.toNat →
        ∃ n c', c.invalidate start len = .ok (n, c') ∧ c'.ClearOf start len.toNat))
  := by
  obtain ⟨size, eviction, services, platform, c₀, created, c, cached, runs⟩ := reached.evolved
  have hcreated := CodeCache.created_of_create created
  obtain ⟨arena, guards⟩ := CodeCache.runs_arena hcreated.arena runs
  have dir := arena.toDirectory
  have sourced := CodeCache.runs_sourced hcreated.sourced hcreated.arena runs
  refine ⟨c, cached, fun id b hb => sourced.exists_from hb, fun change proper m' on => ?_, fun small => ?_⟩
  · exact (intrusion_purges cached dir proper).post_of_eq on rfl
  · have intact : c.Intact fun _ => True := by
      refine CodeCache.runs_intact (hcreated.intact ?_) runs
      rw [guards.capacity, hcreated.capacity] at small
      simp only [Size.roundUp, Buffer.hostPageSize] at small
      omega
    refine ⟨fun change proper => ?_, CodeCache.endsBelowTop_iff intact⟩
    obtain ⟨r, hr, -⟩ := (intrusion_purges cached dir proper).exists_ok intact
    exact ⟨r, hr⟩

/-- An addition and a jump to itself. -/
def addAndLoop (pc : Word) : Block :=
  ⟨pc, [⟨pc, 0x02a00513, .opImm .add 10 0 42, 4⟩, ⟨pc + 4, 0x0000006f, .jal 0 0, 4⟩], .jump⟩

/-- A guest at an address, with such an addition and jump at 0 and at 8. -/
def twoLoops (pc : Word) : Guest where
  hart := { regs := { pc } }
  memory :=
    { space :=
        ⟨Bytes.overwrite (Bytes.zeros 0x1000) 0
          [0x13, 0x05, 0xa0, 0x02, 0x6f, 0, 0, 0, 0x13, 0x05, 0xa0, 0x02, 0x6f, 0, 0, 0], 0, []⟩
      policy := .allowAll }

/-- The machine after a run of one instruction at an address.  The block there is compiled, but too long
to be entered. -/
def glance (m : Machine) (pc : Word) : Option Machine :=
  (run (fun _ h memory => .ok (.ret 0, h, memory)) (m.withGuest (twoLoops pc)) () (some 1)).toOption.map
    (·.2.1)

theorem Reachable.glance {m' : Machine} (reached : m.Reachable) {pc : Word}
    (h : m.glance pc = some m') :
  m'.Reachable
  := by
  obtain ⟨⟨exit, m', _⟩, hrun, rfl⟩ := Except.exists_of_toOption h
  exact (reached.guest (twoLoops pc)).run _ (some 1) hrun

theorem from_addAndLoop {b : Compiled} {pc : Word} (h : pc = 0 ∨ pc = 8)
    (fields : (b.pc, b.endPc, b.count) = (pc, pc + 8, 2)) :
  b.From (addAndLoop pc)
  := by
  obtain ⟨hpc, hend, hcount⟩ : b.pc = pc ∧ b.endPc = pc + 8 ∧ b.count = 2 := by simpa using fields
  refine ⟨⟨Unit, fun addr => pure (if addr.toNat % 8 = 0 then 0x0513 else if addr.toNat % 8 = 2 then
    0x02a0 else if addr.toNat % 8 = 4 then 0x006f else 0), (), (), pc, 8, ?_⟩, hpc, ?_, hcount⟩
  · obtain rfl | rfl := h
    · rfl
    · rfl
  · rw [hend]
    obtain rfl | rfl := h
    · rfl
    · rfl

/-- A machine that has compiled both blocks. -/
theorem exists_compiled :
  ∃ (m : Machine) (c : CodeCache) (b₀ b₁ : Compiled), m.Reachable ∧ m.cache = some c ∧
    c.buffer.capacity = 0x10000 ∧ inRam m.guest.memory.space 8 1 = true ∧
    c.block? 0 = some b₀ ∧ b₀.From (addAndLoop 0) ∧ c.block? 1 = some b₁ ∧ b₁.From (addAndLoop 8)
  := by
  have hseen : ((create { cacheSize := 0x10000, memorySize := 0x1000 } .allowAll).toOption.bind
      fun r => r.toOption.bind fun m => (m.glance 0).bind fun m => (m.glance 8).bind fun m =>
        m.cache.bind fun c => (c.block? 0).bind fun b₀ => (c.block? 1).map fun b₁ =>
          ((c.buffer.capacity, inRam m.guest.memory.space 8 1), (b₀.pc, b₀.endPc, b₀.count),
            (b₁.pc, b₁.endPc, b₁.count))) =
      some ((0x10000, true), (0, 8, 2), (8, 16, 2)) := by decide +kernel
  obtain ⟨r, hr, hseen⟩ := Option.bind_eq_some_iff.mp hseen
  obtain ⟨m₀, hm₀, hseen⟩ := Option.bind_eq_some_iff.mp hseen
  obtain ⟨m₁, hm₁, hseen⟩ := Option.bind_eq_some_iff.mp hseen
  obtain ⟨m, hm, hseen⟩ := Option.bind_eq_some_iff.mp hseen
  obtain ⟨c, hc, hseen⟩ := Option.bind_eq_some_iff.mp hseen
  obtain ⟨b₀, hb₀, hseen⟩ := Option.bind_eq_some_iff.mp hseen
  obtain ⟨b₁, hb₁, hseen⟩ := Option.map_eq_some_iff.mp hseen
  obtain ⟨hcapacity, hfields⟩ := Prod.mk.inj hseen
  obtain ⟨hcapacity, hram⟩ := Prod.mk.inj hcapacity
  obtain ⟨hfields₀, hfields₁⟩ := Prod.mk.inj hfields
  have reached : m₀.Reachable := by
    rw [Except.eq_ok_of_toOption hm₀] at hr
    exact .create rfl (Except.eq_ok_of_toOption hr)
  exact ⟨m, c, b₀, b₁, (reached.glance hm₁).glance hm, hc, hcapacity, hram, hb₀,
    from_addAndLoop (.inl rfl) hfields₀, hb₁, from_addAndLoop (.inr rfl) hfields₁⟩

/-- Of two compiled blocks, the one in which a byte is loaded is discarded, and the other one is kept. -/
theorem stale_code_only_at_top_of_two :
  ∃ (m m' : Machine) (c c' : CodeCache) (b₀ b₁ b : Compiled), m.Reachable ∧ m.cache = some c ∧
    c.block? 0 = some b₀ ∧ b₀.From (addAndLoop 0) ∧ c.block? 1 = some b₁ ∧ b₁.From (addAndLoop 8) ∧
    (Intrusion.load 8 ⟨#[0x93]⟩).on m = .ok (.ok (), m') ∧ m'.cache = some c' ∧
    CodeCache.Purges 8 1 c c' ∧ c'.block? 0 = some b ∧ b.bare = b₀.bare ∧ c'.block? 1 = none
  := by
  obtain ⟨m, c, b₀, b₁, reached, cached, hcapacity, hram, hb₀, hfrom₀, hb₁, hfrom₁⟩ := exists_compiled
  obtain ⟨c, hcached, -, hpurges, hsmall⟩ := stale_code_only_at_top reached
  obtain rfl := Option.some.inj (cached.symm.trans hcached)
  have hproper : (Intrusion.load 8 ⟨#[0x93]⟩).Proper := ⟨by decide, by decide⟩
  obtain ⟨⟨result, m'⟩, hon⟩ := (hsmall (by rw [hcapacity]; decide)).1 _ hproper
  obtain rfl : result = .ok () := by
    have hload : load 8 ⟨#[0x93]⟩ m = .ok (result, m') := hon
    rw [load, if_pos (show inRam _ 8 (ByteArray.size ⟨#[0x93]⟩) = true from hram)] at hload
    obtain ⟨_, -, hload⟩ := Except.bind_eq_ok.mp hload
    cases hload
    rfl
  obtain ⟨c', cached', purges⟩ := hpurges _ hproper m' hon
  have hapart : ∀ addr, (addAndLoop 0).Covers addr → ¬InRange 8 1 addr := by
    rintro _ ⟨d, hd, k, hk, rfl⟩
    simp only [addAndLoop, List.mem_cons, List.not_mem_nil, or_false] at hd
    obtain rfl | rfl := hd
    · exact (by decide : ∀ k < 4, ¬InRange 8 1 (0 + BitVec.ofNat 64 k)) k hk
    · exact (by decide : ∀ k < 4, ¬InRange 8 1 (0 + 4 + BitVec.ofNat 64 k)) k hk
  obtain ⟨b, hb, hbare⟩ := purges.kept 0 b₀ (addAndLoop 0) hb₀ hfrom₀ hapart
  refine ⟨m, m', c, c', b₀, b₁, b, reached, cached, hb₀, hfrom₀, hb₁, hfrom₁, hon, cached', purges, hb,
    hbare, ?_⟩
  by_contra hne
  obtain ⟨b', hb'⟩ := Option.ne_none_iff_exists'.mp hne
  obtain ⟨b'', hb'', hbare'⟩ := purges.left 1 b' hb'
  obtain rfl := Option.some.inj (hb₁.symm.trans hb'')
  have hbelow : (addAndLoop 8).EndsBelowTop := (by decide : 8 + 8 < Word.count)
  exact purges.gone 1 b' (addAndLoop 8) hb' (hfrom₁.of_bare_eq hbare') hbelow 8
    ⟨_, List.mem_cons_self, 0, by decide, rfl⟩ (by decide)

end CrossHart.Machine

namespace CrossHart.CodeCache

open Cache

/-- A block at the last four addresses that jumps to itself. -/
def topLoop : Block := ⟨0xfffffffffffffffc, [⟨0xfffffffffffffffc, 0x0000006f, .jal 0 0, 4⟩], .jump⟩

/-- A block that reaches the last address is kept when its bytes are invalidated. -/
theorem invalidate_keeps_topLoop :
  ∃ c₀ c id b, create 0x10000 .fifo .standard = .ok (some c₀) ∧
    c₀.install topLoop = .ok (.ok id, c) ∧ Runs Admits c₀ c ∧
    c.invalidate 0xfffffffffffffffc 4 = .ok (0, c) ∧ c.block? id = some b ∧ b.From topLoop ∧
    topLoop.Covers 0xfffffffffffffffc ∧ InRange 0xfffffffffffffffc 4 0xfffffffffffffffc
  := by
  obtain ⟨c₀, created⟩ := exists_create (by decide : Host.Platform.standard.Affords 0x10000) .fifo .standard
  have hcreated := created_of_create created
  have hempty (id : Nat) : c₀.table.view.bare id = none := by
    rw [hcreated.table]
    simp [Table.view, Table.block?]
  have hformed : topLoop.WasFormed := ⟨Unit, fun addr => pure (if addr = topLoop.pc then 0x6f else 0),
    (), (), topLoop.pc, 8, rfl⟩
  obtain ⟨id, c, hinstall, hon, hintact, -, -, a, ha, hpc, hend, hcount, hblocks⟩ :=
    exists_install (hcreated.intact (by decide)) hformed (by rw [hcreated.index]; rfl)
      (by rw [hcreated.head, show c₀.buffer.capacity = 0x10000 from hcreated.capacity]; decide)
  have hadmits : Admits c₀ (.install topLoop) := by
    refine ⟨hformed, fun id b hb => ?_⟩
    cases (hempty id).symm.trans (Table.bare_of_block? hb)
  obtain ⟨b, hb, rfl⟩ := Table.bare_eq_some.mp ha
  -- What is behind the block is at address zero, before everything.
  have hvictims : (c.blocks.filter fun p => p.2.overlapsGuest 0xfffffffffffffffc 4).map (·.1) = [] := by
    apply List.eq_nil_iff_forall_not_mem.mpr
    intro j hj
    obtain ⟨b', hb', hoverlaps⟩ := (mem_victims hintact.arena.toDirectory).mp hj
    obtain heq | hnone := hblocks j _ (Table.bare_of_block? hb')
    · have hend' : b'.endPc = 0 := (congrArg Compiled.endPc heq).trans hend
      simp [Compiled.overlapsGuest, hend', BitVec.ult] at hoverlaps
    · cases (hempty j).symm.trans hnone
  refine ⟨c₀, c, id, b, created, hinstall, .step .refl hadmits hon, ?_, hb,
    ⟨hformed, hpc, hend, hcount⟩, ⟨_, List.mem_singleton_self _, 0, by decide, rfl⟩, by decide⟩
  unfold invalidate
  rw [hvictims]
  rfl

end CrossHart.CodeCache
