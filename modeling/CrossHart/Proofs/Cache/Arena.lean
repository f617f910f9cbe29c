import Mathlib.Data.List.ReduceOption
import CrossHart.Proofs.Cache.Operations

/-!
# The arena of compiled code

Blocks are placed one after the other, and over again from the front.  The queue has first what is
left of the previous pass, behind the head, and then the blocks of the current pass, before it, each
of them in the order of their code.  So it is enough to look at the front of the queue to make room.
-/

namespace CrossHart.Host

/-- A platform has memory for a buffer of at least a size, in whole pages. -/
def Platform.Affords (platform : Platform) (size : Nat) : Prop :=
  platform.grants (Size.roundUp (max size 1) Buffer.hostPageSize) = true

instance (platform : Platform) (size : Nat) : Decidable (platform.Affords size) :=
  inferInstanceAs (Decidable (_ = true))

end CrossHart.Host

namespace CrossHart.CodeCache

open Cache Host

/-! ### Making room -/

/-- Whether a block of `need` bytes is placed at the front again. -/
def wraps (c : CodeCache) (need : Nat) : Bool :=
  c.buffer.capacity < c.head + need

/-- Where a block of `need` bytes is placed. -/
def startFor (c : CodeCache) (need : Nat) : Nat :=
  if c.wraps need then c.frame.start else c.head

/-- Whether the cache has no room for a block of `need` bytes. -/
def Refuses (c : CodeCache) (need : Nat) : Prop :=
  c.buffer.capacity - c.frame.start < need ∨ (c.wraps need ∧ c.eviction = .none)

instance (c : CodeCache) (need : Nat) : Decidable (c.Refuses need) :=
  inferInstanceAs (Decidable (_ ∨ _))

/-- Whether a block is in the way of `need` bytes. -/
def inTheWay (c : CodeCache) (need : Nat) (b : Compiled) : Except Crash Bool := do
  if c.wraps need ∧ c.head ≤ b.entry then return true
  else b.overlapsHost (c.startFor need) (c.startFor need + need)

/-- Evicting the oldest blocks in the way of `need` bytes. -/
def makeRoom (c : CodeCache) (need : Nat) : Except Crash CodeCache := do
  let buffer ← c.buffer.beginWrite
  evictOldest (c.inTheWay need) c.queue { c with buffer }

theorem install_eq (c : CodeCache) (block : Block) :
  c.install block =
    if c.Refuses (codeBound block) then .ok (.error (.outOfCapacity (codeBound block)), c)
    else if (c.index.lookup block.pc).isSome then .error (.breach .compiledTwice)
    else do
      let c₁ ← c.makeRoom (codeBound block)
      let start := c.startFor (codeBound block)
      if !(← c₁.isClear start (start + codeBound block)) then throw .badArgument
      let (id, c₂) ← c₁.place block start (codeBound block)
      return (.ok id, c₂)
  := by
  unfold install
  dsimp only
  by_cases hrefuses : c.Refuses (codeBound block)
  · rw [if_pos hrefuses]
    have h : c.buffer.capacity - c.frame.start < codeBound block ∨
        ((decide (c.buffer.capacity < c.head + codeBound block)) = true ∧ c.eviction = .none) :=
      hrefuses
    rw [if_pos h]
    rfl
  · rw [if_neg hrefuses]
    have h : ¬(c.buffer.capacity - c.frame.start < codeBound block ∨
        ((decide (c.buffer.capacity < c.head + codeBound block)) = true ∧ c.eviction = .none)) :=
      hrefuses
    rw [if_neg h]
    split
    · rfl
    · rw [makeRoom, bind_assoc]
      rfl

/-! ### Blocks in order -/

/-- A block has its code in `[start, capacity)`, and its jumps within it. -/
structure Sits (start capacity : Nat) (b : Compiled) : Prop where
  aligned : b.entry % alignment = 0
  low : start ≤ b.entry
  pos : 0 < b.size
  high : b.entry + b.size ≤ capacity
  jumps : ∀ x ∈ b.exits,
    b.entry ≤ x.site.jump ∧ x.site.jump + jumpSize ≤ b.entry + b.size

/-- Blocks are in the order of their code. -/
def Ordered (c : CodeCache) (ids : List Nat) : Prop :=
  ids.Pairwise fun i j => ∀ a b, c.table.view.bare i = some a → c.table.view.bare j = some b →
    a.entry + a.size ≤ b.entry

/-- The queue has the blocks of the previous pass that are left, and then those of the current
pass. -/
structure Passes (c : CodeCache) (old new : List Nat) : Prop where
  queue : c.queue = old ++ new
  ordered_old : c.Ordered old
  ordered_new : c.Ordered new
  behind : ∀ id ∈ old, ∀ b, c.table.view.bare id = some b → c.head ≤ b.entry
  before : ∀ id ∈ new, ∀ b, c.table.view.bare id = some b → b.entry + b.size ≤ c.head

/-- The blocks, the queue and the head are as the passes over the arena leave them. -/
structure Arena (c : CodeCache) : Prop extends c.Directory where
  frame : c.frame.start % alignment = 0
  leave : c.frame.leave < c.frame.start
  whole : c.buffer.capacity % alignment = 0
  host : c.buffer.capacity < 0x8000000000000000
  aligned : c.head % alignment = 0
  low : c.frame.start ≤ c.head
  high : c.head ≤ c.buffer.capacity
  sits : ∀ id b, c.table.view.bare id = some b → Sits c.frame.start c.buffer.capacity b
  inside : ∀ id b, c.table.view.bare id = some b → b.entry + b.size ≤ c.buffer.bytes.size
  passes : ∃ old new, c.Passes old new

namespace Ordered

variable {c c' : CodeCache} {ids : List Nat}

/-- Blocks that are left, or gone, change no order. -/
theorem of_bare (h : c.Ordered ids)
    (left : ∀ id ∈ ids, ∀ b, c'.table.view.bare id = some b → c.table.view.bare id = some b) :
  c'.Ordered ids
  := by
  refine List.Pairwise.imp_of_mem ?_ h
  intro i j hi hj hij a b ha hb
  exact hij a b (left i hi a ha) (left j hj b hb)

/-- What is before the first block of a list is before all. -/
theorem le_of_le_first {id : Nat} {rest : List Nat} {first : Compiled} {n : Nat}
    (h : c.Ordered (id :: rest)) (hfirst : c.table.view.bare id = some first)
    (hn : n ≤ first.entry) {j : Nat} (hj : j ∈ id :: rest) {b : Compiled}
    (hb : c.table.view.bare j = some b) :
  n ≤ b.entry
  := by
  obtain rfl | hj := List.mem_cons.mp hj
  · cases hfirst.symm.trans hb
    exact hn
  · have := (List.pairwise_cons.mp h).1 j hj first b hfirst hb
    omega

end Ordered

/-- Blocks of the passes are apart. -/
theorem Arena.apart {c : CodeCache} (arena : c.Arena) {i j : Nat} {a b : Compiled} (hij : i ≠ j)
    (ha : c.table.view.bare i = some a) (hb : c.table.view.bare j = some b) :
  a.entry + a.size ≤ b.entry ∨ b.entry + b.size ≤ a.entry
  := by
  obtain ⟨old, new, passes⟩ := arena.passes
  have hpairwise : c.queue.Pairwise fun i j => ∀ a b, c.table.view.bare i = some a →
      c.table.view.bare j = some b → a.entry + a.size ≤ b.entry ∨ b.entry + b.size ≤ a.entry := by
    rw [passes.queue]
    refine List.pairwise_append.mpr ⟨?_, ?_, ?_⟩
    · exact passes.ordered_old.imp fun h a b ha hb => .inl (h a b ha hb)
    · exact passes.ordered_new.imp fun h a b ha hb => .inl (h a b ha hb)
    · intro i hi j hj a b ha hb
      exact .inr ((passes.before j hj b hb).trans (passes.behind i hi a ha))
  have hsymm : Std.Symm fun i j => ∀ a b, c.table.view.bare i = some a →
      c.table.view.bare j = some b → a.entry + a.size ≤ b.entry ∨ b.entry + b.size ≤ a.entry :=
    ⟨fun _ _ h a b ha hb => (h b a hb ha).symm⟩
  have hmem (k : Nat) (d : Compiled) (hd : c.table.view.bare k = some d) : k ∈ c.queue := by
    rw [arena.mem_queue, hd]
    rfl
  exact hpairwise.forall (hmem i a ha) (hmem j b hb) hij a b ha hb

/-- Eviction leaves the others in their order. -/
theorem EvictsAll.arena {gone : List Nat} {c c' : CodeCache} (h : EvictsAll gone c c')
    (arena : c.Arena) :
  c'.Arena
  := by
  have hleft (id : Nat) (b : Compiled) (hb : c'.table.view.bare id = some b) := h.left hb
  obtain ⟨old, new, passes⟩ := arena.passes
  refine ⟨h.directory arena.toDirectory, ?_, ?_, ?_, ?_, ?_, ?_, ?_, fun id b hb => ?_,
    fun id b hb => (arena.inside id b (hleft id b hb)).trans h.grows, ?_⟩
  · rw [h.frame]
    exact arena.frame
  · rw [h.frame]
    exact arena.leave
  · rw [h.capacity]
    exact arena.whole
  · rw [h.capacity]
    exact arena.host
  · rw [h.head]
    exact arena.aligned
  · rw [h.frame, h.head]
    exact arena.low
  · rw [h.head, h.capacity]
    exact arena.high
  · rw [h.frame, h.capacity]
    exact arena.sits id b (hleft id b hb)
  · refine ⟨old.filter fun id => id ∉ gone, new.filter fun id => id ∉ gone, ?_, ?_, ?_,
      fun id hid b hb => ?_, fun id hid b hb => ?_⟩
    · rw [h.queue, passes.queue, List.filter_append]
    · have hordered : c.Ordered (old.filter fun id => id ∉ gone) := passes.ordered_old.filter _
      exact hordered.of_bare fun id _ => hleft id
    · have hordered : c.Ordered (new.filter fun id => id ∉ gone) := passes.ordered_new.filter _
      exact hordered.of_bare fun id _ => hleft id
    · rw [h.head]
      exact passes.behind id (List.mem_of_mem_filter hid) b (hleft id b hb)
    · rw [h.head]
      exact passes.before id (List.mem_of_mem_filter hid) b (hleft id b hb)

/-! ### Room for a block -/

theorem overlapsHost_eq {c : CodeCache} {b : Compiled} (h : Sits c.frame.start c.buffer.capacity b)
    (host : c.buffer.capacity < 0x8000000000000000) (start stop : Nat) :
  b.overlapsHost start stop = .ok (decide (b.entry < stop ∧ start < b.entry + b.size))
  := by
  have hhigh := h.high
  have hsum : Size.sum b.entry b.size = .ok (b.entry + b.size) := by
    apply if_pos
    rw [Word.count]
    omega
  unfold Compiled.overlapsHost
  by_cases hentry : b.entry < stop
  · rw [if_pos hentry, hsum]
    simp [hentry]
  · rw [if_neg hentry, decide_eq_false fun h => hentry h.1]
    rfl

/-- A block that is not in the way is before the place of the new one or behind it, and at the front
again it is before the head. -/
theorem inTheWay_eq_false {c : CodeCache} {b : Compiled} {need : Nat}
    (h : Sits c.frame.start c.buffer.capacity b) (host : c.buffer.capacity < 0x8000000000000000)
    (free : c.inTheWay need b = .ok false) :
  (c.wraps need → b.entry < c.head) ∧
    (c.startFor need + need ≤ b.entry ∨ b.entry + b.size ≤ c.startFor need)
  := by
  unfold inTheWay at free
  by_cases hway : c.wraps need ∧ c.head ≤ b.entry
  · rw [if_pos hway] at free
    cases free
  · rw [if_neg hway, overlapsHost_eq h host] at free
    simp only [Except.ok.injEq, decide_eq_false_iff_not] at free
    constructor
    · intro hwraps
      by_contra hge
      exact hway ⟨hwraps, Nat.le_of_not_lt hge⟩
    · omega

/-- What is left of the queue is on either side of the place of the new block. -/
theorem sides_of_kept {c : CodeCache} {need : Nat} (arena : c.Arena) {gone kept : List Nat}
    (split : c.queue = gone ++ kept)
    (first : ∀ id rest b, kept = id :: rest → c.table.view.bare id = some b →
      c.inTheWay need b = .ok false) :
  ∃ old new, kept = old ++ new ∧ c.Ordered old ∧ c.Ordered new ∧
    (∀ id ∈ old, ∀ b, c.table.view.bare id = some b → c.startFor need + need ≤ b.entry) ∧
    ∀ id ∈ new, ∀ b, c.table.view.bare id = some b → b.entry + b.size ≤ c.startFor need
  := by
  obtain ⟨old, new, passes⟩ := arena.passes
  -- Blocks of one pass are behind the place if they are not before it, as the first one is not in
  -- the way.
  have hbehind {ids others : List Nat} (hkept : kept = ids ++ others) (hordered : c.Ordered ids)
      (hlow : ∀ id ∈ ids, ∀ b, c.table.view.bare id = some b → c.startFor need ≤ b.entry) :
      ∀ id ∈ ids, ∀ b, c.table.view.bare id = some b → c.startFor need + need ≤ b.entry := by
    intro j hj b hb
    cases ids with
    | nil => cases hj
    | cons id rest =>
      have hmem : id ∈ c.queue := by
        rw [split, hkept]
        simp
      obtain ⟨a, ha⟩ := Option.isSome_iff_exists.mp ((arena.mem_queue id).mp hmem)
      have hsits := arena.sits id a ha
      have hside := (inTheWay_eq_false hsits arena.host (first id _ a hkept ha)).2
      have hpos := hsits.pos
      have hstart := hlow id List.mem_cons_self a ha
      exact hordered.le_of_le_first ha (by omega) hj hb
  have hsplit := List.append_eq_append_iff.mp (split.symm.trans passes.queue)
  by_cases hwraps : c.wraps need
  · -- Nothing of the previous pass is left.
    have hstart : c.startFor need = c.frame.start := if_pos hwraps
    have hsuffix : ∃ ids, new = ids ++ kept := by
      obtain ⟨ids, hold, hkept⟩ | ⟨ids, -, hnew⟩ := hsplit
      · cases ids with
        | nil => exact ⟨[], hkept.symm⟩
        | cons id rest =>
          have hmem : id ∈ old := by
            rw [hold]
            simp
          obtain ⟨a, ha⟩ := Option.isSome_iff_exists.mp
            ((arena.mem_queue id).mp (passes.queue ▸ List.mem_append_left _ hmem))
          have hbefore :=
            (inTheWay_eq_false (arena.sits id a ha) arena.host (first id _ a hkept ha)).1 hwraps
          have := passes.behind id hmem a ha
          omega
      · exact ⟨ids, hnew⟩
    obtain ⟨ids, hnew⟩ := hsuffix
    have hordered : c.Ordered kept := by
      have h := passes.ordered_new
      rw [hnew] at h
      exact (List.pairwise_append.mp h).2.1
    refine ⟨kept, [], (List.append_nil _).symm, hordered, List.Pairwise.nil, ?_, ?_⟩
    · apply hbehind (List.append_nil _).symm hordered
      intro id _ b hb
      rw [hstart]
      exact (arena.sits id b hb).low
    · intro id hid
      cases hid
  · have hstart : c.startFor need = c.head := if_neg hwraps
    obtain ⟨ids, hold, hkept⟩ | ⟨ids, -, hnew⟩ := hsplit
    · have hordered : c.Ordered ids := by
        have h := passes.ordered_old
        rw [hold] at h
        exact (List.pairwise_append.mp h).2.1
      refine ⟨ids, new, hkept, hordered, passes.ordered_new, ?_, ?_⟩
      · apply hbehind hkept hordered
        intro id hid
        rw [hstart]
        apply passes.behind id
        rw [hold]
        exact List.mem_append_right _ hid
      · rw [hstart]
        exact passes.before
    · have h := passes.ordered_new
      rw [hnew] at h
      refine ⟨[], kept, rfl, List.Pairwise.nil, (List.pairwise_append.mp h).2.1, ?_, ?_⟩
      · intro id hid
        cases hid
      · intro id hid
        rw [hstart]
        apply passes.before id
        rw [hnew]
        exact List.mem_append_right _ hid

/-- Room was made for `need` bytes: the oldest blocks are gone, and the others are on either side. -/
structure MakesRoom (need : Nat) (c c₁ : CodeCache) (gone old new : List Nat) : Prop
    extends EvictsAll gone c c₁ where
  split : c.queue = gone ++ (old ++ new)
  ordered_old : c₁.Ordered old
  ordered_new : c₁.Ordered new
  behind : ∀ id ∈ old, ∀ b, c₁.table.view.bare id = some b → c.startFor need + need ≤ b.entry
  before : ∀ id ∈ new, ∀ b, c₁.table.view.bare id = some b →
    b.entry + b.size ≤ c.startFor need

theorem Buffer.beginWrite_eq_ok {b b' : Buffer} (h : b.beginWrite = .ok b') :
  b.mode = .execute ∧ b' = { b with mode := .write, limit := b.capacity }
  := by
  unfold Buffer.beginWrite at h
  split at h
  case isTrue hmode => exact ⟨hmode, (Except.ok.inj h).symm⟩
  case isFalse => cases h

theorem makeRoom_meets {c : CodeCache} (arena : c.Arena) (need : Nat) :
  Meets False (c.makeRoom need) fun c₁ => ∃ gone old new, MakesRoom need c c₁ gone old new
  := by
  refine (Meets.self False.elim).bind fun buffer hbuffer => ?_
  have hblind (b : Compiled) : c.inTheWay need b = c.inTheWay need b.bare := rfl
  refine (evictOldest_evicts (c := { c with buffer }) hblind rfl arena.nodup).imp ?_
  rintro c₁ ⟨gone, kept, hsplit, h, -, hfirst⟩
  obtain ⟨-, rfl⟩ := Buffer.beginWrite_eq_ok hbuffer
  obtain ⟨old, new, rfl, hold, hnew, hbehind, hbefore⟩ := sides_of_kept arena hsplit hfirst
  have hevicts : EvictsAll gone c c₁ :=
    ⟨⟨h.frame, h.services, h.eviction, h.capacity⟩, h.nodup, h.live, h.bare, h.size, h.head, h.queue,
      h.free, h.grows, h.bytes⟩
  have hleft (id : Nat) (b : Compiled) (hb : c₁.table.view.bare id = some b) :=
    hevicts.left hb
  exact ⟨gone, old, new, hevicts, hsplit, hold.of_bare fun id _ => hleft id,
    hnew.of_bare fun id _ => hleft id, fun id hid b hb => hbehind id hid b (hleft id b hb),
    fun id hid b hb => hbefore id hid b (hleft id b hb)⟩

theorem MakesRoom.queue_eq {need : Nat} {c c₁ : CodeCache} {gone old new : List Nat}
    (h : MakesRoom need c c₁ gone old new) (arena : c.Arena) :
  c₁.queue = old ++ new
  := by
  rw [h.queue, h.split]
  apply filter_not_mem_of_nodup
  rw [← h.split]
  exact arena.nodup

/-- No block has code where room was made. -/
theorem MakesRoom.isClear {need : Nat} {c c₁ : CodeCache} {gone old new : List Nat}
    (h : MakesRoom need c c₁ gone old new) (arena : c.Arena) :
  c₁.isClear (c.startFor need) (c.startFor need + need) = .ok true
  := by
  have harena := h.arena arena
  have hall : ∀ b ∈ c₁.table.blocks.toList.reduceOption,
      b.overlapsHost (c.startFor need) (c.startFor need + need) = .ok false := by
    intro b hb
    obtain ⟨id, hid⟩ := List.mem_iff_getElem?.mp (List.reduceOption_mem_iff.mp hb)
    have hblock : c₁.table.block? id = some b := by
      rw [Table.block?, ← Array.getElem?_toList, hid]
      rfl
    have hbare := Table.bare_of_block? hblock
    have hmem : id ∈ c₁.queue := by
      rw [harena.mem_queue, hbare]
      rfl
    have hsits := harena.sits id b.bare hbare
    refine (overlapsHost_eq hsits harena.host _ _).trans ?_
    rw [decide_eq_false]
    rw [h.queue_eq arena] at hmem
    obtain hid | hid := List.mem_append.mp hmem
    · have := h.behind id hid b.bare hbare
      omega
    · have := h.before id hid b.bare hbare
      omega
  unfold CodeCache.isClear
  generalize c₁.table.blocks.toList.reduceOption = bs at hall ⊢
  induction bs with
  | nil => rfl
  | cons b bs ih =>
    rw [List.foldlM_cons, hall b List.mem_cons_self]
    exact ih fun b' hb' => hall b' (List.mem_cons_of_mem _ hb')

/-- Compiling a block into the cache without a check that there is room where it is placed. -/
def installUnchecked (c : CodeCache) (block : Block) :
    Except Crash (Except CompileError Nat × CodeCache) := do
  if c.Refuses (codeBound block) then return (.error (.outOfCapacity (codeBound block)), c)
  if (c.index.lookup block.pc).isSome then throw (.breach .compiledTwice)
  let c₁ ← c.makeRoom (codeBound block)
  let (id, c₂) ← c₁.place block (c.startFor (codeBound block)) (codeBound block)
  return (.ok id, c₂)

/-- The check never fails. -/
theorem install_eq_installUnchecked {c : CodeCache} (arena : c.Arena) (block : Block) :
  c.install block = c.installUnchecked block
  := by
  rw [install_eq]
  unfold installUnchecked
  split
  · rfl
  · split
    · rfl
    · cases hroom : c.makeRoom (codeBound block) with
      | error crash => rfl
      | ok c₁ =>
        obtain ⟨gone, old, new, makes⟩ := (makeRoom_meets arena _).post_of_eq hroom
        rw [Except.ok_bind, Except.ok_bind]
        dsimp only
        rw [makes.isClear arena]
        rfl

/-- Where room was made, there is room. -/
theorem startFor_le {c : CodeCache} {need : Nat} (arena : c.Arena) (room : ¬c.Refuses need) :
  c.startFor need % alignment = 0 ∧ c.frame.start ≤ c.startFor need ∧
    c.startFor need + need ≤ c.buffer.capacity
  := by
  obtain ⟨hneed, -⟩ := not_or.mp room
  have hlow := arena.low
  have hhigh := arena.high
  unfold startFor
  by_cases hwraps : c.wraps need
  · rw [if_pos hwraps]
    refine ⟨arena.frame, Nat.le_refl _, ?_⟩
    omega
  · rw [if_neg hwraps]
    refine ⟨arena.aligned, hlow, ?_⟩
    simp only [wraps, decide_eq_true_eq] at hwraps
    omega

/-! ### A new block -/

theorem roundUp_alignment (n : Nat) :
  Size.roundUp n alignment % alignment = 0 ∧ n ≤ Size.roundUp n alignment ∧
    ∀ m, m % alignment = 0 → n ≤ m → Size.roundUp n alignment ≤ m
  := by
  simp only [Size.roundUp, alignment]
  refine ⟨by omega, by omega, fun m hm hn => by omega⟩

/-- A block that was placed between the others is the last one of the current pass. -/
theorem Places.arena {b : Compiled} {c c' : CodeCache} {id : Nat} (h : Places b c id c')
    (arena : c.Arena) (hsits : Sits c.frame.start c.buffer.capacity b) {old new : List Nat}
    (split : c.queue = old ++ new) (ordered_old : c.Ordered old) (ordered_new : c.Ordered new)
    (behind : ∀ j ∈ old, ∀ a, c.table.view.bare j = some a → b.entry + b.size ≤ a.entry)
    (before : ∀ j ∈ new, ∀ a, c.table.view.bare j = some a → a.entry + a.size ≤ b.entry) :
  c'.Arena
  := by
  obtain ⟨haligned, hle, hleast⟩ := roundUp_alignment (b.entry + b.size)
  rw [← h.head] at haligned hle hleast
  have hlow := hsits.low
  have hnew (j : Nat) (a : Compiled) (ha : c'.table.view.bare j = some a) :
      (j = id ∧ a = b) ∨ c.table.view.bare j = some a := by
    rw [h.bare, Function.update_apply] at ha
    split at ha
    case isTrue hj => exact .inl ⟨hj, (Option.some.inj ha).symm⟩
    case isFalse => exact .inr ha
  have hqueue {j : Nat} (hj : j ∈ c.queue) (a : Compiled) (ha : c'.table.view.bare j = some a) :
      c.table.view.bare j = some a := by
    obtain ⟨rfl, -⟩ | ha := hnew j a ha
    · rw [arena.mem_queue, h.fresh] at hj
      cases hj
    · exact ha
  have hold (j : Nat) (hj : j ∈ old) := hqueue (split ▸ List.mem_append_left _ hj)
  have hcurrent (j : Nat) (hj : j ∈ new) := hqueue (split ▸ List.mem_append_right _ hj)
  refine ⟨h.directory arena.toDirectory, ?_, ?_, ?_, ?_, haligned, ?_, ?_, fun j a ha => ?_,
    fun j a ha => ?_, ?_⟩
  · rw [h.frame]
    exact arena.frame
  · rw [h.frame]
    exact arena.leave
  · rw [h.capacity]
    exact arena.whole
  · rw [h.capacity]
    exact arena.host
  · rw [h.frame]
    omega
  · rw [h.capacity]
    exact hleast _ arena.whole hsits.high
  · rw [h.frame, h.capacity]
    obtain ⟨-, rfl⟩ | ha := hnew j a ha
    · exact hsits
    · exact arena.sits j a ha
  · obtain ⟨-, rfl⟩ | ha := hnew j a ha
    · exact h.inside
    · exact (arena.inside j a ha).trans h.grows
  · refine ⟨old, new ++ [id], ?_, ordered_old.of_bare hold, ?_, fun j hj a ha => ?_,
      fun j hj a ha => ?_⟩
    · rw [h.queue, split, List.append_assoc]
    · refine List.pairwise_append.mpr ⟨ordered_new.of_bare hcurrent, List.pairwise_singleton _ _, ?_⟩
      intro i hi j hj a a' ha ha'
      obtain rfl := List.mem_singleton.mp hj
      rw [h.bare, Function.update_self] at ha'
      cases ha'
      exact before i hi a (hcurrent i hi a ha)
    · have ha := hold j hj a ha
      exact hleast _ (arena.sits j a ha).aligned (behind j hj a ha)
    · obtain hj | hj := List.mem_append.mp hj
      · have := before j hj a (hcurrent j hj a ha)
        omega
      · rw [List.mem_singleton.mp hj, h.bare, Function.update_self] at ha
        cases ha
        exact hle

theorem Written.sits {c : CodeCache} {block : Block} {start need : Nat} {sites : List Site}
    {b : Buffer} {d : Draft} (h : Written c block start need sites b d)
    (aligned : start % alignment = 0) (low : c.frame.start ≤ start) :
  Sits c.frame.start c.buffer.capacity (.ofBlock block start (Item.stop start d.code) sites)
  := by
  have hpos := h.pos
  have hfits := h.fits
  have hroom := h.room
  have hsize : start + (Item.stop start d.code - start) = Item.stop start d.code := by omega
  refine ⟨aligned, low, Nat.sub_pos_of_lt hpos, ?_, fun x hx => ?_⟩
  · exact hsize.trans_le (hfits.trans hroom)
  · obtain ⟨hlow, hhigh⟩ := h.sites_within hx
    exact ⟨hlow, hhigh.trans_eq hsize.symm⟩

/-! ### The operations -/

/-- What an installation does: it is refused, or the block is placed where room was made for it. -/
inductive Installs (block : Block) (c : CodeCache) : Except CompileError Nat × CodeCache → Prop
  | refused (refuses : c.Refuses (codeBound block)) :
    Installs block c (.error (.outOfCapacity (codeBound block)), c)
  | placed {c₁ c' : CodeCache} {id : Nat} {gone old new : List Nat} {sites : List Site} {b : Buffer}
      {d : Draft} (room : ¬c.Refuses (codeBound block)) (absent : c.index.lookup block.pc = none)
      (makes : MakesRoom (codeBound block) c c₁ gone old new)
      (written : Written c₁ block (c.startFor (codeBound block)) (codeBound block) sites b d)
      (places : Places (.ofBlock block (c.startFor (codeBound block))
        (Item.stop (c.startFor (codeBound block)) d.code) sites) c₁ id c') :
    Installs block c (.ok id, c')

theorem install_installs {c : CodeCache} (arena : c.Arena) (block : Block) :
  Meets False (c.install block) (Installs block c)
  := by
  rw [install_eq]
  split
  case isTrue hrefuses => exact .ok (.refused hrefuses)
  case isFalse hroom =>
    split
    case isTrue => exact not_false
    case isFalse habsent =>
      refine (makeRoom_meets arena _).bind ?_
      rintro c₁ ⟨gone, old, new, makes⟩
      dsimp only
      rw [makes.isClear arena, Except.ok_bind, place_eq]
      simp only [Bool.not_true, Bool.false_eq_true, if_false, bind_assoc]
      refine (write_meets False.elim False.elim False.elim False.elim).bind ?_
      rintro ⟨sites, b⟩ ⟨d, written⟩
      refine (settle_places (makes.arena arena).toDirectory written).bind ?_
      rintro ⟨id, c'⟩ places
      exact .ok (.placed hroom (Option.not_isSome_iff_eq_none.mp habsent) makes written places)

/-- What no operation changes: the code in front of the blocks, and all that is fixed. -/
structure Guards (c c' : CodeCache) : Prop extends Steady c c' where
  code : ∀ i < c.frame.start, Bytes.at0 c'.buffer.bytes i = Bytes.at0 c.buffer.bytes i

theorem Guards.trans {c c₁ c' : CodeCache} (h : Guards c c₁) (h' : Guards c₁ c') :
  Guards c c'
  := by
  refine ⟨h.toSteady.trans h'.toSteady, fun i hi => ?_⟩
  rw [h'.code i (by rw [h.frame]; exact hi), h.code i hi]

/-- Links are written behind the code in front of the blocks. -/
theorem Arena.start_le_of_isLinkByte {c : CodeCache} (arena : c.Arena) {i : Nat}
    (h : c.IsLinkByte i) :
  c.frame.start ≤ i
  := by
  obtain ⟨id, b, hb, x, hx, hlow, -⟩ := h
  have hsits := arena.sits id b hb
  have hstart := hsits.low
  obtain ⟨hjump, -⟩ := hsits.jumps x hx
  omega

theorem EvictsAll.guards {gone : List Nat} {c c' : CodeCache} (h : EvictsAll gone c c')
    (arena : c.Arena) :
  Guards c c'
  := by
  refine ⟨h.toSteady, fun i hi => h.bytes i fun hlink => ?_⟩
  have := arena.start_le_of_isLinkByte hlink
  omega

theorem Places.guards {b : Compiled} {c c' : CodeCache} {id : Nat} (h : Places b c id c')
    (arena : c.Arena) (hsits : Sits c.frame.start c.buffer.capacity b) :
  Guards c c'
  := by
  refine ⟨h.toSteady, fun i hi => h.bytes i (fun hlink => ?_) fun hin => ?_⟩
  · have := arena.start_le_of_isLinkByte hlink
    omega
  · have := hsits.low
    omega

theorem Installs.keeps {block : Block} {c : CodeCache} {r : Except CompileError Nat × CodeCache}
    (h : Installs block c r) (arena : c.Arena) :
  r.2.Arena ∧ Guards c r.2
  := by
  cases h with
  | refused => exact ⟨arena, .refl c, fun _ _ => rfl⟩
  | @placed c₁ c' id gone old new sites b d room absent makes written places =>
    obtain ⟨haligned, hlow, hfits⟩ := startFor_le arena room
    have harena := makes.arena arena
    rw [← makes.frame] at hlow
    have hsits := written.sits haligned hlow
    have hstop := written.fits
    have hsize : c.startFor (codeBound block) + (Item.stop (c.startFor (codeBound block)) d.code -
        c.startFor (codeBound block)) = Item.stop (c.startFor (codeBound block)) d.code := by
      have := written.pos
      omega
    refine ⟨?_, (makes.guards arena).trans (places.guards harena hsits)⟩
    apply places.arena harena hsits (makes.queue_eq arena) makes.ordered_old makes.ordered_new
    · intro j hj a ha
      exact hsize.trans_le (hstop.trans (makes.behind j hj a ha))
    · exact makes.before

theorem lookup_evicts (c : CodeCache) (pc : Word) :
  EvictsAll [] c (c.lookup pc).2
  := by
  unfold lookup
  split
  · exact .nil c
  · split
    · refine ⟨⟨rfl, rfl, rfl, rfl⟩, List.nodup_nil, fun _ h => (nomatch h), fun _ => rfl, rfl, rfl, ?_,
        rfl, Nat.le_refl _, fun _ _ => rfl⟩
      simp
    · exact .nil c

theorem invalidate_evicts (c : CodeCache) (start len : Word) :
  Meets False (c.invalidate start len) fun r =>
    EvictsAll ((c.blocks.filter fun p => p.2.overlapsGuest start len).map (·.1)) c r.2
  := by
  unfold invalidate
  dsimp only
  generalize (c.blocks.filter fun p => p.2.overlapsGuest start len).map (·.1) = victims
  split
  case isTrue hempty =>
    rw [List.isEmpty_iff.mp hempty]
    exact .ok (.nil c)
  case isFalse =>
    refine (Meets.self False.elim).bind fun buffer hbuffer => ?_
    obtain ⟨-, rfl⟩ := Buffer.beginWrite_eq_ok hbuffer
    refine (evictAll_evicts victims _).bind fun c' h => ?_
    exact .ok ⟨⟨h.frame, h.services, h.eviction, h.capacity⟩, h.nodup, h.live, h.bare, h.size, h.head,
      h.queue, h.free, h.grows, h.bytes⟩

/-- An empty cache whose blocks have room between two multiples of the alignment. -/
theorem Arena.of_empty {c : CodeCache} (table : ∀ id, c.table.view.bare id = none)
    (queue : c.queue = []) (free : c.free = []) (head : c.head = c.frame.start)
    (frame : c.frame.start % alignment = 0) (leave : c.frame.leave < c.frame.start)
    (whole : c.buffer.capacity % alignment = 0) (host : c.buffer.capacity < 0x8000000000000000)
    (fits : c.frame.start ≤ c.buffer.capacity) :
  c.Arena
  := by
  refine ⟨⟨?_, fun id => ?_, ?_, ?_⟩, frame, leave, whole, host, ?_, head.ge, head.trans_le fits,
    fun id b hb => ?_, fun id b hb => ?_, [], [], queue, .nil, .nil, fun id hid => (nomatch hid),
    fun id hid => (nomatch hid)⟩
  · rw [queue]
    exact List.nodup_nil
  · rw [queue, table]
    simp
  · rw [free]
    exact List.nodup_nil
  · rw [free]
    intro id hid
    cases hid
  · rw [head]
    exact frame
  · rw [table] at hb
    cases hb
  · rw [table] at hb
    cases hb

theorem Arena.flush {c : CodeCache} (arena : c.Arena) :
  c.flush.Arena
  := by
  refine .of_empty (fun id => ?_) rfl rfl rfl arena.frame arena.leave arena.whole arena.host
    (arena.low.trans arena.high)
  simp [CodeCache.flush, Table.view, Table.block?]

/-! ### New caches -/

/-- The code around all blocks is in front of them. -/
structure Framed (c : CodeCache) : Prop where
  entry : Bytes.Has c.buffer.bytes c.frame.entry (Instr.encodeAll Frame.entryCode)
  leave : Bytes.Has c.buffer.bytes c.frame.leave (Instr.encodeAll Frame.leaveCode)
  entry_le : c.frame.entry + (Instr.encodeAll Frame.entryCode).length ≤ c.frame.start
  leave_le : c.frame.leave + (Instr.encodeAll Frame.leaveCode).length ≤ c.frame.start

theorem Guards.framed {c c' : CodeCache} (h : Guards c c') (framed : c.Framed) :
  c'.Framed
  := by
  obtain ⟨hentry, hleave, hentryle, hleavele⟩ := framed
  rw [← h.frame] at hentry hleave hentryle hleavele
  have hcode := h.code
  rw [← h.frame] at hcode
  refine ⟨hentry.congr fun i _ hi => ?_, hleave.congr fun i _ hi => ?_, hentryle, hleavele⟩
  · exact hcode i (by omega)
  · exact hcode i (by omega)

/-- Bytes were written at the offset of a buffer. -/
structure Appends (b : Buffer) (new : List UInt8) (b' : Buffer) : Prop where
  capacity : b'.capacity = b.capacity
  limit : b'.limit = b.limit
  offset : b'.offset = b.offset + new.length
  fits : b.offset + new.length ≤ b.limit
  has : Bytes.Has b'.bytes b.offset new
  same : ∀ i < b.offset, Bytes.at0 b'.bytes i = Bytes.at0 b.bytes i

theorem emitAll_appends {safe : Prop} {b : Buffer} {is : List Instr}
    (room : safe → b.offset + (Instr.encodeAll is).length ≤ b.limit) :
  Meets safe (b.emitAll is) (Appends b (Instr.encodeAll is))
  := by
  unfold Buffer.emitAll Buffer.emit
  split
  case isTrue hle =>
    refine .ok ⟨Buffer.capacity_overwrite _ _ _, Buffer.limit_overwrite _ _ _,
      Buffer.offset_overwrite _ _ _, hle, Buffer.has_overwrite _ _ _, fun i hi => ?_⟩
    rw [Buffer.at0_overwrite, if_neg]
    omega
  case isFalse hgt => exact fun hsafe => hgt (room hsafe)

/-- A buffer is created exactly if the platform affords it, unless its size is no size in whole pages. -/
theorem Buffer.create_meets {safe : Prop} {size : Nat} {platform : Platform}
    {x : Except Crash (Option Buffer)} (hx : Buffer.create size platform = x)
    (small : safe → max size 1 + 4095 < Word.count) :
  Meets safe x fun r => (r.isSome ↔ platform.Affords size) ∧ ∀ b, r = some b →
    b.capacity = Size.roundUp (max size 1) Buffer.hostPageSize ∧ b.offset = 0 ∧
      b.mode = .execute ∧ b.capacity < 0x8000000000000000
  := by
  have hpage : Buffer.hostPageSize = 4096 := rfl
  rw [← hx, Platform.Affords, hpage]
  unfold Buffer.create
  rw [hpage]
  -- The numeral is hidden, as unification would unfold it.
  generalize hcapacity : 4096 = page
  refine (Meets.self (x := Size.sum _ _) fun hsafe => ?_).bind fun padded hpadded => ?_
  · have := small hsafe
    refine ⟨_, if_pos ?_⟩
    omega
  obtain rfl : padded = max size 1 + (page - 1) := by
    unfold Size.sum Size.exact at hpadded
    split at hpadded
    · exact (Except.ok.inj hpadded).symm
    · cases hpadded
  have hround : (max size 1 + (page - 1)) / page * page = Size.roundUp (max size 1) page := by
    subst hcapacity
    rfl
  rw [hround]
  dsimp only
  by_cases hgrants : platform.grants (Size.roundUp (max size 1) page) = true
  · rw [if_pos hgrants]
    refine .ok ⟨iff_of_true rfl hgrants, fun b hb => ?_⟩
    obtain rfl := (Option.some.inj hb).symm
    exact ⟨rfl, rfl, rfl, platform.bounded _ hgrants⟩
  · rw [if_neg hgrants]
    exact .ok ⟨iff_of_false nofun hgrants, nofun⟩

/-- The code around all blocks was written from the front of a buffer on. -/
structure EmitsFrame (b : Buffer) (f : Frame) (b' : Buffer) : Prop where
  capacity : b'.capacity = b.capacity
  has_entry : Bytes.Has b'.bytes f.entry (Instr.encodeAll Frame.entryCode)
  has_leave : Bytes.Has b'.bytes f.leave (Instr.encodeAll Frame.leaveCode)
  entry : f.entry = b.offset
  leave : f.leave = b.offset + (Instr.encodeAll Frame.entryCode).length
  start : f.start = Size.roundUp (f.leave + (Instr.encodeAll Frame.leaveCode).length) alignment
  fits : f.leave + (Instr.encodeAll Frame.leaveCode).length ≤ b.limit

theorem emitFrame_meets {safe : Prop} {b : Buffer}
    (room : safe → b.offset + (Instr.encodeAll Frame.entryCode).length +
      (Instr.encodeAll Frame.leaveCode).length ≤ b.limit) :
  Meets safe (Frame.emit b) fun r => EmitsFrame b r.1 r.2
  := by
  unfold Frame.emit Frame.emitEntry Frame.emitLeave
  simp only [bind_assoc]
  refine (emitAll_appends fun hsafe => ?_).bind fun b₁ h₁ => ?_
  · have := room hsafe
    omega
  refine (emitAll_appends fun hsafe => ?_).bind fun b₂ h₂ => ?_
  · change b₁.offset + _ ≤ b₁.limit
    rw [h₁.offset, h₁.limit]
    exact room hsafe
  refine .ok ⟨h₂.capacity.trans h₁.capacity, ?_, h₂.has, rfl, h₁.offset, ?_, ?_⟩
  · refine h₁.has.congr fun i _ hi => h₂.same i ?_
    exact hi.trans_eq h₁.offset.symm
  · exact congrArg (Size.roundUp · alignment) h₂.offset
  · exact h₂.fits.trans_eq h₁.limit

/-- Nothing is in a new cache but the code around all blocks. -/
structure Created (size : Nat) (eviction : Eviction) (services : Services) (c : CodeCache) : Prop where
  eviction : c.eviction = eviction
  services : c.services = services
  frame : c.frame = ⟨0, 22, 48⟩
  head : c.head = 48
  capacity : c.buffer.capacity = Size.roundUp (max size 1) Buffer.hostPageSize
  mode : c.buffer.mode = .execute
  table : c.table = {}
  index : c.index = []
  jumpCache : c.jumpCache = {}
  arena : c.Arena
  framed : c.Framed

theorem create_meets {safe : Prop} {size : Nat} {eviction : Eviction} {services : Services}
    {platform : Platform} {x : Except Crash (Option CodeCache)}
    (hx : create size eviction services platform = x)
    (small : safe → max size 1 + 4095 < Word.count) :
  Meets safe x fun r => (r.isSome ↔ platform.Affords size) ∧ ∀ c, r = some c →
    Created size eviction services c
  := by
  unfold create at hx
  generalize hbuffer : Buffer.create size platform = y at hx
  rw [← hx]
  refine (Buffer.create_meets hbuffer small).bind fun r hr => ?_
  cases r with
  | none => exact .ok ⟨hr.1, fun c hc => (nomatch hc)⟩
  | some b =>
    obtain ⟨hcapacity, hoffset, hmode, hhost⟩ := hr.2 b rfl
    have hentry : (Instr.encodeAll Frame.entryCode).length = 22 := by decide
    have hleave : (Instr.encodeAll Frame.leaveCode).length = 18 := by decide
    have hpage : Size.roundUp (max size 1) Buffer.hostPageSize = (max size 1 + 4095) / 4096 * 4096 := by
      simp only [Size.roundUp]
      rfl
    refine (Meets.self fun _ => ⟨_, if_pos hmode⟩).bind fun b₁ hb₁ => ?_
    obtain ⟨-, rfl⟩ := Buffer.beginWrite_eq_ok hb₁
    refine (emitFrame_meets fun _ => ?_).bind ?_
    · change b.offset + _ + _ ≤ b.capacity
      rw [hentry, hleave, hoffset, hcapacity, hpage]
      omega
    · rintro ⟨f, b'⟩ h
      obtain ⟨hcapacity', hhas, hhas', hentryat, hleaveat, hstart, hfits⟩ := h
      dsimp only at hcapacity' hhas hhas' hentryat hleaveat hstart hfits
      rw [hoffset] at hentryat hleaveat
      rw [hentry, Nat.zero_add] at hleaveat
      rw [hleave, hleaveat] at hstart hfits
      have hframe : f = ⟨0, 22, 48⟩ := by
        obtain ⟨_, _, _⟩ := f
        cases hentryat
        cases hleaveat
        cases hstart
        rfl
      have hwhole : b.capacity % alignment = 0 := by
        rw [hcapacity, hpage, alignment]
        omega
      have hfits : 48 ≤ b.capacity := by
        rw [hcapacity, hpage]
        omega
      rw [← hcapacity'] at hwhole hhost hfits
      refine .ok ⟨iff_of_true rfl (hr.1.mp rfl), fun c hc => ?_⟩
      obtain rfl := (Option.some.inj hc).symm
      subst hframe
      refine ⟨rfl, rfl, rfl, rfl, hcapacity'.trans hcapacity, rfl, rfl, rfl, rfl, ?_, hhas, hhas', ?_,
        ?_⟩
      · refine Arena.of_empty (fun id => ?_) rfl rfl rfl (by decide : 48 % alignment = 0)
          (by decide : 22 < 48) hwhole hhost hfits
        simp [Table.view, Table.block?]
      · rw [hentry]
        exact (by decide : 0 + 22 ≤ 48)
      · rw [hleave]
        exact (by decide : 22 + 18 ≤ 48)

end CrossHart.CodeCache
