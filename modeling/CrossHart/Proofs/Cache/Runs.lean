import CrossHart.Proofs.Cache.Links
import CrossHart.Proofs.Host.Reservation

/-!
# Runs of the code cache

What holds of a new cache and is kept by each operation holds of every cache that operations lead to.
-/

namespace CrossHart.CodeCache

open Cache Host

variable {P : Block → Prop} {c c' : CodeCache}

/-- The cache is between two operations, and all is as it should be.  The blocks of the guest in it
satisfy `P`. -/
structure Intact (P : Block → Prop) (c : CodeCache) : Prop where
  arena : c.Arena
  linked : c.Linked P
  low : c.buffer.capacity ≤ 0x80000000
  mode : c.buffer.mode = .execute

/-- Another predicate of the blocks whose code is there. -/
theorem Intact.imp_of_codes {Q : Block → Prop} (intact : c.Intact P)
    (himp : ∀ id b block d, c.table.view.bare id = some b → Codes c.services b block d → P block →
      Q block) :
  c.Intact Q
  := by
  obtain ⟨arena, ⟨graph, index, jumps, waiting, coded⟩, low, mode⟩ := intact
  refine ⟨arena, ⟨graph, index, jumps, waiting, fun id b hb => ?_⟩, low, mode⟩
  obtain ⟨block, d, hP, codes, stands⟩ := coded id b hb
  exact ⟨block, d, himp id b block d hb codes hP, codes, stands⟩

/-- Another predicate of the blocks that are live. -/
theorem Intact.imp {Q : Block → Prop} (intact : c.Intact P)
    (himp : ∀ id b block, c.table.view.bare id = some b → b.pc = block.pc → b.endPc = block.endPc →
      b.count = block.count → P block → Q block) :
  c.Intact Q
  := intact.imp_of_codes fun id b block _ hb codes =>
    himp id b block hb codes.pc codes.endPc codes.count

/-! ### Installing -/

/-- What blocks are left when room was made are apart from the new one. -/
theorem MakesRoom.apart {need : Nat} {c₁ : CodeCache} {gone old new : List Nat}
    (h : MakesRoom need c c₁ gone old new) (arena : c.Arena) {stop : Nat}
    (fits : stop ≤ c.startFor need + need) {j : Nat} {a : Compiled}
    (ha : c₁.table.view.bare j = some a) :
  stop ≤ a.entry ∨ a.entry + a.size ≤ c.startFor need
  := by
  have hmem : j ∈ c₁.queue := by
    rw [(h.arena arena).mem_queue, ha]
    rfl
  rw [h.queue_eq arena] at hmem
  obtain hj | hj := List.mem_append.mp hmem
  · exact .inl (fits.trans (h.behind j hj a ha))
  · exact .inr (h.before j hj a ha)

/-- What is absent stays absent when blocks are evicted. -/
theorem Indexes.lookup_eq_none {gone : List Nat} (index : Indexes c.index c.table.view.bare)
    (index' : Indexes c'.index c'.table.view.bare) (h : EvictsAll gone c c') {pc : Word}
    (absent : c.index.lookup pc = none) :
  c'.index.lookup pc = none
  := by
  cases hid : c'.index.lookup pc with
  | none => rfl
  | some id =>
    obtain ⟨b, hb, hpc⟩ := (index' pc id).mp hid
    rw [(index pc id).mpr ⟨b, h.left hb, hpc⟩] at absent
    cases absent

theorem install_intact (intact : c.Intact P) {block : Block} (formed : block.IsFormed)
    (hP : codeBound block ≤ c.buffer.capacity → P block)
    (absent : c.index.lookup block.pc = none) :
  Meets True (c.install block) fun r => r.2.Intact P ∧ Installs block c r
  := by
  have arena := intact.arena
  have hall : Meets True (c.install block) fun r => r.2.Linked P ∧ r.2.buffer.mode = .execute := by
    rw [install_eq]
    split
    case isTrue => exact .ok ⟨intact.linked, intact.mode⟩
    case isFalse hroom =>
      rw [absent, Option.isSome_none, if_neg Bool.false_ne_true]
      obtain ⟨haligned, hstart, hfits⟩ := startFor_le arena hroom
      have hP := hP (Nat.le_trans (Nat.le_add_left _ _) hfits)
      refine ((makeRoom_linked intact.linked arena intact.low intact.mode _).and
        (makeRoom_meets arena _)).bind ?_
      rintro c₁ ⟨hlinked, gone, old, new, makes⟩
      have harena := makes.arena arena
      dsimp only
      rw [makes.isClear arena, Except.ok_bind, place_eq]
      simp only [Bool.not_true, Bool.false_eq_true, if_false, bind_assoc]
      have hlow : c₁.buffer.capacity ≤ 0x80000000 := makes.capacity.trans_le intact.low
      rw [← makes.capacity] at hfits
      rw [← makes.frame] at hstart
      refine (write_meets (fun _ => formed) (fun _ => Nat.le_refl _) (fun _ => hfits)
        fun _ => hlow).bind ?_
      rintro ⟨sites, b⟩ ⟨d, written⟩
      refine (settle_linked hlinked harena.toDirectory written hP
        (Nat.lt_of_lt_of_le harena.leave hstart) (Spread.of_arena harena hlow)
        (written.sits haligned hstart) (fun j a ha => makes.apart arena written.fits ha)
        (intact.linked.index.lookup_eq_none hlinked.index makes.toEvictsAll absent)).bind ?_
      rintro ⟨id, c'⟩ h
      exact .ok h
  refine (hall.and (install_installs arena block)).imp ?_
  rintro r ⟨⟨hlinked, hmode⟩, hinstalls⟩
  obtain ⟨harena, hguards⟩ := hinstalls.keeps arena
  exact ⟨⟨harena, hlinked, hguards.capacity.trans_le intact.low, hmode⟩, hinstalls⟩

/-! ### The other operations -/

/-- Whatever the jump cache holds, the index has the answer. -/
theorem lookup_eq (jumps : ∀ pc id, c.jumpCache.lookup pc = some id → c.index.lookup pc = some id)
    (pc : Word) :
  (c.lookup pc).1 = c.index.lookup pc
  := by
  unfold lookup
  split
  case h_1 id hid => exact (jumps pc id hid).symm
  case h_2 =>
    split
    case h_1 id hid => exact hid.symm
    case h_2 hnone => exact hnone.symm

/-- Looking up a block changes the jump cache only. -/
theorem lookup_snd (c : CodeCache) (pc : Word) :
  (c.lookup pc).2 = { c with jumpCache := (c.lookup pc).2.jumpCache }
  := by
  unfold lookup
  split
  · rfl
  · split <;> rfl

/-- What is in the jump cache after looking up a block is in the index. -/
theorem lookup_jumps
    (jumps : ∀ pc id, c.jumpCache.lookup pc = some id → c.index.lookup pc = some id)
    (pc pc' : Word) (id : Nat) (h : (c.lookup pc).2.jumpCache.lookup pc' = some id) :
  c.index.lookup pc' = some id
  := by
  unfold lookup at h
  split at h
  · exact jumps pc' id h
  · split at h
    case h_1 found hfound =>
      obtain ⟨rfl, rfl⟩ | h := lookup_insert h
      · exact hfound
      · exact jumps pc' id h
    case h_2 => exact jumps pc' id h

theorem lookup_intact (intact : c.Intact P) (pc : Word) :
  (c.lookup pc).2.Intact P
  := by
  have harena := (lookup_evicts c pc).arena intact.arena
  have hjumps := lookup_jumps intact.linked.jumps pc
  obtain ⟨-, linked, hlow, hmode⟩ := intact
  rw [lookup_snd] at harena ⊢
  exact ⟨harena, ⟨linked.graph, linked.index, hjumps, linked.waiting, linked.coded⟩, hlow, hmode⟩

/-- The numbers of the blocks are those of the queue. -/
theorem map_fst_blocks (dir : c.Directory) :
  c.blocks.map (·.1) = c.queue
  := by
  have hlive (id : Nat) (hid : id ∈ c.queue) : ((c.block? id).map (id, ·)).map (·.1) = some id := by
    obtain ⟨b, hb⟩ := Option.isSome_iff_exists.mp ((dir.mem_queue id).mp hid)
    obtain ⟨b', hb', -⟩ := Table.bare_eq_some.mp hb
    rw [block?, hb']
    rfl
  unfold blocks
  rw [List.map_filterMap]
  refine (List.filterMap_congr hlive).trans ?_
  simp

theorem invalidate_intact (intact : c.Intact P) (start len : Word) :
  Meets True (c.invalidate start len) fun r => r.2.Intact P
  := by
  have arena := intact.arena
  have hsublist : ((c.blocks.filter fun p => p.2.overlapsGuest start len).map (·.1)).Sublist
      c.queue := by
    rw [← map_fst_blocks arena.toDirectory]
    exact List.filter_sublist.map _
  have hall : Meets True (c.invalidate start len) fun r =>
      r.2.Linked P ∧ r.2.buffer.mode = .execute := by
    unfold invalidate
    dsimp only
    generalize (c.blocks.filter fun p => p.2.overlapsGuest start len).map (·.1) = victims
      at hsublist ⊢
    split
    case isTrue => exact .ok ⟨intact.linked, intact.mode⟩
    case isFalse =>
      refine (Meets.self fun _ => ⟨_, if_pos intact.mode⟩).bind fun buffer hbuffer => ?_
      have hlinked : ({ c with buffer } : CodeCache).Linked P := by
        obtain ⟨-, rfl⟩ := Buffer.beginWrite_eq_ok hbuffer
        obtain ⟨hgraph, hindex, hjumps, hwaiting, hcoded⟩ := intact.linked
        exact ⟨hgraph, hindex, hjumps, hwaiting, hcoded⟩
      have hspread : Spread c.frame.start buffer.capacity c.table.view.bare := by
        obtain ⟨-, rfl⟩ := Buffer.beginWrite_eq_ok hbuffer
        exact Spread.of_arena arena intact.low
      refine (evictAll_linked hlinked hspread (arena.nodup.sublist hsublist) fun id hid => ?_).bind ?_
      · exact (arena.mem_queue id).mp (hsublist.subset hid)
      · rintro c' ⟨hgraph, hindex, hjumps, hwaiting, hcoded⟩
        exact .ok ⟨⟨hgraph, hindex, hjumps, hwaiting, hcoded⟩, rfl⟩
  refine (hall.and (invalidate_evicts c start len)).imp ?_
  rintro r ⟨⟨hlinked, hmode⟩, hevicts⟩
  exact ⟨hevicts.arena arena, hlinked, hevicts.capacity.trans_le intact.low, hmode⟩

/-- An empty cache is linked. -/
theorem Linked.of_empty (view : c.table.view = ({} : Table).view) (index : c.index = [])
    (jumps : c.jumpCache = .empty) :
  c.Linked P
  := by
  have hbare (id : Nat) : ({} : Table).view.bare id = none := by simp [Table.view, Table.block?]
  have hexit (e : ExitRef) : ({} : Table).view.exit e = none := by simp [Table.view, Table.block?]
  have hincoming (id : Nat) : ({} : Table).view.incoming id = [] := by
    simp [Table.view, Table.block?]
  have hpending : ({} : Table).view.pending = [] := rfl
  refine ⟨?_, ?_, ?_, ?_, ?_⟩
  · rw [view]
    refine ⟨?_, ?_, ?_, List.nodup_nil, ?_, fun _ h => h.elim⟩
    · simp [hexit, hincoming]
    · simp [hexit, hpending]
    · simp [hincoming]
    · simp [hexit]
  · rw [view, index]
    intro pc id
    simp [hbare]
  · rw [jumps]
    intro pc id h
    rw [lookup_empty] at h
    cases h
  · rw [view, hpending]
    simp
  · rw [view]
    intro id b hb
    rw [hbare] at hb
    cases hb

/-- An empty cache has no blocks that could fail to satisfy a predicate. -/
theorem flush_intact {Q : Block → Prop} (intact : c.Intact P) :
  c.flush.Intact Q
  := ⟨intact.arena.flush, .of_empty rfl rfl rfl, intact.low, intact.mode⟩

theorem created_of_create {size : Nat} {eviction : Eviction} {services : Services}
    {platform : Platform} (h : create size eviction services platform = .ok (some c)) :
  Created size eviction services c
  := by
  have hmeets : Meets False (.ok (some c)) _ := create_meets h False.elim
  exact hmeets.2 c rfl

theorem exists_create {size : Nat} {platform : Platform} (affords : platform.Affords size)
    (eviction : Eviction) (services : Services) :
  ∃ c, create size eviction services platform = .ok (some c)
  := by
  have hsmall : max size 1 + 4095 < Word.count := by
    have hbounded := platform.bounded _ affords
    simp only [Size.roundUp, Buffer.hostPageSize] at hbounded
    rw [Word.count]
    omega
  generalize hx : create size eviction services platform = x
  have hmeets : Meets True x _ := create_meets hx fun _ => hsmall
  obtain ⟨r, rfl, hr, -⟩ := hmeets.exists_ok trivial
  obtain ⟨c, rfl⟩ := Option.isSome_iff_exists.mp (hr.mpr affords)
  exact ⟨c, rfl⟩

theorem create_eq_none {size : Nat} {platform : Platform} (small : max size 1 + 4095 < Word.count)
    (refuses : ¬platform.Affords size) (eviction : Eviction) (services : Services) :
  create size eviction services platform = .ok none
  := by
  generalize hx : create size eviction services platform = x
  have hmeets : Meets True x _ := create_meets hx fun _ => small
  obtain ⟨r, rfl, hr, -⟩ := hmeets.exists_ok trivial
  rw [Option.not_isSome_iff_eq_none.mp (mt hr.mp refuses)]

/-- A cache of at most two gigabytes is within two gigabytes. -/
theorem Created.intact {size : Nat} {eviction : Eviction} {services : Services}
    (h : Created size eviction services c) (small : size ≤ 0x80000000) :
  c.Intact P
  := by
  refine ⟨h.arena, .of_empty ?_ h.index h.jumpCache, ?_, h.mode⟩
  · rw [h.table]
  · rw [h.capacity]
    simp only [Size.roundUp, Buffer.hostPageSize]
    omega

/-! ### Operations one after the other -/

/-- An operation of the cache. -/
inductive Operation where
  | install (block : Block)
  | lookup (pc : Word)
  | invalidate (start len : Word)
  | flush

/-- The cache after an operation. -/
def Operation.on (c : CodeCache) : Operation → Except Crash CodeCache
  | install block => (c.install block).map (·.2)
  | lookup pc => .ok (c.lookup pc).2
  | invalidate start len => (c.invalidate start len).map (·.2)
  | flush => .ok c.flush

/-- Operations lead from a cache to another, each of them admitted where it happens. -/
inductive Runs (admits : CodeCache → Operation → Prop) (c : CodeCache) : CodeCache → Prop
  | refl : Runs admits c c
  | step {c₁ c₂ : CodeCache} {op : Operation} (runs : Runs admits c c₁) (admitted : admits c₁ op)
      (on : op.on c₁ = .ok c₂) : Runs admits c c₂

theorem Runs.imp {admits admits' : CodeCache → Operation → Prop} {c₀ : CodeCache}
    (h : Runs admits c₀ c) (himp : ∀ c op, admits c op → admits' c op) :
  Runs admits' c₀ c
  := by
  induction h with
  | refl => exact .refl
  | step _ admitted on ih => exact .step ih (himp _ _ admitted) on

/-- Only blocks that were formed are installed, where there is no block at their address. -/
def Admits (c : CodeCache) : Operation → Prop
  | .install block => block.WasFormed ∧ ∀ id b, c.block? id = some b → b.pc ≠ block.pc
  | _ => True

namespace Runs

variable {c₀ : CodeCache}

theorem install (runs : Runs Admits c₀ c) {block : Block} (formed : block.WasFormed)
    (absent : ∀ id b, c.block? id = some b → b.pc ≠ block.pc) {r : Except CompileError Nat}
    (on : c.install block = .ok (r, c')) :
  Runs Admits c₀ c'
  := by
  have admitted : Admits c (.install block) := ⟨formed, absent⟩
  apply runs.step admitted
  rw [Operation.on, on]
  rfl

theorem lookup (runs : Runs Admits c₀ c) (pc : Word) :
  Runs Admits c₀ (c.lookup pc).2
  := by
  have admitted : Admits c (.lookup pc) := trivial
  exact runs.step admitted rfl

theorem invalidate (runs : Runs Admits c₀ c) {start len : Word} {n : Nat}
    (on : c.invalidate start len = .ok (n, c')) :
  Runs Admits c₀ c'
  := by
  have admitted : Admits c (.invalidate start len) := trivial
  apply runs.step admitted
  rw [Operation.on, on]
  rfl

theorem flush (runs : Runs Admits c₀ c) :
  Runs Admits c₀ c.flush
  := by
  have admitted : Admits c .flush := trivial
  exact runs.step admitted rfl

end Runs

/-- An operation keeps a cache intact if the block that it installs, if any, is like the others. -/
theorem on_intact_of (intact : c.Intact P) {op : Operation} (admitted : Admits c op)
    (hP : ∀ block, op = .install block → codeBound block ≤ c.buffer.capacity → P block) :
  Meets True (op.on c) fun c' => c'.Intact P
  := by
  cases op with
  | install block =>
    obtain ⟨hformed, habsent⟩ := admitted
    have hnone : c.index.lookup block.pc = none := by
      cases hid : c.index.lookup block.pc with
      | none => rfl
      | some id =>
        obtain ⟨b, hb, hpc⟩ := (intact.linked.index _ _).mp hid
        obtain ⟨b', hb', rfl⟩ := Table.bare_eq_some.mp hb
        exact absurd hpc (habsent id b' hb')
    have hinstall := install_intact intact hformed.isFormed (hP block rfl) hnone
    exact (hinstall.imp fun r h => h.1).map
  | lookup pc => exact .ok (lookup_intact intact pc)
  | invalidate start len => exact (invalidate_intact intact start len).map
  | flush => exact .ok (flush_intact intact)

theorem on_intact (intact : c.Intact fun _ => True) {op : Operation} (admitted : Admits c op) :
  Meets True (op.on c) fun c' => c'.Intact fun _ => True
  := on_intact_of intact admitted fun _ _ _ => trivial

theorem runs_intact {c₀ : CodeCache} (intact : c₀.Intact fun _ => True) (runs : Runs Admits c₀ c) :
  c.Intact fun _ => True
  := by
  induction runs with
  | refl => exact intact
  | step _ admitted on ih => exact (on_intact ih admitted).post_of_eq on

/-- A block that was formed is placed at the head if there is room. -/
theorem exists_install (intact : c.Intact fun _ => True) {block : Block} (formed : block.WasFormed)
    (absent : c.index.lookup block.pc = none)
    (room : c.head + codeBound block ≤ c.buffer.capacity) :
  ∃ id c', c.install block = .ok (.ok id, c') ∧ Operation.on c (.install block) = .ok c' ∧
    c'.Intact (fun _ => True) ∧ c'.head ≤ Size.roundUp (c.head + codeBound block) alignment ∧
    c'.buffer.capacity = c.buffer.capacity ∧
    ∃ b, c'.table.view.bare id = some b ∧ b.pc = block.pc ∧ b.endPc = block.endPc ∧
      b.count = block.count ∧
      ∀ j a, c'.table.view.bare j = some a → a = b ∨ c.table.view.bare j = some a
  := by
  have hwraps : ¬c.wraps (codeBound block) := by
    simp only [wraps, decide_eq_true_eq]
    omega
  have hroom : ¬c.Refuses (codeBound block) := by
    have := intact.arena.low
    have := intact.arena.high
    rintro (hneed | ⟨hwraps', -⟩)
    · omega
    · exact hwraps hwraps'
  obtain ⟨r, hr, hintact, hinstalls⟩ :=
    (install_intact intact formed.isFormed (fun _ => trivial) absent).exists_ok trivial
  cases hinstalls with
  | refused refuses => exact absurd refuses hroom
  | @placed c₁ c' id gone old new sites b d room absent makes written places =>
    refine ⟨id, c', hr, ?_, hintact, ?_, places.capacity.trans makes.capacity, _,
      by rw [places.bare, Function.update_self], rfl, rfl, rfl, fun j a ha => ?_⟩
    · rw [Operation.on, hr]
      rfl
    · have hpos := written.pos
      have hfits := written.fits
      have hhead := places.head
      rw [show c.startFor (codeBound block) = c.head from if_neg hwraps] at hpos hfits hhead
      rw [hhead]
      refine (roundUp_alignment _).2.2 _ (roundUp_alignment _).1 ?_
      refine le_trans ?_ (roundUp_alignment _).2.1
      simp only [Compiled.ofBlock]
      omega
    · rw [places.bare, Function.update_apply] at ha
      split at ha
      case isTrue =>
        exact .inl (Option.some.inj ha).symm
      case isFalse => exact .inr (makes.left ha)

/-- A block that jumps to itself. -/
def loop : Block := ⟨0, [⟨0, 0xa001, .jal 0 0, 2⟩], .jump⟩

/-- A cache with a block that jumps to itself. -/
theorem exists_loop :
  ∃ c₀ c id, create 0x10000 .fifo .standard = .ok (some c₀) ∧ c₀.install loop = .ok (.ok id, c) ∧
    Runs Admits c₀ c
  := by
  obtain ⟨c₀, created⟩ := exists_create (by decide : Platform.standard.Affords 0x10000) .fifo .standard
  have hcreated := created_of_create created
  have hformed : loop.WasFormed := ⟨Unit, fun _ => pure 0xa001, (), (), 0, 8, rfl⟩
  have hadmits : Admits c₀ (.install loop) := by
    refine ⟨hformed, fun id b hb => ?_⟩
    rw [block?, hcreated.table] at hb
    simp [Table.block?] at hb
  have hroom : c₀.head + codeBound loop ≤ c₀.buffer.capacity := by
    rw [hcreated.head, show c₀.buffer.capacity = 0x10000 from hcreated.capacity]
    decide
  have hnone : c₀.index.lookup loop.pc = none := by
    rw [hcreated.index]
    rfl
  obtain ⟨id, c, hinstall, hon, -⟩ :=
    exists_install (hcreated.intact (by decide)) hformed hnone hroom
  exact ⟨c₀, c, id, created, hinstall, .step .refl hadmits hon⟩

/-! ### Consistent links -/

/-- An exit is linked to a live block at its address, which knows of it once, and its jump leads
there; or it leads to its stub, waits once for its address and nothing else, and there is no block at
that address. -/
def ExitConsistent (c : CodeCache) (e : ExitRef) (x : Exit) : Prop :=
  (∃ dst target, x.linked = some dst ∧ c.block? dst = some target ∧ target.pc = x.site.target ∧
    c.exitTarget e = .ok (some target.entry) ∧ target.incoming.count e = 1 ∧
    ∀ pc, (pc, e) ∉ c.table.pending) ∨
  (x.linked = none ∧ c.exitTarget e = .ok (some x.site.stub) ∧
    c.table.pending.count (x.site.target, e) = 1 ∧
    (∀ pc, (pc, e) ∈ c.table.pending → pc = x.site.target) ∧
    ∀ id b, c.block? id = some b → b.pc ≠ x.site.target)

/-- Every exit of a live block is consistent, and only such exits are known to blocks or wait. -/
structure Consistent (c : CodeCache) : Prop where
  exits : ∀ id b i x, c.block? id = some b → b.exits[i]? = some x → c.ExitConsistent ⟨id, i⟩ x
  incoming : ∀ id b e, c.block? id = some b → e ∈ b.incoming →
    ∃ src x, c.block? e.block = some src ∧ src.exits[e.exit]? = some x
  pending : ∀ pc e, (pc, e) ∈ c.table.pending →
    ∃ src x, c.block? e.block = some src ∧ src.exits[e.exit]? = some x

theorem exitTarget_eq (intact : c.Intact P) {e : ExitRef} {x : Exit}
    (hx : c.table.view.exit e = some x) :
  c.exitTarget e = .ok (some (c.table.view.dest e))
  := by
  obtain ⟨b, hb, hget⟩ := Table.bare_of_exit hx
  have hexit : (c.block? e.block).bind (·.exits[e.exit]?) = some x := hx
  have hmode : c.buffer.executable = .ok c.buffer := if_pos intact.mode
  have htarget := intact.linked.coded.targetAt (Spread.of_arena intact.arena intact.low) hb hget
  rw [exitTarget, hexit, hmode]
  exact htarget

theorem Intact.exitConsistent (intact : c.Intact P) {e : ExitRef} {x : Exit}
    (hx : c.table.view.exit e = some x) :
  c.ExitConsistent e x
  := by
  have graph := intact.linked.graph
  have htarget := exitTarget_eq intact hx
  cases hlinked : x.linked with
  | some dst =>
    obtain ⟨b, hb, hpc⟩ := graph.linked e x dst hx hlinked
    obtain ⟨target, hget, rfl⟩ := Table.bare_eq_some.mp hb
    rw [dest_of_linked hx hlinked hb] at htarget
    refine .inl ⟨dst, target, hlinked, hget, hpc, htarget, ?_, fun pc hmem => ?_⟩
    · have hmem := (graph.incoming e dst).mpr ⟨x, hx, hlinked⟩
      have hnodup := graph.incoming_nodup dst
      rw [Table.incoming_of_block? hget] at hmem hnodup
      exact List.count_eq_one_of_mem hnodup hmem
    · obtain ⟨-, y, hy, hfree, -⟩ := (graph.pending pc e).mp hmem
      cases hx.symm.trans hy
      cases hlinked.symm.trans hfree
  | none =>
    rw [dest_of_free hx hlinked] at htarget
    have hmem := (graph.pending x.site.target e).mpr ⟨not_false, x, hx, hlinked, rfl⟩
    refine .inr ⟨hlinked, htarget, List.count_eq_one_of_mem graph.pending_nodup hmem,
      fun pc hpc => ?_, fun id b hb hpc => ?_⟩
    · obtain ⟨-, y, hy, -, htarget⟩ := (graph.pending pc e).mp hpc
      cases hx.symm.trans hy
      exact htarget.symm
    · have hnone := intact.linked.waiting _ hmem
      have hfound := (intact.linked.index _ id).mpr ⟨b.bare, Table.bare_of_block? hb, hpc⟩
      cases hnone.symm.trans hfound

theorem Intact.consistent (intact : c.Intact P) :
  c.Consistent
  := by
  have graph := intact.linked.graph
  refine ⟨fun id b i x hb hx => ?_, fun id b e hb he => ?_, fun pc e he => ?_⟩
  · exact intact.exitConsistent (Table.exit_eq_some.mpr ⟨b, hb, hx⟩)
  · rw [← Table.incoming_of_block? hb] at he
    obtain ⟨x, hx, -⟩ := (graph.incoming e id).mp he
    obtain ⟨src, hsrc, hget⟩ := Table.exit_eq_some.mp hx
    exact ⟨src, x, hsrc, hget⟩
  · obtain ⟨-, x, hx, -⟩ := (graph.pending pc e).mp he
    obtain ⟨src, hsrc, hget⟩ := Table.exit_eq_some.mp hx
    exact ⟨src, x, hsrc, hget⟩

/-- Whatever operations lead from a new cache of at most two gigabytes to, its links are consistent,
and every further operation has a result: none of them finds a rule of the cache broken. -/
theorem links_stay_consistent {size : Nat} {eviction : Eviction} {services : Services}
    {platform : Platform} {c₀ c : CodeCache} (small : size ≤ 0x80000000)
    (created : create size eviction services platform = .ok (some c₀)) (runs : Runs Admits c₀ c) :
  c.Consistent ∧ ∀ op, Admits c op → ∃ c', op.on c = .ok c'
  := by
  have intact := runs_intact ((created_of_create created).intact small) runs
  refine ⟨intact.consistent, fun op admitted => ?_⟩
  obtain ⟨c', hc', -⟩ := (on_intact intact admitted).exists_ok trivial
  exact ⟨c', hc'⟩

/-- The links of a cache with a block that jumps to itself. -/
theorem links_stay_consistent_with_loop :
  ∃ c₀ c id, create 0x10000 .fifo .standard = .ok (some c₀) ∧ c₀.install loop = .ok (.ok id, c) ∧
    Runs Admits c₀ c ∧ c.Consistent ∧ ∀ op, Admits c op → ∃ c', op.on c = .ok c'
  := by
  obtain ⟨c₀, c, id, created, hinstall, runs⟩ := exists_loop
  exact ⟨c₀, c, id, created, hinstall, runs, links_stay_consistent (by decide) created runs⟩

/-! ### The ring -/

/-- Blocks are apart, aligned and behind the code around them, which stands; the head is aligned and
in the buffer; and the blocks are those of the previous pass, behind the head, followed by those of
the current pass, before it, each pass in the order of its code. -/
structure Ring (c : CodeCache) : Prop where
  apart : ∀ i j a b, c.block? i = some a → c.block? j = some b → i ≠ j →
    a.entry + a.size ≤ b.entry ∨ b.entry + b.size ≤ a.entry
  placed : ∀ id b, c.block? id = some b →
    b.entry % alignment = 0 ∧ c.frame.start ≤ b.entry ∧ 0 < b.size ∧
      b.entry + b.size ≤ c.buffer.capacity
  framed : c.Framed
  aligned : c.head % alignment = 0
  high : c.head ≤ c.buffer.capacity
  queue : c.blocks.map (·.1) = c.queue
  live : ∀ id, id ∈ c.queue ↔ (c.block? id).isSome
  passes : ∃ previous current, c.blocks = previous ++ current ∧
    previous.Pairwise (fun p q => p.2.entry < q.2.entry) ∧
    current.Pairwise (fun p q => p.2.entry < q.2.entry) ∧
    (∀ p ∈ previous, c.head ≤ p.2.entry) ∧ ∀ p ∈ current, p.2.entry + p.2.size ≤ c.head

/-- The blocks with given numbers. -/
def blocksOf (c : CodeCache) (ids : List Nat) : List (Nat × Compiled) :=
  ids.filterMap fun id => (c.block? id).map (id, ·)

theorem mem_blocksOf {ids : List Nat} {p : Nat × Compiled} :
  p ∈ c.blocksOf ids ↔ p.1 ∈ ids ∧ c.block? p.1 = some p.2
  := by
  obtain ⟨id, b⟩ := p
  simp only [blocksOf, List.mem_filterMap, Option.map_eq_some_iff, Prod.mk.injEq]
  grind

theorem Ordered.blocksOf {ids : List Nat} (ordered : c.Ordered ids) (arena : c.Arena) :
  (c.blocksOf ids).Pairwise fun p q => p.2.entry < q.2.entry
  := by
  refine List.Pairwise.filterMap _ ?_ ordered
  intro i j hij p hp q hq
  obtain ⟨a, ha, rfl⟩ := Option.map_eq_some_iff.mp hp
  obtain ⟨b, hb, rfl⟩ := Option.map_eq_some_iff.mp hq
  have hlt : a.entry + a.size ≤ b.entry :=
    hij a.bare b.bare (Table.bare_of_block? ha) (Table.bare_of_block? hb)
  have hpos : 0 < a.size := (arena.sits i _ (Table.bare_of_block? ha)).pos
  exact Nat.lt_of_lt_of_le (Nat.lt_add_of_pos_right hpos) hlt

theorem Arena.ring (arena : c.Arena) (framed : c.Framed) :
  c.Ring
  := by
  refine ⟨fun i j a b ha hb hij => ?_, fun id b hb => ?_, framed, arena.aligned, arena.high,
    map_fst_blocks arena.toDirectory, fun id => ?_, ?_⟩
  · have hapart := arena.apart hij (Table.bare_of_block? ha) (Table.bare_of_block? hb)
    exact hapart
  · obtain ⟨haligned, hlow, hpos, hhigh, -⟩ := arena.sits id _ (Table.bare_of_block? hb)
    exact ⟨haligned, hlow, hpos, hhigh⟩
  · rw [arena.mem_queue]
    simp [Table.view, block?]
  · obtain ⟨old, new, passes⟩ := arena.passes
    refine ⟨c.blocksOf old, c.blocksOf new, ?_, passes.ordered_old.blocksOf arena,
      passes.ordered_new.blocksOf arena, fun p hp => ?_, fun p hp => ?_⟩
    · rw [blocks, passes.queue, List.filterMap_append]
      rfl
    · obtain ⟨hmem, hb⟩ := mem_blocksOf.mp hp
      exact passes.behind p.1 hmem p.2.bare (Table.bare_of_block? hb)
    · obtain ⟨hmem, hb⟩ := mem_blocksOf.mp hp
      exact passes.before p.1 hmem p.2.bare (Table.bare_of_block? hb)

theorem on_arena (arena : c.Arena) {op : Operation} :
  Meets False (op.on c) fun c' => c'.Arena ∧ Guards c c'
  := by
  cases op with
  | install block =>
    exact ((install_installs arena block).imp fun r h => h.keeps arena).map
  | lookup pc =>
    have h := lookup_evicts c pc
    exact .ok ⟨h.arena arena, h.guards arena⟩
  | invalidate start len =>
    exact ((invalidate_evicts c start len).imp fun r h => ⟨h.arena arena, h.guards arena⟩).map
  | flush => exact .ok ⟨arena.flush, ⟨rfl, rfl, rfl, rfl⟩, fun _ _ => rfl⟩

theorem runs_arena {admits : CodeCache → Operation → Prop} {c₀ : CodeCache} (arena : c₀.Arena)
    (runs : Runs admits c₀ c) :
  c.Arena ∧ Guards c₀ c
  := by
  induction runs with
  | refl => exact ⟨arena, .refl c₀, fun _ _ => rfl⟩
  | step _ _ on ih =>
    obtain ⟨harena, hguards⟩ := (on_arena ih.1).post_of_eq on
    exact ⟨harena, ih.2.trans hguards⟩

/-- What an installation evicts is the front of the queue, and nothing else has code where the block
is placed. -/
structure EvictsFront (c : CodeCache) (block : Block) : Prop where
  /-- The check that there is room never fails. -/
  unchecked : c.install block = c.installUnchecked block
  clear : ∀ c₁, ¬c.Refuses (codeBound block) → c.makeRoom (codeBound block) = .ok c₁ →
    c.startFor (codeBound block) + codeBound block ≤ c.buffer.capacity ∧
    c₁.isClear (c.startFor (codeBound block))
      (c.startFor (codeBound block) + codeBound block) = .ok true
  front : ∀ c₁, c.makeRoom (codeBound block) = .ok c₁ →
    ∃ gone, c.queue = gone ++ c₁.queue ∧
      ∀ id, c₁.block? id = none ↔ c.block? id = none ∨ id ∈ gone
  queue : ∀ id c', c.install block = .ok (.ok id, c') →
    ∃ gone kept, c.queue = gone ++ kept ∧ c'.queue = kept ++ [id]

theorem Arena.evictsFront (arena : c.Arena) (block : Block) :
  c.EvictsFront block
  := by
  refine ⟨install_eq_installUnchecked arena block, fun c₁ hroom hc₁ => ?_, fun c₁ hc₁ => ?_,
    fun id c' hc' => ?_⟩
  · obtain ⟨gone, old, new, makes⟩ := (makeRoom_meets arena _).post_of_eq hc₁
    exact ⟨(startFor_le arena hroom).2.2, makes.isClear arena⟩
  · obtain ⟨gone, old, new, makes⟩ := (makeRoom_meets arena _).post_of_eq hc₁
    refine ⟨gone, ?_, fun id => ?_⟩
    · rw [makes.queue_eq arena]
      exact makes.split
    · have hnone (c : CodeCache) : c.block? id = none ↔ c.table.view.bare id = none :=
        Option.map_eq_none_iff.symm
      rw [hnone, hnone, makes.bare]
      split_ifs with hid <;> simp [hid]
  · cases (install_installs arena block).post_of_eq hc' with
    | placed room absent makes written places =>
      exact ⟨_, _, makes.split, by rw [places.queue, makes.queue_eq arena]⟩

/-- Whatever operations lead from a new cache to, the blocks in it form a ring, in front of which the
code around all blocks stands.  So the loop of an installation, which only looks at the front of the
queue, makes room for the whole block, and what it evicts is the front of the queue.  It has a result
wherever the operations so far were admitted. -/
theorem ring_kept_by_runs {size : Nat} {eviction : Eviction} {services : Services}
    {platform : Platform} {c₀ c : CodeCache}
    (created : create size eviction services platform = .ok (some c₀))
    (runs : Runs (fun _ _ => True) c₀ c) :
  c.Ring ∧ c.frame = c₀.frame ∧ (∀ block, c.EvictsFront block) ∧
    (size ≤ 0x80000000 → Runs Admits c₀ c → ∀ need, ∃ c₁, c.makeRoom need = .ok c₁)
  := by
  have hcreated := created_of_create created
  obtain ⟨harena, hguards⟩ := runs_arena hcreated.arena runs
  refine ⟨harena.ring (hguards.framed hcreated.framed), hguards.frame, harena.evictsFront,
    fun small admitted need => ?_⟩
  obtain ⟨-, hlinked, hlow, hmode⟩ := runs_intact (hcreated.intact small) admitted
  obtain ⟨c₁, hc₁, -⟩ := (makeRoom_linked hlinked harena hlow hmode need).exists_ok trivial
  exact ⟨c₁, hc₁⟩

/-- Blocks are installed one after the other, where there are none. -/
def installs : List Block → CodeCache → Option CodeCache
  | [], c => some c
  | block :: rest, c =>
    if c.index.lookup block.pc = none then (c.install block).toOption.bind fun r => installs rest r.2
    else none

theorem runs_installs {c₀ : CodeCache} (intact : c₀.Intact fun _ => True) (runs : Runs Admits c₀ c)
    {blocks : List Block} (formed : ∀ block ∈ blocks, block.WasFormed)
    (h : installs blocks c = some c') :
  Runs Admits c₀ c'
  := by
  induction blocks generalizing c with
  | nil =>
    cases h
    exact runs
  | cons block rest ih =>
    obtain ⟨hformed, hrest⟩ := List.forall_mem_cons.mp formed
    unfold installs at h
    split at h
    case isFalse => cases h
    case isTrue hnone =>
      obtain ⟨⟨r, c₁⟩, hr, h⟩ := Option.bind_eq_some_iff.mp h
      refine ih (runs.install hformed (fun id b hb hpc => ?_) (Except.eq_ok_of_toOption hr)) hrest h
      have hindex := (runs_intact intact runs).linked.index block.pc id
      cases hnone.symm.trans (hindex.mpr ⟨b.bare, Table.bare_of_block? hb, hpc⟩)

/-- Blocks for which a cache of one page has room only if it starts over. -/
def lap : List Block :=
  [fpBlock 12 0, fpBlock 10 0x1000, fpBlock 6 0x2000, fpBlock 5 0x3000]

/-- The last block starts over at the front.  The first two are evicted, and the third one, of the
previous pass, is left. -/
theorem ring_kept_by_lap :
  ∃ c₀ c, create 4096 .fifo .standard = .ok (some c₀) ∧ installs lap c₀ = some c ∧
    Runs Admits c₀ c ∧ c.evicted = 2 ∧ c.blocks.map (·.2.pc) = [0x2000, 0x3000] ∧ c.Ring ∧
    c.frame = c₀.frame ∧ (∀ block, c.EvictsFront block) ∧ ∀ need, ∃ c₁, c.makeRoom need = .ok c₁
  := by
  have hlap : ((create 4096 .fifo .standard).toOption.bind fun r => r.bind fun c₀ =>
      (installs lap c₀).map fun c => (c.evicted, c.blocks.map (·.2.pc))) =
        some (2, [0x2000, 0x3000]) := by decide +kernel
  obtain ⟨r, hr, hlap⟩ := Option.bind_eq_some_iff.mp hlap
  obtain ⟨c₀, rfl, hlap⟩ := Option.bind_eq_some_iff.mp hlap
  obtain ⟨c, hc, hlap⟩ := Option.map_eq_some_iff.mp hlap
  obtain ⟨hevicted, hblocks⟩ := Prod.mk.inj hlap
  have created := Except.eq_ok_of_toOption hr
  have hformed : ∀ block ∈ lap, block.WasFormed := by
    have hblock (n : Nat) (pc : Word) : (fpBlock n pc).WasFormed :=
      ⟨Unit, _, (), (), pc, n + 1, on_form_fpLoads n pc⟩
    simp [lap, hblock]
  have runs := runs_installs ((created_of_create created).intact (by decide)) .refl hformed hc
  have hruns : Runs (fun _ _ => True) c₀ c := runs.imp fun _ _ _ => trivial
  obtain ⟨hring, hframe, hfront, hroom⟩ := ring_kept_by_runs created hruns
  exact ⟨c₀, c, created, hc, runs, hevicted, hblocks, hring, hframe, hfront, hroom (by decide) runs⟩

end CrossHart.CodeCache
