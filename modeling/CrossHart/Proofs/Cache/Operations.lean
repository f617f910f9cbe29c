import CrossHart.Cache
import CrossHart.Proofs.Cache.Views
import CrossHart.Proofs.Host.Emission

/-!
# Operations of the code cache

What the operations of the cache do to its blocks without their links, to the queue and to the
numbers, whatever the links are.
-/

namespace CrossHart

open Cache Host

/-! ### Changes of links -/

namespace Cache

/-- Only links were changed: the blocks without them are the same, and so is the code but for the
displacements of exits. -/
structure Relinked (t : Table) (b : Buffer) (t' : Table) (b' : Buffer) : Prop where
  bare : t'.view.bare = t.view.bare
  size : t'.blocks.size = t.blocks.size
  capacity : b'.capacity = b.capacity
  grows : b.bytes.size ≤ b'.bytes.size
  bytes : ∀ i, (∀ id c, t.view.bare id = some c → ∀ x ∈ c.exits,
    ¬(x.site.jump < i ∧ i < x.site.jump + jumpSize)) → Bytes.at0 b'.bytes i = Bytes.at0 b.bytes i

namespace Relinked

variable {t t' t'' : Table} {b b' b'' : Buffer}

theorem refl (t : Table) (b : Buffer) :
  Relinked t b t b
  := ⟨rfl, rfl, rfl, Nat.le_refl _, fun _ _ => rfl⟩

theorem trans (h : Relinked t b t' b') (h' : Relinked t' b' t'' b'') :
  Relinked t b t'' b''
  := by
  refine ⟨h'.bare.trans h.bare, h'.size.trans h.size, h'.capacity.trans h.capacity,
    h.grows.trans h'.grows, fun i hi => ?_⟩
  rw [h'.bytes i (by rw [h.bare]; exact hi), h.bytes i hi]

/-- A redirected exit. -/
theorem of_patchJump {e : ExitRef} {x : Exit} {place : Nat} (hx : t.view.exit e = some x)
    (bare : t'.view.bare = t.view.bare) (size : t'.blocks.size = t.blocks.size)
    (h : b.patchJump x.site.jump place = .ok b') :
  Relinked t b t' b'
  := by
  rw [Buffer.eq_overwrite_of_patchJump h]
  refine ⟨bare, size, Buffer.capacity_overwrite _ _ _, ?_, fun i hi => ?_⟩
  · rw [Buffer.size_overwrite]
    exact Nat.le_max_left _ _
  obtain ⟨c, hc, hget⟩ := Table.bare_of_exit hx
  have := hi _ c hc _ (List.mem_of_getElem? hget)
  rw [Buffer.at0_overwrite, if_neg]
  have hlength : (field32 (displacement (x.site.jump + jumpSize) place)).length = 4 := rfl
  simp only [jumpSize] at this
  omega

end Relinked

namespace Table

theorem link_relinked (t : Table) (b : Buffer) (e : ExitRef) (dst : Nat) :
  Meets False (t.link b e dst) fun r => Relinked t b r.1 r.2
  := by
  refine (link_meets False.elim).imp ?_
  rintro ⟨t', b'⟩ ⟨x, target, hx, -, hview, hsize, hpatch⟩
  exact .of_patchJump hx (by rw [hview]; rfl) hsize hpatch

theorem unlink_relinked (t : Table) (b : Buffer) (e : ExitRef) (entry : Nat) :
  Meets False (t.unlink b e entry) fun r => Relinked t b r.1 r.2
  := by
  refine (unlink_meets False.elim).imp ?_
  rintro ⟨t', b'⟩ ⟨x, hx, hview, hsize, hpatch⟩
  exact .of_patchJump hx (by rw [hview]; rfl) hsize hpatch

theorem linkAll_relinked (dst : Nat) (es : List ExitRef) (t : Table) (b : Buffer) :
  Meets False (linkAll dst es t b) fun r => Relinked t b r.1 r.2
  := by
  induction es generalizing t b with
  | nil => exact .ok (.refl t b)
  | cons e es ih =>
    refine (link_relinked t b e dst).bind ?_
    rintro ⟨t', b'⟩ h
    exact (ih t' b').imp fun r hr => h.trans hr

theorem unlinkAll_relinked (entry : Nat) (es : List ExitRef) (t : Table) (b : Buffer) :
  Meets False (unlinkAll entry es t b) fun r => Relinked t b r.1 r.2
  := by
  induction es generalizing t b with
  | nil => exact .ok (.refl t b)
  | cons e es ih =>
    refine (unlink_relinked t b e entry).bind ?_
    rintro ⟨t', b'⟩ h
    exact (ih t' b').imp fun r hr => h.trans hr

end Table

end Cache

namespace CodeCache

/-! ### Evicting -/

/-- The places in the code that links are written to. -/
def IsLinkByte (c : CodeCache) (i : Nat) : Prop :=
  ∃ id b, c.table.view.bare id = some b ∧ ∃ x ∈ b.exits,
    x.site.jump < i ∧ i < x.site.jump + jumpSize

/-- What no operation changes. -/
structure Steady (c c' : CodeCache) : Prop where
  frame : c'.frame = c.frame
  services : c'.services = c.services
  eviction : c'.eviction = c.eviction
  capacity : c'.buffer.capacity = c.buffer.capacity

theorem Steady.refl (c : CodeCache) :
  Steady c c
  := ⟨rfl, rfl, rfl, rfl⟩

theorem Steady.trans {c c₁ c' : CodeCache} (h : Steady c c₁) (h' : Steady c₁ c') :
  Steady c c'
  := ⟨h'.frame.trans h.frame, h'.services.trans h.services, h'.eviction.trans h.eviction,
    h'.capacity.trans h.capacity⟩

/-- Blocks were evicted one after the other. -/
structure EvictsAll (gone : List Nat) (c c' : CodeCache) : Prop extends Steady c c' where
  nodup : gone.Nodup
  live : ∀ id ∈ gone, (c.table.view.bare id).isSome
  bare : ∀ id, c'.table.view.bare id = if id ∈ gone then none else c.table.view.bare id
  size : c'.table.blocks.size = c.table.blocks.size
  head : c'.head = c.head
  queue : c'.queue = c.queue.filter fun id => id ∉ gone
  free : c'.free = gone.reverse ++ c.free
  grows : c.buffer.bytes.size ≤ c'.buffer.bytes.size
  bytes : ∀ i, ¬c.IsLinkByte i → Bytes.at0 c'.buffer.bytes i = Bytes.at0 c.buffer.bytes i

theorem evict_evicts (c : CodeCache) (id : Nat) :
  Meets False (c.evict id) (EvictsAll [id] c)
  := by
  unfold evict
  split
  case h_1 => exact not_false
  case h_2 gone hgone =>
    have hlt := Table.lt_size hgone
    have hview := Table.view_setBlock_none hlt
    refine (Table.unlinkAll_relinked _ _ _ _).bind ?_
    rintro ⟨t, b⟩ h
    have hbare : t.view.bare = Function.update c.table.view.bare id none := by
      rw [h.bare, hview]
      rfl
    have hnone : t.view.bare id = none := by
      rw [hbare]
      exact Function.update_self _ _ _
    refine (Table.dropExits_meets _ _ (Table.incoming_of_bare hnone) False.elim).bind ?_
    rintro t' ⟨hdropped, hsize⟩
    refine .ok ⟨⟨rfl, rfl, rfl, h.capacity⟩, List.nodup_singleton id, ?_, ?_, ?_, rfl, ?_, rfl,
      h.grows, fun i hi => h.bytes i ?_⟩
    · intro j hj
      rw [List.mem_singleton.mp hj, Table.bare_of_block? hgone]
      rfl
    · intro j
      dsimp only
      rw [hdropped.bare, hbare, Function.update_apply]
      simp
    · rw [hsize, h.size, Table.size_setBlock]
    · simp
    · intro j b hb x hx hbyte
      rw [hview] at hb
      simp only [View.remove, Function.update_apply] at hb
      split at hb
      · cases hb
      · exact hi ⟨j, b, hb, x, hx, hbyte⟩

namespace EvictsAll

variable {gone gone' : List Nat} {c c₁ c' : CodeCache}

theorem nil (c : CodeCache) :
  EvictsAll [] c c
  := by
  refine ⟨.refl c, List.nodup_nil, fun _ h => (nomatch h), fun _ => rfl, rfl, rfl, ?_, rfl,
    Nat.le_refl _, fun _ _ => rfl⟩
  simp

/-- What blocks are left were there. -/
theorem left (h : EvictsAll gone c c') {id : Nat} {b : Compiled}
    (hb : c'.table.view.bare id = some b) :
  c.table.view.bare id = some b
  := by
  rw [h.bare] at hb
  split at hb
  · cases hb
  · exact hb

/-- Only what blocks are left has links. -/
theorem isLinkByte (h : EvictsAll gone c c') {i : Nat} (hi : c'.IsLinkByte i) :
  c.IsLinkByte i
  := by
  obtain ⟨j, b, hb, hx⟩ := hi
  exact ⟨j, b, h.left hb, hx⟩

theorem append (h : EvictsAll gone c c₁) (h' : EvictsAll gone' c₁ c') :
  EvictsAll (gone ++ gone') c c'
  := by
  refine ⟨h.toSteady.trans h'.toSteady, ?_, ?_, ?_, h'.size.trans h.size, h'.head.trans h.head, ?_,
    ?_, h.grows.trans h'.grows, ?_⟩
  · refine List.nodup_append.mpr ⟨h.nodup, h'.nodup, ?_⟩
    rintro j hj _ hj' rfl
    have hlive := h'.live j hj'
    rw [h.bare, if_pos hj] at hlive
    cases hlive
  · intro j hj
    obtain hj | hj := List.mem_append.mp hj
    · exact h.live j hj
    · have hlive := h'.live j hj
      rw [h.bare] at hlive
      split at hlive
      · cases hlive
      · exact hlive
  · intro j
    rw [h'.bare, h.bare]
    simp only [List.mem_append]
    split_ifs <;> simp_all
  · rw [h'.queue, h.queue, List.filter_filter]
    apply List.filter_congr
    intro j _
    simp [Bool.and_comm]
  · rw [h'.free, h.free, List.reverse_append, List.append_assoc]
  · intro i hi
    rw [h'.bytes i fun hlink => hi (h.isLinkByte hlink), h.bytes i hi]

end EvictsAll

theorem evictAll_evicts (ids : List Nat) (c : CodeCache) :
  Meets False (evictAll ids c) (EvictsAll ids c)
  := by
  induction ids generalizing c with
  | nil => exact .ok (.nil c)
  | cons id ids ih =>
    refine (evict_evicts c id).bind fun c₁ h => ?_
    exact (ih c₁).imp fun c' h' => h.append h'

theorem filter_not_mem_of_nodup {gone kept : List Nat} (h : (gone ++ kept).Nodup) :
  (gone ++ kept).filter (fun id => id ∉ gone) = kept
  := by
  obtain ⟨-, -, hdisjoint⟩ := List.nodup_append.mp h
  rw [List.filter_append, List.filter_eq_nil_iff.mpr (by simp), List.nil_append,
    List.filter_eq_self.mpr]
  intro id hid
  have hnot : id ∉ gone := fun hgone => hdisjoint id hgone id hid rfl
  simpa using hnot

/-- The oldest blocks are evicted, up to the first that is not in the way. -/
theorem evictOldest_evicts {inTheWay : Compiled → Except Crash Bool}
    (blind : ∀ b, inTheWay b = inTheWay b.bare) {queue : List Nat} {c : CodeCache}
    (hqueue : c.queue = queue) (nodup : queue.Nodup) :
  Meets False (evictOldest inTheWay queue c) fun c' => ∃ gone kept, queue = gone ++ kept ∧
    EvictsAll gone c c' ∧
    (∀ id ∈ gone, ∀ b, c.table.view.bare id = some b → inTheWay b = .ok true) ∧
    ∀ id rest b, kept = id :: rest → c.table.view.bare id = some b → inTheWay b = .ok false
  := by
  induction queue generalizing c with
  | nil => exact .ok ⟨[], [], rfl, .nil c, fun _ h => (nomatch h), fun _ _ _ h => (nomatch h)⟩
  | cons oldest rest ih =>
    obtain ⟨hnot, hnodup⟩ := List.nodup_cons.mp nodup
    unfold evictOldest
    split
    case h_1 hnone =>
      refine .ok ⟨[], oldest :: rest, rfl, .nil c, fun _ h => (nomatch h), ?_⟩
      rintro _ _ b ⟨⟩ hb
      obtain ⟨_, hsome, -⟩ := Table.bare_eq_some.mp hb
      cases hsome.symm.trans hnone
    case h_2 b hb =>
      have hbare := Table.bare_of_block? hb
      refine (Meets.self False.elim).bind fun r hr => ?_
      rw [blind] at hr
      cases r with
      | false =>
        refine .ok ⟨[], oldest :: rest, rfl, .nil c, fun _ h => (nomatch h), ?_⟩
        rintro _ _ b' ⟨⟩ hb'
        cases hbare.symm.trans hb'
        exact hr
      | true =>
        refine (evict_evicts { c with queue := rest } oldest).bind fun c₁ h => ?_
        have hfilter : rest.filter (fun id => id ∉ [oldest]) = rest := by
          apply List.filter_eq_self.mpr
          intro id hid
          have hne : id ≠ oldest := fun heq => hnot (heq ▸ hid)
          simpa using hne
        have hfirst : EvictsAll [oldest] c { c₁ with evicted := c₁.evicted + 1 } := by
          refine ⟨⟨h.frame, h.services, h.eviction, h.capacity⟩, h.nodup, h.live, h.bare, h.size,
            h.head, ?_, h.free, h.grows, h.bytes⟩
          rw [hqueue]
          exact h.queue.trans (by simp)
        refine (ih (c := { c₁ with evicted := c₁.evicted + 1 }) (h.queue.trans hfilter) hnodup).imp ?_
        rintro c' ⟨gone, kept, rfl, h', hgone, hkept⟩
        have hothers : ∀ id ∈ gone ++ kept, ({ c₁ with evicted := c₁.evicted + 1 } :
            CodeCache).table.view.bare id = c.table.view.bare id := by
          intro id hid
          have hne : id ≠ oldest := fun heq => hnot (heq ▸ hid)
          rw [hfirst.bare, if_neg (by simpa using hne)]
        refine ⟨oldest :: gone, kept, rfl, hfirst.append h', ?_, ?_⟩
        · intro id hid b' hb'
          obtain rfl | hid := List.mem_cons.mp hid
          · cases hbare.symm.trans hb'
            exact hr
          · exact hgone id hid b' ((hothers id (List.mem_append_left _ hid)).trans hb')
        · rintro id rest b' rfl hb'
          exact hkept id rest b' rfl ((hothers id (List.mem_append_right _ List.mem_cons_self)).trans hb')

/-! ### Numbers and the queue -/

/-- The queue has the blocks that are there, and free numbers are those of blocks that are gone. -/
structure Directory (c : CodeCache) : Prop where
  nodup : c.queue.Nodup
  mem_queue : ∀ id, id ∈ c.queue ↔ (c.table.view.bare id).isSome
  free_nodup : c.free.Nodup
  free : ∀ id ∈ c.free, id < c.table.blocks.size ∧ c.table.view.bare id = none

theorem EvictsAll.directory {gone : List Nat} {c c' : CodeCache} (h : EvictsAll gone c c')
    (dir : c.Directory) :
  c'.Directory
  := by
  refine ⟨?_, fun id => ?_, ?_, fun id hid => ?_⟩
  · rw [h.queue]
    exact dir.nodup.filter _
  · rw [h.queue, h.bare, List.mem_filter, dir.mem_queue]
    by_cases hid : id ∈ gone
    · simp [hid]
    · simp [hid]
  · rw [h.free, List.nodup_append]
    refine ⟨List.nodup_reverse.mpr h.nodup, dir.free_nodup, ?_⟩
    rintro id hid _ hfree rfl
    have hlive := h.live id (List.mem_reverse.mp hid)
    rw [(dir.free id hfree).2] at hlive
    cases hlive
  · rw [h.free, List.mem_append, List.mem_reverse] at hid
    rw [h.size, h.bare]
    obtain hid | hid := hid
    · obtain ⟨b, hb⟩ := Option.isSome_iff_exists.mp (h.live id hid)
      obtain ⟨b', hb', -⟩ := Table.bare_eq_some.mp hb
      exact ⟨Table.lt_size hb', if_pos hid⟩
    · obtain ⟨hlt, hnone⟩ := dir.free id hid
      refine ⟨hlt, ?_⟩
      rw [hnone, ite_self]

/-- Giving a block a number, one of the free ones if there is any.  Also the free numbers left. -/
def numbered (t : Table) (b : Compiled) : List Nat → Nat × List Nat × Table
  | id :: free => (id, free, t.setBlock id (some b))
  | [] => (t.blocks.size, [], { t with blocks := t.blocks.push (some b) })

theorem number_eq (c : CodeCache) (b : Compiled) :
  c.number b =
    ((numbered c.table b c.free).1,
      { c with free := (numbered c.table b c.free).2.1, table := (numbered c.table b c.free).2.2 })
  := by
  unfold number
  split
  case h_1 hfree => simp [numbered, hfree]
  case h_2 hfree =>
    obtain ⟨_, _, _, _, _, _, free⟩ := c
    dsimp only at hfree
    subst hfree
    rfl

/-- A block was given a number. -/
structure Numbers (b : Compiled) (t : Table) (free : List Nat) (r : Nat × List Nat × Table) : Prop where
  fresh : t.view.bare r.1 = none
  view : r.2.2.view = t.view.insert r.1 b
  lt : r.1 < r.2.2.blocks.size
  size : t.blocks.size ≤ r.2.2.blocks.size
  left : r.2.1 = free.tail
  not_free : r.1 ∉ free.tail

theorem numbers_numbered {t : Table} {free : List Nat} (nodup : free.Nodup)
    (gone : ∀ id ∈ free, id < t.blocks.size ∧ t.view.bare id = none) (b : Compiled) :
  Numbers b t free (numbered t b free)
  := by
  cases free with
  | cons id free =>
    obtain ⟨hlt, hnone⟩ := gone id List.mem_cons_self
    refine ⟨hnone, Table.view_setBlock_some hlt b, ?_, ?_, rfl, (List.nodup_cons.mp nodup).1⟩
    · rw [numbered, Table.size_setBlock]
      exact hlt
    · rw [numbered, Table.size_setBlock]
  | nil =>
    refine ⟨?_, Table.view_push _ b, ?_, ?_, rfl, List.not_mem_nil⟩
    · have hnone : t.block? t.blocks.size = none := by
        rw [Table.block?, Array.getElem?_eq_none (Nat.le_refl _)]
        rfl
      simp only [numbered, Table.view, hnone, Option.map_none]
    · simp [numbered]
    · simp [numbered]

/-! ### Placing -/

/-- Linking the exits of a new block to the blocks that an index gives for their addresses, the
`i`-th first; the others wait. -/
def linkSites (index : List (Word × Nat)) (id : Nat) :
    List Site → Nat → Table → Buffer → Except Crash (Table × Buffer)
  | [], _, t, b => return (t, b)
  | s :: rest, i, t, b =>
    match index.lookup s.target with
    | some dst => do
      let (t, b) ← t.link b ⟨id, i⟩ dst
      linkSites index id rest (i + 1) t b
    | none => linkSites index id rest (i + 1) (t.await s.target ⟨id, i⟩) b

theorem linkExits_eq (id : Nat) (sites : List Site) (i : Nat) (c : CodeCache) :
  linkExits id sites i c = (linkSites c.index id sites i c.table c.buffer).map fun r =>
    { c with table := r.1, buffer := r.2 }
  := by
  induction sites generalizing i c with
  | nil => rfl
  | cons s sites ih =>
    unfold linkExits linkSites
    cases c.index.lookup s.target with
    | none => exact ih (i + 1) _
    | some dst =>
      dsimp only
      cases c.table.link c.buffer ⟨id, i⟩ dst with
      | error crash => rfl
      | ok r => exact ih (i + 1) _

theorem linkSites_relinked (index : List (Word × Nat)) (id : Nat) (sites : List Site) (i : Nat)
    (t : Table) (b : Buffer) :
  Meets False (linkSites index id sites i t b) fun r => Relinked t b r.1 r.2
  := by
  induction sites generalizing i t b with
  | nil => exact .ok (.refl _ _)
  | cons s sites ih =>
    unfold linkSites
    split
    case h_1 dst hdst =>
      refine (Table.link_relinked _ _ _ _).bind ?_
      rintro ⟨t', b'⟩ h
      exact (ih (i + 1) t' b').imp fun r h' => h.trans h'
    case h_2 =>
      have h : Relinked t b (t.await s.target ⟨id, i⟩) b :=
        ⟨rfl, rfl, rfl, Nat.le_refl _, fun _ _ => rfl⟩
      exact (ih (i + 1) _ b).imp fun r h' => h.trans h'

/-- Writing the code of a block at an offset, where there is room for `need` bytes. -/
def write (c : CodeCache) (block : Block) (start need : Nat) : Except Crash (List Site × Buffer) := do
  let b ← c.buffer.seek start
  let b ← b.reserve need
  emitBlock c.frame c.services block b

/-- Making all links from and to a new block: its own exits, and those that wait for it. -/
def connect (index : List (Word × Nat)) (pc : Word) (id : Nat) (sites : List Site) (t : Table)
    (b : Buffer) : Except Crash (Table × Buffer) := do
  let (t, b) ← linkSites index id sites 0 t b
  let (waiting, t) := t.takeAwaiting pc
  Table.linkAll id waiting t b

/-- Taking up a block whose code was written. -/
def settle (c : CodeCache) (block : Block) (start : Nat) (sites : List Site) (b : Buffer) :
    Except Crash (Nat × CodeCache) := do
  let (id, free, table) := numbered c.table (.ofBlock block start b.offset sites) c.free
  let index := (block.pc, id) :: c.index
  let (table, buffer) ← connect index block.pc id sites table b.release
  return (id, { c with
    table, free, index
    buffer := buffer.endWrite
    head := Size.roundUp b.offset alignment
    jumpCache := c.jumpCache.insert block.pc id
    queue := c.queue ++ [id]
    compiled := c.compiled + 1 })

theorem place_eq (c : CodeCache) (block : Block) (start need : Nat) :
  c.place block start need = c.write block start need >>= fun r => c.settle block start r.1 r.2
  := by
  unfold place write settle connect
  simp only [bind_assoc]
  apply bind_congr
  intro b₁
  apply bind_congr
  intro b₂
  apply bind_congr
  rintro ⟨sites, b⟩
  dsimp only
  rw [number_eq, linkExits_eq]
  dsimp only
  rw [show b.release.offset = b.offset from rfl]
  generalize numbered c.table (Compiled.ofBlock block start b.offset sites) c.free = r
  obtain ⟨id, free, t⟩ := r
  cases linkSites ((block.pc, id) :: c.index) id sites 0 t b.release with
  | error crash => rfl
  | ok r => rfl

/-- The code of a block was written at an offset. -/
structure Written (c : CodeCache) (block : Block) (start need : Nat) (sites : List Site) (b : Buffer)
    (d : Draft) : Prop where
  lower : lower c.services block = (.ok (), d)
  pos : start < Item.stop start d.code
  fits : Item.stop start d.code ≤ start + need
  room : start + need ≤ c.buffer.capacity
  capacity : b.capacity = c.buffer.capacity
  grows : c.buffer.bytes.size ≤ b.bytes.size
  inside : Item.stop start d.code ≤ b.bytes.size
  offset : b.offset = Item.stop start d.code
  has : Bytes.Has b.bytes start (Item.image (Item.layoutAt c.frame.leave start d.code) start d.code)
  same : ∀ i, ¬(start ≤ i ∧ i < Item.stop start d.code) →
    Bytes.at0 b.bytes i = Bytes.at0 c.buffer.bytes i
  length : sites.length = d.exitCount
  sites : ∀ k s, sites[k]? = some s → d.IsSite start k s
  reaches : ∀ e ∈ Item.exitsAt start d.code, Item.Reaches e.2 (d.stub start e.1)

theorem write_meets {safe : Prop} {c : CodeCache} {block : Block} {start need : Nat}
    (formed : safe → block.IsFormed) (bound : safe → codeBound block ≤ need)
    (room : safe → start + need ≤ c.buffer.capacity)
    (low : safe → c.buffer.capacity ≤ 0x80000000) :
  Meets safe (c.write block start need) fun r => ∃ d, Written c block start need r.1 r.2 d
  := by
  unfold write
  refine (Meets.self fun hsafe => ?_).bind fun b₁ hseek => ?_
  · have := room hsafe
    exact ⟨_, if_pos (by omega)⟩
  obtain ⟨hstart, rfl⟩ := Buffer.seek_eq_ok hseek
  refine (Meets.self fun hsafe => ?_).bind fun b₂ hreserve => ?_
  · have hroom := room hsafe
    have hlow := low hsafe
    have hsum : Size.sum start need = .ok (start + need) := if_pos (by rw [Word.count]; omega)
    rw [Buffer.reserve, hsum, Except.ok_bind, if_pos hroom]
    exact ⟨_, rfl⟩
  obtain ⟨hneed, rfl⟩ := Buffer.reserve_eq_ok hreserve
  refine (emitBlock_meets formed (fun hsafe => ?_) fun hsafe => ?_).imp ?_
  · exact Nat.add_le_add_left (bound hsafe) start
  · have hbound := bound hsafe
    have hroom := room hsafe
    have hlow := low hsafe
    omega
  rintro ⟨sites, b⟩ ⟨d, h⟩
  have hbuffer := h.buffer
  dsimp only at hbuffer
  have hlength := Item.add_length_image (Item.layoutAt c.frame.leave start d.code) start d.code
  refine ⟨d, h.lower, h.lt_stop, h.fits, hneed, ?_, ?_, ?_, ?_, ?_, ?_, h.length, h.sites,
    h.reaches⟩
  · dsimp only
    rw [hbuffer, Buffer.capacity_overwrite]
  · dsimp only
    rw [hbuffer, Buffer.size_overwrite]
    exact Nat.le_max_left _ _
  · dsimp only
    rw [hbuffer, Buffer.size_overwrite, hlength]
    exact Nat.le_max_right _ _
  · dsimp only
    rw [hbuffer, Buffer.offset_overwrite]
  · dsimp only
    rw [hbuffer]
    exact Buffer.has_overwrite _ _ _
  · intro i hi
    dsimp only
    rw [hbuffer, Buffer.at0_overwrite, if_neg]
    rw [hlength]
    exact hi

/-- A block was placed and given a number. -/
structure Places (b : Compiled) (c : CodeCache) (id : Nat) (c' : CodeCache) : Prop
    extends Steady c c' where
  fresh : c.table.view.bare id = none
  bare : c'.table.view.bare = Function.update c.table.view.bare id (some b)
  lt : id < c'.table.blocks.size
  size : c.table.blocks.size ≤ c'.table.blocks.size
  queue : c'.queue = c.queue ++ [id]
  free : c'.free = c.free.tail
  not_free : id ∉ c.free.tail
  head : c'.head = Size.roundUp (b.entry + b.size) alignment
  grows : c.buffer.bytes.size ≤ c'.buffer.bytes.size
  inside : b.entry + b.size ≤ c'.buffer.bytes.size
  bytes : ∀ i, ¬c.IsLinkByte i → ¬(b.entry ≤ i ∧ i < b.entry + b.size) →
    Bytes.at0 c'.buffer.bytes i = Bytes.at0 c.buffer.bytes i

theorem bare_ofBlock (block : Block) (start stop : Nat) (sites : List Site) :
  (Compiled.ofBlock block start stop sites).bare = .ofBlock block start stop sites
  := by
  simp [Compiled.bare, Compiled.ofBlock, Function.comp_def]

/-- The jumps of a block that was written are within its code. -/
theorem Written.sites_within {c : CodeCache} {block : Block} {start need : Nat} {sites : List Site}
    {b : Buffer} {d : Draft} (h : Written c block start need sites b d) {x : Exit}
    (hx : x ∈ (Compiled.ofBlock block start (Item.stop start d.code) sites).exits) :
  start ≤ x.site.jump ∧ x.site.jump + jumpSize ≤ Item.stop start d.code
  := by
  obtain ⟨s, hs, rfl⟩ := List.mem_map.mp hx
  obtain ⟨k, hk⟩ := List.mem_iff_getElem?.mp hs
  obtain ⟨hlow, hhigh, -⟩ := Item.mem_exitsAt (h.sites k s hk).jump
  exact ⟨hlow, hhigh⟩

theorem connect_relinked (index : List (Word × Nat)) (pc : Word) (id : Nat) (sites : List Site)
    (t : Table) (b : Buffer) :
  Meets False (connect index pc id sites t b) fun r => Relinked t b r.1 r.2
  := by
  refine (linkSites_relinked index id sites 0 t b).bind ?_
  rintro ⟨t₁, b₁⟩ h
  have h' : Relinked t₁ b₁ (t₁.takeAwaiting pc).2 b₁ :=
    ⟨rfl, rfl, rfl, Nat.le_refl _, fun _ _ => rfl⟩
  exact (Table.linkAll_relinked id _ _ _).imp fun r hr => (h.trans h').trans hr

theorem settle_places {c : CodeCache} (dir : c.Directory) {block : Block} {start need : Nat}
    {sites : List Site} {b : Buffer} {d : Draft} (written : Written c block start need sites b d) :
  Meets False (c.settle block start sites b) fun r =>
    Places (.ofBlock block start (Item.stop start d.code) sites) c r.1 r.2
  := by
  have hnumbers := numbers_numbered dir.free_nodup dir.free (.ofBlock block start b.offset sites)
  unfold settle
  rw [written.offset] at hnumbers ⊢
  generalize numbered c.table (Compiled.ofBlock block start (Item.stop start d.code) sites) c.free = r
    at hnumbers ⊢
  obtain ⟨id, free, t⟩ := r
  dsimp only
  refine (connect_relinked _ block.pc id sites t b.release).bind ?_
  rintro ⟨t', b'⟩ h
  have hbare : t.view.bare = Function.update c.table.view.bare id
      (some (.ofBlock block start (Item.stop start d.code) sites)) := by
    have hview := hnumbers.view
    dsimp only at hview
    rw [hview, View.insert, bare_ofBlock]
  have hsize : start + (Item.stop start d.code - start) = Item.stop start d.code := by
    have := written.pos
    omega
  refine .ok ⟨⟨rfl, rfl, rfl, h.capacity.trans written.capacity⟩, hnumbers.fresh,
    h.bare.trans hbare, ?_, ?_, rfl, hnumbers.left, hnumbers.not_free, ?_,
    written.grows.trans h.grows, ?_, fun i hi hout => ?_⟩
  · rw [h.size]
    exact hnumbers.lt
  · rw [h.size]
    exact hnumbers.size
  · exact congrArg (Size.roundUp · alignment) hsize.symm
  · exact hsize.trans_le (written.inside.trans h.grows)
  · change ¬(start ≤ i ∧ i < start + (Item.stop start d.code - start)) at hout
    rw [hsize] at hout
    refine (h.bytes i fun j b'' hb'' x hx hlink => ?_).trans (written.same i hout)
    rw [hbare, Function.update_apply] at hb''
    split at hb''
    · cases hb''
      have := written.sites_within hx
      omega
    · exact hi ⟨j, b'', hb'', x, hx, hlink⟩

theorem Places.directory {b : Compiled} {c c' : CodeCache} {id : Nat} (h : Places b c id c')
    (dir : c.Directory) :
  c'.Directory
  := by
  have hnot : id ∉ c.queue := by
    rw [dir.mem_queue, h.fresh]
    simp
  refine ⟨?_, fun j => ?_, ?_, fun j hj => ?_⟩
  · rw [h.queue]
    exact List.nodup_append.mpr ⟨dir.nodup, List.nodup_singleton id, by
      rintro j hj _ hid rfl
      exact hnot (List.mem_singleton.mp hid ▸ hj)⟩
  · rw [h.queue, h.bare, List.mem_append, dir.mem_queue, List.mem_singleton, Function.update_apply]
    by_cases hj : j = id
    · simp [hj]
    · simp [hj]
  · rw [h.free]
    exact dir.free_nodup.sublist (List.tail_sublist _)
  · rw [h.free] at hj
    obtain ⟨hlt, hnone⟩ := dir.free j (List.mem_of_mem_tail hj)
    refine ⟨Nat.lt_of_lt_of_le hlt h.size, ?_⟩
    have hne : j ≠ id := fun heq => h.not_free (heq ▸ hj)
    rw [h.bare, Function.update_of_ne hne, hnone]

end CodeCache

end CrossHart
