import CrossHart.Proofs.Cache.Runs

/-!
# Finding blocks

Blocks are found through the index and, in front of it, the jump cache, while the queue has the
numbers of the blocks that are there and the free list those of the blocks that are gone.  All of
these are changed apart from each other, and agree after each operation.
-/

namespace CrossHart.CodeCache

open Cache Host

variable {c c' : CodeCache}

/-- All blocks can be found, at their addresses only, and all numbers without a block are free. -/
structure Registered (c : CodeCache) : Prop where
  index : Indexes c.index c.table.view.bare
  jumps : ∀ pc id, c.jumpCache.lookup pc = some id → c.index.lookup pc = some id
  free : ∀ id < c.table.blocks.size, c.table.view.bare id = none → id ∈ c.free

/-! ### Evicting -/

/-- How the index and the jump cache change when a block is evicted. -/
theorem evict_forgets (c : CodeCache) (id : Nat) :
  Meets False (c.evict id) fun c' => ∃ gone, c.table.view.bare id = some gone ∧
    c'.index = (if c.index.lookup gone.pc = some id then c.index.filter fun p => p.1 ≠ gone.pc
      else c.index) ∧
    c'.jumpCache = c.jumpCache.remove gone.pc
  := by
  unfold evict
  split
  case h_1 => exact not_false
  case h_2 gone hgone =>
    refine (Meets.self False.elim).bind ?_
    rintro ⟨t, b⟩ -
    refine (Meets.self False.elim).bind fun t' _ => ?_
    exact .ok ⟨gone.bare, Table.bare_of_block? hgone, rfl, rfl⟩

theorem evict_registered (registered : c.Registered) (id : Nat) :
  Meets False (c.evict id) Registered
  := by
  refine ((evict_evicts c id).and (evict_forgets c id)).imp ?_
  rintro c' ⟨evicts, gone, hgone, hindex, hjumps⟩
  have hlookup : c.index.lookup gone.pc = some id := (registered.index _ _).mpr ⟨gone, hgone, rfl⟩
  rw [if_pos hlookup] at hindex
  refine ⟨?_, fun pc j hj => ?_, fun j hj hnone => ?_⟩
  · rw [hindex]
    apply registered.index.remove hgone
    intro j
    rw [evicts.bare]
    simp
  · rw [hjumps] at hj
    obtain ⟨hpc, hold⟩ := lookup_remove hj
    rw [hindex, lookup_filter_ne, if_neg hpc]
    exact registered.jumps pc j hold
  · rw [evicts.free]
    rw [evicts.size] at hj
    rw [evicts.bare] at hnone
    by_cases hid : j ∈ [id]
    · exact List.mem_append_left _ (List.mem_reverse.mpr hid)
    · rw [if_neg hid] at hnone
      exact List.mem_append_right _ (registered.free j hj hnone)

theorem evictAll_registered (registered : c.Registered) (ids : List Nat) :
  Meets False (evictAll ids c) Registered
  := by
  induction ids generalizing c with
  | nil => exact .ok registered
  | cons id ids ih => exact (evict_registered registered id).bind fun c₁ h => ih h

theorem evictOldest_registered (registered : c.Registered)
    (inTheWay : Compiled → Except Crash Bool) (queue : List Nat) :
  Meets False (evictOldest inTheWay queue c) Registered
  := by
  induction queue generalizing c with
  | nil => exact .ok registered
  | cons oldest rest ih =>
    unfold evictOldest
    split
    case h_1 => exact .ok registered
    case h_2 b hb =>
      refine (Meets.self False.elim).bind fun r _ => ?_
      cases r with
      | false => exact .ok registered
      | true =>
        have hregistered : ({ c with queue := rest } : CodeCache).Registered :=
          ⟨registered.index, registered.jumps, registered.free⟩
        refine (evict_registered hregistered oldest).bind fun c₁ h => ?_
        exact ih (c := { c₁ with evicted := c₁.evicted + 1 }) ⟨h.index, h.jumps, h.free⟩

/-! ### Installing -/

/-- The number that a block gets is the only one that is no longer free. -/
theorem mem_free_of_numbered {t : Table} {free : List Nat}
    (covers : ∀ id < t.blocks.size, t.view.bare id = none → id ∈ free) (b : Compiled) {j : Nat}
    (hj : j < (numbered t b free).2.2.blocks.size) (hne : j ≠ (numbered t b free).1)
    (hnone : t.view.bare j = none) :
  j ∈ (numbered t b free).2.1
  := by
  cases free with
  | nil =>
    simp only [numbered, Array.size_push] at hj hne
    exact covers j (by omega) hnone
  | cons id free =>
    simp only [numbered, Table.size_setBlock] at hj hne
    obtain hid | hmem := List.mem_cons.mp (covers j hj hnone)
    · exact absurd hid hne
    · exact hmem

theorem settle_registered (registered : c.Registered) (dir : c.Directory) {block : Block}
    (absent : c.index.lookup block.pc = none) (start : Nat) (sites : List Site) (b : Buffer) :
  Meets False (c.settle block start sites b) fun r => r.2.Registered
  := by
  have hnumbers := numbers_numbered dir.free_nodup dir.free (.ofBlock block start b.offset sites)
  have hcovers (j : Nat) := mem_free_of_numbered registered.free (.ofBlock block start b.offset sites)
    (j := j)
  unfold settle
  generalize numbered c.table (Compiled.ofBlock block start b.offset sites) c.free = r
    at hnumbers hcovers ⊢
  obtain ⟨id, free, t⟩ := r
  dsimp only at hcovers ⊢
  have hbare (j : Nat) : t.view.bare j =
      if j = id then some (.ofBlock block start b.offset sites) else c.table.view.bare j := by
    rw [show t.view = _ from hnumbers.view, View.bare_insert, bare_ofBlock]
  have hindex : Indexes ((block.pc, id) :: c.index) t.view.bare :=
    registered.index.insert absent hnumbers.fresh hbare
  refine (connect_relinked _ block.pc id sites t b.release).bind ?_
  rintro ⟨t', b'⟩ relinked
  refine .ok ⟨?_, fun pc j hj => ?_, fun j hj hnone => ?_⟩
  · dsimp only
    rw [relinked.bare]
    exact hindex
  · dsimp only at hj ⊢
    rw [lookup_cons_eq]
    obtain ⟨rfl, rfl⟩ | hj := lookup_insert hj
    · exact if_pos rfl
    · have hfound := registered.jumps pc j hj
      rw [if_neg, hfound]
      rintro rfl
      cases hfound.symm.trans absent
  · dsimp only at hj hnone ⊢
    rw [relinked.size] at hj
    rw [relinked.bare, hbare] at hnone
    split at hnone
    · cases hnone
    case isFalse hne => exact hcovers j hj hne hnone

theorem install_registered (registered : c.Registered) (arena : c.Arena) (block : Block) :
  Meets False (c.install block) fun r => r.2.Registered
  := by
  rw [install_eq]
  split
  case isTrue => exact .ok registered
  case isFalse =>
    split
    case isTrue => exact not_false
    case isFalse habsent =>
      have hroom : Meets False (c.makeRoom (codeBound block)) Registered := by
        refine (Meets.self False.elim).bind fun buffer _ => ?_
        exact evictOldest_registered (c := { c with buffer })
          ⟨registered.index, registered.jumps, registered.free⟩ _ _
      refine (hroom.and (makeRoom_meets arena _)).bind ?_
      rintro c₁ ⟨hregistered, gone, old, new, makes⟩
      dsimp only
      rw [makes.isClear arena, Except.ok_bind, place_eq]
      simp only [Bool.not_true, Bool.false_eq_true, if_false, bind_assoc]
      have habsent' := registered.index.lookup_eq_none hregistered.index makes.toEvictsAll
        (Option.not_isSome_iff_eq_none.mp habsent)
      refine (Meets.self False.elim).bind ?_
      rintro ⟨sites, b⟩ -
      refine (settle_registered hregistered (makes.arena arena).toDirectory habsent' _ sites b).bind ?_
      rintro ⟨id, c'⟩ h
      exact .ok h

/-! ### The other operations -/

theorem lookup_registered (registered : c.Registered) (pc : Word) :
  (c.lookup pc).2.Registered
  := by
  have hjumps := lookup_jumps registered.jumps pc
  rw [lookup_snd]
  exact ⟨registered.index, hjumps, registered.free⟩

theorem invalidate_registered (registered : c.Registered) (start len : Word) :
  Meets False (c.invalidate start len) fun r => r.2.Registered
  := by
  unfold invalidate
  dsimp only
  split
  case isTrue => exact .ok registered
  case isFalse =>
    refine (Meets.self False.elim).bind fun buffer _ => ?_
    refine (evictAll_registered (c := { c with buffer })
      ⟨registered.index, registered.jumps, registered.free⟩ _).bind fun c₁ h => ?_
    exact .ok ⟨h.index, h.jumps, h.free⟩

/-- An empty cache. -/
theorem Registered.of_empty (table : c.table.blocks = #[]) (index : c.index = [])
    (jumps : c.jumpCache = .empty) :
  c.Registered
  := by
  refine ⟨fun pc id => ?_, fun pc id hid => ?_, fun id hid => ?_⟩
  · rw [index]
    simp [Table.view, Table.block?, table]
  · rw [jumps, lookup_empty] at hid
    cases hid
  · rw [table] at hid
    cases hid

theorem Created.registered {size : Nat} {eviction : Eviction} {services : Services}
    (h : Created size eviction services c) :
  c.Registered
  := by
  refine .of_empty ?_ h.index h.jumpCache
  rw [h.table]

/-! ### Operations one after the other -/

theorem on_registered (registered : c.Registered) (arena : c.Arena) (op : Operation) :
  Meets False (op.on c) Registered
  := by
  cases op with
  | install block => exact (install_registered registered arena block).map
  | lookup pc => exact .ok (lookup_registered registered pc)
  | invalidate start len => exact (invalidate_registered registered start len).map
  | flush => exact .ok (.of_empty rfl rfl rfl)

theorem runs_registered {admits : CodeCache → Operation → Prop} {c₀ : CodeCache}
    (registered : c₀.Registered) (arena : c₀.Arena) (runs : Runs admits c₀ c) :
  c.Registered
  := by
  induction runs with
  | refl => exact registered
  | step runs _ on ih => exact (on_registered ih (runs_arena arena runs).1 _).post_of_eq on

/-- Looking up an address finds the block there if there is one and nothing otherwise, whatever the
jump cache holds.  The queue has the number of each block once and nothing else, and the free list
has each number without a block once and nothing else.  Looking up changes no answer. -/
structure Coherent (c : CodeCache) : Prop where
  lookup_iff : ∀ pc id, (c.lookup pc).1 = some id ↔ ∃ b, c.block? id = some b ∧ b.pc = pc
  unique : ∀ i j a b, c.block? i = some a → c.block? j = some b → a.pc = b.pc → i = j
  jumps : ∀ pc id, c.jumpCache.lookup pc = some id → c.index.lookup pc = some id
  queue : ∀ id, c.queue.count id = if (c.block? id).isSome then 1 else 0
  free : ∀ id, c.free.count id = if id < c.table.blocks.size ∧ c.block? id = none then 1 else 0
  lookup_only : ∀ pc, (c.lookup pc).2 = { c with jumpCache := (c.lookup pc).2.jumpCache }
  lookup_lookup : ∀ pc pc', ((c.lookup pc).2.lookup pc').1 = (c.lookup pc').1

theorem Registered.coherent (registered : c.Registered) (dir : c.Directory) :
  c.Coherent
  := by
  have hbare (id : Nat) : (c.table.view.bare id).isSome = (c.block? id).isSome := Option.isSome_map
  have hnone (id : Nat) : c.table.view.bare id = none ↔ c.block? id = none := Option.map_eq_none_iff
  have hiff (pc : Word) (id : Nat) : (c.lookup pc).1 = some id ↔
      ∃ b, c.block? id = some b ∧ b.pc = pc := by
    rw [lookup_eq registered.jumps, registered.index]
    constructor
    · rintro ⟨b, hb, hpc⟩
      obtain ⟨b', hb', rfl⟩ := Table.bare_eq_some.mp hb
      exact ⟨b', hb', hpc⟩
    · rintro ⟨b, hb, hpc⟩
      exact ⟨b.bare, Table.bare_of_block? hb, hpc⟩
  refine ⟨hiff, fun i j a b ha hb hpc => ?_, registered.jumps, fun id => ?_, fun id => ?_,
    lookup_snd c, fun pc pc' => ?_⟩
  · have hi := (hiff b.pc i).mpr ⟨a, ha, hpc⟩
    have hj := (hiff b.pc j).mpr ⟨b, hb, rfl⟩
    exact Option.some.inj (hi.symm.trans hj)
  · rw [dir.nodup.count]
    apply if_congr _ rfl rfl
    rw [dir.mem_queue, hbare]
  · rw [dir.free_nodup.count]
    apply if_congr _ rfl rfl
    rw [← hnone]
    exact ⟨dir.free id, fun h => registered.free id h.1 h.2⟩
  · rw [lookup_eq (lookup_registered registered pc).jumps, lookup_eq registered.jumps, lookup_snd]

/-- Whatever operations lead from a new cache to, looking up blocks in it is coherent. -/
theorem lookup_coherent_in_runs {size : Nat} {eviction : Eviction} {services : Services}
    {platform : Platform} {c₀ c : CodeCache}
    (created : create size eviction services platform = .ok (some c₀))
    (runs : Runs (fun _ _ => True) c₀ c) :
  c.Coherent
  := by
  have hcreated := created_of_create created
  exact (runs_registered hcreated.registered hcreated.arena runs).coherent
    (runs_arena hcreated.arena runs).1.toDirectory

/-- A block at an address with the same place in the jump cache as that of `loop`. -/
def rival : Block := ⟨0x2000, [⟨0x2000, 0xa001, .jal 0 0, 2⟩], .jump⟩

/-- Two blocks that share their place in the jump cache are both found. -/
theorem lookup_coherent_with_rival :
  ∃ c₀ c₁ c i j, create 0x10000 .fifo .standard = .ok (some c₀) ∧
    c₀.install loop = .ok (.ok i, c₁) ∧ c₁.install rival = .ok (.ok j, c) ∧
    Runs (fun _ _ => True) c₀ c ∧ jumpSlot loop.pc = jumpSlot rival.pc ∧ c.Coherent
  := by
  obtain ⟨c₀, created⟩ := exists_create (by decide : Platform.standard.Affords 0x10000) .fifo .standard
  have hcreated := created_of_create created
  have hloop : loop.WasFormed := ⟨Unit, fun _ => pure 0xa001, (), (), 0, 8, rfl⟩
  have hrival : rival.WasFormed := ⟨Unit, fun _ => pure 0xa001, (), (), 0x2000, 8, rfl⟩
  have hcapacity : c₀.buffer.capacity = 0x10000 := hcreated.capacity
  obtain ⟨i, c₁, hfirst, hon₁, hintact₁, hhead₁, hcapacity₁, b₁, -, hpc₁, -, -, hblocks₁⟩ :=
    exists_install (hcreated.intact (by decide)) hloop (by rw [hcreated.index]; rfl)
      (by rw [hcreated.head, hcapacity]; decide)
  have habsent : c₁.index.lookup rival.pc = none := by
    cases hid : c₁.index.lookup rival.pc with
    | none => rfl
    | some id =>
      obtain ⟨b, hb, hpc⟩ := (hintact₁.linked.index _ _).mp hid
      obtain rfl | hb := hblocks₁ id b hb
      · cases hpc₁.symm.trans hpc
      · simp [hcreated.table, Table.view, Table.block?] at hb
  have hroom : c₁.head + codeBound rival ≤ c₁.buffer.capacity := by
    rw [hcreated.head] at hhead₁
    rw [hcapacity₁, hcapacity]
    exact (Nat.add_le_add_right hhead₁ _).trans (by decide)
  obtain ⟨j, c, hsecond, hon, -⟩ := exists_install hintact₁ hrival habsent hroom
  have hruns : Runs (fun _ _ => True) c₀ c := .step (.step .refl trivial hon₁) trivial hon
  exact ⟨c₀, c₁, c, i, j, created, hfirst, hsecond, hruns, by decide,
    lookup_coherent_in_runs created hruns⟩

end CrossHart.CodeCache
