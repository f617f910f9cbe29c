import CrossHart.Proofs.Cache.Code

/-!
# The graph of links

An exit is linked to a block, which knows of it, or waits for an address at which there is no block.
Each operation of the cache keeps this, and finds nothing broken while it does.
-/

namespace CrossHart.Cache

open Host

/-- Each exit is linked and known where it is linked to, or waits; all of this once.  Loose exits do
neither. -/
structure Graph (loose : ExitRef → Prop) (v : View) : Prop where
  incoming : ∀ e dst, e ∈ v.incoming dst ↔ ∃ x, v.exit e = some x ∧ x.linked = some dst
  pending : ∀ pc e, (pc, e) ∈ v.pending ↔
    ¬loose e ∧ ∃ x, v.exit e = some x ∧ x.linked = none ∧ x.site.target = pc
  incoming_nodup : ∀ dst, (v.incoming dst).Nodup
  pending_nodup : v.pending.Nodup
  linked : ∀ e x dst, v.exit e = some x → x.linked = some dst →
    ∃ b, v.bare dst = some b ∧ b.pc = x.site.target
  free : ∀ e, loose e → ∃ x, v.exit e = some x ∧ x.linked = none

namespace Graph

variable {loose : ExitRef → Prop} {v : View} {e : ExitRef} {x : Exit}

/-- A loose exit was linked. -/
theorem link (h : Graph loose v) (he : loose e) (hx : v.exit e = some x) {dst : Nat} {b : Compiled}
    (hdst : v.bare dst = some b) (hpc : b.pc = x.site.target) :
  Graph (fun f => loose f ∧ f ≠ e) (v.link e x dst)
  := by
  have hfree : x.linked = none := by
    obtain ⟨x', hx', hfree⟩ := h.free e he
    cases hx.symm.trans hx'
    exact hfree
  have hnot : e ∉ v.incoming dst := by
    rw [h.incoming]
    rintro ⟨x', hx', hlinked⟩
    cases hx.symm.trans hx'
    rw [hfree] at hlinked
    cases hlinked
  have hexit (f : ExitRef) : (v.link e x dst).exit f =
      if f = e then some { x with linked := some dst } else v.exit f :=
    Function.update_apply _ _ _ _
  have hincoming (j : Nat) : (v.link e x dst).incoming j =
      if j = dst then v.incoming dst ++ [e] else v.incoming j :=
    Function.update_apply _ _ _ _
  have hpending : (v.link e x dst).pending = v.pending := rfl
  refine ⟨fun f j => ?_, fun pc f => ?_, fun j => ?_, h.pending_nodup, fun f y j hy hj => ?_,
    fun f hf => ?_⟩
  · rw [hexit, hincoming]
    have := h.incoming f j
    grind
  · rw [hexit, hpending, h.pending]
    grind
  · rw [hincoming]
    split
    · exact List.nodup_append.mpr ⟨h.incoming_nodup dst, List.nodup_singleton e, by grind⟩
    · exact h.incoming_nodup j
  · rw [hexit] at hy
    change ∃ c, v.bare j = some c ∧ _
    split at hy
    · cases hy
      cases hj
      exact ⟨b, hdst, hpc⟩
    · exact h.linked f y j hy hj
  · obtain ⟨y, hy, hyfree⟩ := h.free f hf.1
    refine ⟨y, ?_, hyfree⟩
    rw [hexit, if_neg hf.2, hy]

/-- A loose exit was made to wait. -/
theorem await (h : Graph loose v) (he : loose e) (hx : v.exit e = some x) :
  Graph (fun f => loose f ∧ f ≠ e) { v with pending := v.pending ++ [(x.site.target, e)] }
  := by
  have hfree : x.linked = none := by
    obtain ⟨x', hx', hfree⟩ := h.free e he
    cases hx.symm.trans hx'
    exact hfree
  refine ⟨h.incoming, fun pc f => ?_, h.incoming_nodup, ?_, h.linked, fun f hf => h.free f hf.1⟩
  · have := h.pending pc f
    grind
  · refine List.nodup_append.mpr ⟨h.pending_nodup, List.nodup_singleton _, ?_⟩
    have := h.pending x.site.target e
    grind

/-- The exits that wait for an address no longer wait. -/
theorem take (h : Graph (fun _ => False) v) (pc : Word) :
  Graph (fun e => (pc, e) ∈ v.pending) { v with pending := v.pending.filter fun p => p.1 ≠ pc }
  := by
  refine ⟨h.incoming, fun pc' e => ?_, h.incoming_nodup, h.pending_nodup.filter _, h.linked,
    fun e he => ?_⟩
  · have hpc := h.pending pc e
    have hpc' := h.pending pc' e
    simp only [List.mem_filter]
    grind
  · obtain ⟨-, x, hx, hfree, -⟩ := (h.pending pc e).mp he
    exact ⟨x, hx, hfree⟩

/-- A block was added, whose exits are all loose. -/
theorem insert (h : Graph (fun _ => False) v) {id : Nat} {c : Compiled} (fresh : v.bare id = none)
    (exits : ∀ e, e.block = id → v.exit e = none) (incoming : c.incoming = [])
    (free : ∀ x ∈ c.exits, x.linked = none) :
  Graph (fun e => e.block = id ∧ e.exit < c.exits.length) (v.insert id c)
  := by
  have hexit (e : ExitRef) : (v.insert id c).exit e =
      if e.block = id then c.exits[e.exit]? else v.exit e := rfl
  have hincoming (j : Nat) : (v.insert id c).incoming j =
      if j = id then c.incoming else v.incoming j :=
    Function.update_apply _ _ _ _
  have hown (e : ExitRef) (x : Exit) (hx : c.exits[e.exit]? = some x) : x.linked = none :=
    free x (List.mem_of_getElem? hx)
  have hnone (e : ExitRef) (x : Exit) (hx : v.exit e = some x) : x.linked ≠ some id := by
    intro hlinked
    obtain ⟨b, hb, -⟩ := h.linked e x id hx hlinked
    rw [fresh] at hb
    cases hb
  refine ⟨fun e j => ?_, fun pc e => ?_, fun j => ?_, h.pending_nodup, fun e x j hx hj => ?_,
    fun e he => ?_⟩
  · have hold := h.incoming e j
    rw [hexit, hincoming, incoming]
    by_cases he : e.block = id
    · have := exits e he
      have := hown e
      grind
    · have := hnone e
      grind
  · have hold := h.pending pc e
    rw [hexit, show (v.insert id c).pending = v.pending from rfl, hold]
    by_cases he : e.block = id
    · have := exits e he
      grind
    · grind
  · rw [hincoming, incoming]
    split
    · exact List.nodup_nil
    · exact h.incoming_nodup j
  · rw [hexit] at hx
    split at hx
    · rw [hown e x hx] at hj
      cases hj
    · obtain ⟨b, hb, hpc⟩ := h.linked e x j hx hj
      refine ⟨b, ?_, hpc⟩
      rw [View.bare_insert, if_neg, hb]
      rintro rfl
      exact hnone e x hx hj
  · obtain ⟨hblock, hlt⟩ := he
    have hget : c.exits[e.exit]? = some c.exits[e.exit] := List.getElem?_eq_getElem hlt
    refine ⟨c.exits[e.exit], ?_, hown e _ hget⟩
    rw [hexit, if_pos hblock, hget]

/-- The exits left when a block was evicted: those linked to it are free. -/
theorem exit_of_dropped (h : Graph (fun _ => False) v) {id : Nat} {pc : Word} {xs : List Exit}
    {w : View} (dropped : Table.Dropped id xs 0
      ((v.remove id).unlinkAll pc ((v.incoming id).filter fun e => e.block ≠ id)) w) (e : ExitRef) :
  w.exit e =
    if e.block = id then none
    else (v.exit e).map fun x => if x.linked = some id then { x with linked := none } else x
  := by
  rw [dropped.exit]
  simp only [View.unlinkAll, View.remove, List.mem_filter, h.incoming, decide_eq_true_eq]
  by_cases he : e.block = id
  · simp [he]
  · cases hx : v.exit e with
    | none => simp
    | some x =>
      by_cases hlinked : x.linked = some id
      · simp [he, hlinked]
      · simp [he, hlinked]

/-- A block was evicted: the exits linked to it wait, and its own exits are gone. -/
theorem evict (h : Graph (fun _ => False) v) {id : Nat} {gone : Compiled} {xs : List Exit}
    (hgone : v.bare id = some gone) (exits : ∀ k, v.exit ⟨id, k⟩ = xs[k]?) {w : View}
    (dropped : Table.Dropped id xs 0
      ((v.remove id).unlinkAll gone.pc ((v.incoming id).filter fun e => e.block ≠ id)) w) :
  Graph (fun _ => False) w
  := by
  have hpc (e : ExitRef) (x : Exit) (hx : v.exit e = some x) (hlinked : x.linked = some id) :
      x.site.target = gone.pc := by
    obtain ⟨b, hb, hb'⟩ := h.linked e x id hx hlinked
    cases hgone.symm.trans hb
    exact hb'.symm
  have hown (e : ExitRef) (he : e.block = id) (x : Exit) :
      (x, e.exit) ∈ xs.zipIdx 0 ↔ v.exit e = some x := by
    rw [List.mem_zipIdx_iff_getElem?, ← exits, ← he]
  refine ⟨fun e j => ?_, fun pc e => ?_, fun j => ?_, ?_, fun e x j hx hj => ?_, fun _ h => h.elim⟩
  · rw [dropped.mem_incoming, h.exit_of_dropped dropped]
    simp only [View.unlinkAll, View.remove, Function.update_apply]
    have hold := h.incoming e j
    have := hown e
    cases hx : v.exit e with
    | none => grind
    | some x => by_cases hlinked : x.linked = some id <;> grind
  · rw [dropped.mem_pending, h.exit_of_dropped dropped]
    simp only [View.unlinkAll, View.remove, List.mem_append, List.mem_map, List.mem_filter,
      h.incoming]
    have hold := h.pending pc e
    have := hown e
    have := hpc e
    cases hx : v.exit e with
    | none => grind
    | some x => by_cases hlinked : x.linked = some id <;> grind
  · refine List.Nodup.sublist (dropped.incoming j) ?_
    simp only [View.unlinkAll, View.remove, Function.update_apply]
    split
    · exact List.nodup_nil
    · exact h.incoming_nodup j
  · refine List.Nodup.sublist dropped.pending ?_
    refine List.nodup_append.mpr ⟨h.pending_nodup, ?_, ?_⟩
    · refine ((h.incoming_nodup id).filter _).map fun e f hef => ?_
      exact (Prod.mk.inj hef).2
    · rintro ⟨pc, e⟩ he _ hf rfl
      obtain ⟨f, hf, heq⟩ := List.mem_map.mp hf
      obtain ⟨-, x, hx, hfree, -⟩ := (h.pending pc e).mp he
      cases heq
      obtain ⟨x', hx', hlinked⟩ := (h.incoming e id).mp (List.mem_of_mem_filter hf)
      cases hx.symm.trans hx'
      rw [hfree] at hlinked
      cases hlinked
  · rw [h.exit_of_dropped dropped] at hx
    split at hx
    · cases hx
    · obtain ⟨y, hy, rfl⟩ := Option.map_eq_some_iff.mp hx
      split at hj
      · cases hj
      case isFalse hne =>
        rw [if_neg hne]
        obtain ⟨b, hb, hb'⟩ := h.linked e y j hy hj
        refine ⟨b, ?_, hb'⟩
        rw [dropped.bare]
        have hj : j ≠ id := fun heq => hne (heq ▸ hj)
        exact (Function.update_of_ne hj _ _).trans hb

end Graph

/-- Where an exit leads: to the block it is linked to, or to its stub. -/
def View.dest (v : View) (e : ExitRef) : Nat :=
  (v.exit e).elim 0 fun x => x.linked.elim x.site.stub fun dst => (v.bare dst).elim 0 (·.entry)

theorem dest_of_free {v : View} {e : ExitRef} {x : Exit} (hx : v.exit e = some x)
    (free : x.linked = none) :
  v.dest e = x.site.stub
  := by
  simp only [View.dest, hx, free, Option.elim_some, Option.elim_none]

theorem dest_of_linked {v : View} {e : ExitRef} {x : Exit} {dst : Nat} {b : Compiled}
    (hx : v.exit e = some x) (linked : x.linked = some dst) (hdst : v.bare dst = some b) :
  v.dest e = b.entry
  := by
  simp only [View.dest, hx, linked, hdst, Option.elim_some]

theorem dest_link {v : View} {e : ExitRef} {x : Exit} {dst : Nat} {b : Compiled}
    (hdst : v.bare dst = some b) :
  (v.link e x dst).dest = Function.update v.dest e b.entry
  := by
  funext f
  by_cases hf : f = e
  · subst hf
    rw [Function.update_self]
    exact dest_of_linked (Function.update_self _ _ _) rfl hdst
  · rw [Function.update_of_ne hf, View.dest, View.dest]
    have hexit : (v.link e x dst).exit f = v.exit f := Function.update_of_ne hf _ _
    rw [hexit]
    rfl

end CrossHart.Cache

namespace CrossHart.CodeCache

open Cache Host

/-- An index gives the block at each address. -/
def Indexes (index : List (Word × Nat)) (bare : Nat → Option Compiled) : Prop :=
  ∀ pc id, index.lookup pc = some id ↔ ∃ b, bare id = some b ∧ b.pc = pc

/-- All blocks can be found, and are linked as the code has it. -/
structure Linked (P : Block → Prop) (c : CodeCache) : Prop where
  graph : Graph (fun _ => False) c.table.view
  index : Indexes c.index c.table.view.bare
  jumps : ∀ pc id, c.jumpCache.lookup pc = some id → c.index.lookup pc = some id
  waiting : ∀ p ∈ c.table.view.pending, c.index.lookup p.1 = none
  coded : Coded P c.services c.frame.leave c.table.view.bare c.buffer.bytes c.table.view.dest

theorem lookup_cons_eq (index : List (Word × Nat)) (pc pc' : Word) (id : Nat) :
  ((pc, id) :: index).lookup pc' = if pc' = pc then some id else index.lookup pc'
  := by
  rw [List.lookup_cons]
  by_cases hpc : pc' = pc
  · rw [if_pos hpc, beq_iff_eq.mpr hpc]
  · rw [if_neg hpc, beq_false_of_ne hpc]

theorem lookup_filter_ne (index : List (Word × Nat)) (pc pc' : Word) :
  (index.filter fun p => p.1 ≠ pc).lookup pc' = if pc' = pc then none else index.lookup pc'
  := by
  induction index with
  | nil => simp
  | cons p index ih =>
    obtain ⟨a, id⟩ := p
    by_cases ha : a = pc
    · rw [List.filter_cons_of_neg (by simpa using ha), ih, lookup_cons_eq, ha]
      split <;> rfl
    · rw [List.filter_cons_of_pos (by simpa using ha), lookup_cons_eq, lookup_cons_eq, ih]
      grind

theorem Indexes.remove {index : List (Word × Nat)} {bare bare' : Nat → Option Compiled} {id : Nat}
    {gone : Compiled} (h : Indexes index bare) (hgone : bare id = some gone)
    (left : ∀ j, bare' j = if j = id then none else bare j) :
  Indexes (index.filter fun p => p.1 ≠ gone.pc) bare'
  := by
  intro pc j
  rw [lookup_filter_ne, left]
  constructor
  · intro hj
    split at hj
    · cases hj
    case isFalse hpc =>
      obtain ⟨b, hb, rfl⟩ := (h pc j).mp hj
      refine ⟨b, ?_, rfl⟩
      rw [if_neg, hb]
      rintro rfl
      cases hgone.symm.trans hb
      exact hpc rfl
  · rintro ⟨b, hb, rfl⟩
    split at hb
    · cases hb
    case isFalse hne =>
      have hj := (h _ j).mpr ⟨b, hb, rfl⟩
      rw [if_neg, hj]
      intro hpc
      rw [hpc, (h _ id).mpr ⟨gone, hgone, rfl⟩] at hj
      exact hne (Option.some.inj hj).symm

theorem Indexes.insert {index : List (Word × Nat)} {bare bare' : Nat → Option Compiled} {id : Nat}
    {new : Compiled} (h : Indexes index bare) (absent : index.lookup new.pc = none)
    (fresh : bare id = none) (added : ∀ j, bare' j = if j = id then some new else bare j) :
  Indexes ((new.pc, id) :: index) bare'
  := by
  intro pc j
  rw [lookup_cons_eq, added]
  constructor
  · intro hj
    split at hj
    case isTrue hpc =>
      cases hj
      exact ⟨new, if_pos rfl, hpc.symm⟩
    case isFalse =>
      obtain ⟨b, hb, rfl⟩ := (h pc j).mp hj
      refine ⟨b, ?_, rfl⟩
      rw [if_neg, hb]
      rintro rfl
      rw [fresh] at hb
      cases hb
  · rintro ⟨b, hb, rfl⟩
    split at hb
    case isTrue hj =>
      cases hb
      rw [if_pos rfl, hj]
    case isFalse =>
      have hj := (h _ j).mpr ⟨b, hb, rfl⟩
      rw [if_neg, hj]
      intro hpc
      rw [hpc, absent] at hj
      cases hj

theorem lookup_eq_some {j : JumpCache} {pc : Word} {id : Nat} :
  j.lookup pc = some id ↔ j.slots.get (jumpSlot pc) = some (pc, id)
  := by
  unfold JumpCache.lookup
  split
  case h_1 tag id' h =>
    have hget : j.slots.get (jumpSlot pc) = some (tag, id') := h
    rw [hget]
    grind
  case h_2 h =>
    have hget : j.slots.get (jumpSlot pc) = none := h
    rw [hget]
    simp

theorem lookup_remove {j : JumpCache} {pc pc' : Word} {id : Nat}
    (h : (j.remove pc).lookup pc' = some id) :
  pc' ≠ pc ∧ j.lookup pc' = some id
  := by
  unfold JumpCache.remove at h
  split at h
  case isTrue =>
    rw [lookup_eq_some, Vector.get_set] at h
    split at h
    case isTrue => cases h
    case isFalse hslot => exact ⟨fun heq => hslot (by rw [heq]), lookup_eq_some.mpr h⟩
  case isFalse hnone =>
    refine ⟨?_, h⟩
    rintro rfl
    rw [h] at hnone
    exact hnone rfl

theorem lookup_insert {j : JumpCache} {pc pc' : Word} {id id' : Nat}
    (h : (j.insert pc id).lookup pc' = some id') :
  (pc' = pc ∧ id' = id) ∨ j.lookup pc' = some id'
  := by
  rw [lookup_eq_some, JumpCache.insert, Vector.get_set] at h
  split at h
  case isTrue =>
    cases h
    exact .inl ⟨rfl, rfl⟩
  case isFalse => exact .inr (lookup_eq_some.mpr h)

theorem lookup_empty (pc : Word) :
  JumpCache.empty.lookup pc = none
  := by
  cases h : JumpCache.empty.lookup pc with
  | none => rfl
  | some id =>
    rw [lookup_eq_some] at h
    simp [JumpCache.empty] at h

/-! ### Evicting -/

variable {P : Block → Prop} {c : CodeCache}

/-- Where the exits lead that are left when a block was evicted. -/
theorem dest_of_dropped {v w : View} (graph : Graph (fun _ => False) v) {id : Nat} {pc : Word}
    {xs : List Exit} (dropped : Table.Dropped id xs 0
      ((v.remove id).unlinkAll pc ((v.incoming id).filter fun e => e.block ≠ id)) w)
    {e : ExitRef} (he : e.block ≠ id) :
  w.dest e =
    if e ∈ (v.incoming id).filter (fun e => e.block ≠ id) then
      ((v.remove id).exit e).elim 0 (·.site.stub)
    else v.dest e
  := by
  have hmem : e ∈ (v.incoming id).filter (fun e => e.block ≠ id) ↔
      ∃ x, v.exit e = some x ∧ x.linked = some id := by
    simp [graph.incoming, he]
  have hexit := graph.exit_of_dropped dropped e
  rw [if_neg he] at hexit
  simp only [hmem, View.remove, if_neg he]
  cases hx : v.exit e with
  | none =>
    rw [hx] at hexit
    simp [View.dest, hexit, hx]
  | some x =>
    rw [hx, Option.map_some] at hexit
    by_cases hlinked : x.linked = some id
    · rw [if_pos hlinked] at hexit
      rw [if_pos ⟨x, rfl, hlinked⟩, dest_of_free hexit rfl]
      rfl
    · rw [if_neg hlinked] at hexit
      rw [if_neg (by simpa using hlinked)]
      cases hdst : x.linked with
      | none => rw [dest_of_free hexit hdst, dest_of_free hx hdst]
      | some dst =>
        obtain ⟨b, hb, -⟩ := graph.linked e x dst hx hdst
        have hne : dst ≠ id := fun heq => hlinked (heq ▸ hdst)
        have hbare : w.bare dst = some b := by
          rw [dropped.bare]
          exact (Function.update_of_ne hne _ _).trans hb
        rw [dest_of_linked hexit hdst hbare, dest_of_linked hx hdst hb]

theorem evict_linked (linked : c.Linked P) {start : Nat}
    (spread : Spread start c.buffer.capacity c.table.view.bare) {id : Nat}
    (live : (c.table.view.bare id).isSome) :
  Meets True (c.evict id) fun c' => c'.Linked P
  := by
  have graph := linked.graph
  unfold evict
  split
  case h_1 hnone =>
    obtain ⟨b, hb⟩ := Option.isSome_iff_exists.mp live
    obtain ⟨b', hb', -⟩ := Table.bare_eq_some.mp hb
    cases hb'.symm.trans hnone
  case h_2 gone hgone =>
    have hgone : c.table.block? id = some gone := hgone
    have hbare := Table.bare_of_block? hgone
    have hview := Table.view_setBlock_none (Table.lt_size hgone)
    have hleft (j : Nat) (b : Compiled) (hb : (c.table.setBlock id none).view.bare j = some b) :
        j ≠ id ∧ c.table.view.bare j = some b := by
      rw [hview, View.bare_remove] at hb
      split at hb
      · cases hb
      case isFalse hj => exact ⟨hj, hb⟩
    have hexits (k : Nat) : c.table.view.exit ⟨id, k⟩ = gone.exits[k]? := by
      simp only [Table.view, hgone, Option.bind_some]
    rw [← Table.incoming_of_block? hgone]
    refine (Table.unlinkAll_wired gone.pc ((graph.incoming_nodup id).filter _)
      (linked.coded.of_bare fun j b hb => (hleft j b hb).2)
      (spread.of_bare fun j b hb => (hleft j b hb).2) fun e he => ?_).bind ?_
    · obtain ⟨hmem, hne⟩ := List.mem_filter.mp he
      obtain ⟨x, hx, hlinked⟩ := (graph.incoming e id).mp hmem
      obtain ⟨b, hb, hpc⟩ := graph.linked e x id hx hlinked
      cases hbare.symm.trans hb
      have hdest := dest_of_linked hx hlinked hbare
      refine ⟨x, ?_, hpc.symm, hdest⟩
      rw [hview]
      exact (if_neg (of_decide_eq_true hne)).trans hx
    · rintro ⟨t, b⟩ ⟨hview₂, hsize₂, -, hcoded₂⟩
      dsimp only at hview₂ hsize₂ hcoded₂
      rw [hview] at hview₂ hcoded₂
      have hgoneincoming : t.view.incoming id = [] := by
        rw [hview₂]
        exact Function.update_self _ _ _
      refine (Table.dropExits_meets gone.exits 0 hgoneincoming fun _ x hx dst hdst => ?_).bind ?_
      · obtain ⟨k, hk⟩ := List.mem_iff_getElem?.mp hx
        obtain ⟨b', hb', -⟩ := graph.linked ⟨id, k⟩ x dst ((hexits k).trans hk) hdst
        obtain ⟨b'', hb'', -⟩ := Table.bare_eq_some.mp hb'
        rw [hsize₂, Table.size_setBlock]
        exact Table.lt_size hb''
      · rintro t₃ ⟨dropped, -⟩
        rw [hview₂] at dropped
        have hlookup : c.index.lookup gone.pc = some id :=
          (linked.index _ _).mpr ⟨gone.bare, hbare, rfl⟩
        have hbare₃ (j : Nat) : t₃.view.bare j = if j = id then none else c.table.view.bare j := by
          rw [dropped.bare]
          exact View.bare_remove _ _ _
        refine .ok ⟨graph.evict hbare hexits dropped, ?_, fun pc j hj => ?_, fun p hp => ?_, ?_⟩
        · dsimp only
          rw [if_pos hlookup]
          have hindex := linked.index.remove hbare hbare₃
          exact hindex
        · dsimp only at hj ⊢
          obtain ⟨hpc, hold⟩ := lookup_remove hj
          rw [if_pos hlookup, lookup_filter_ne, if_neg hpc]
          exact linked.jumps pc j hold
        · dsimp only
          rw [if_pos hlookup, lookup_filter_ne]
          obtain hp | hp := List.mem_append.mp (dropped.pending.subset hp)
          · rw [linked.waiting p hp, ite_self]
          · obtain ⟨e, -, rfl⟩ := List.mem_map.mp hp
            exact if_pos rfl
        · dsimp only
          rw [dropped.bare]
          refine hcoded₂.congr_dest fun j k hj => ?_
          have hne : j ≠ id := by
            rintro rfl
            rw [View.bare_remove, if_pos rfl] at hj
            cases hj
          exact dest_of_dropped graph dropped hne

theorem EvictsAll.spread {gone : List Nat} {c c' : CodeCache} (h : EvictsAll gone c c') {start : Nat}
    (spread : Spread start c.buffer.capacity c.table.view.bare) :
  Spread start c'.buffer.capacity c'.table.view.bare
  := by
  rw [h.capacity]
  exact spread.of_bare fun id b hb => h.left hb

/-- What was not evicted is there. -/
theorem EvictsAll.isSome {gone : List Nat} {c c' : CodeCache} (h : EvictsAll gone c c') {id : Nat}
    (hid : id ∉ gone) (live : (c.table.view.bare id).isSome) :
  (c'.table.view.bare id).isSome
  := by
  rw [h.bare, if_neg hid]
  exact live

theorem evictAll_linked (linked : c.Linked P) {start : Nat}
    (spread : Spread start c.buffer.capacity c.table.view.bare) {ids : List Nat} (nodup : ids.Nodup)
    (live : ∀ id ∈ ids, (c.table.view.bare id).isSome) :
  Meets True (evictAll ids c) fun c' => c'.Linked P
  := by
  induction ids generalizing c with
  | nil => exact .ok linked
  | cons id ids ih =>
    obtain ⟨hnot, hnodup⟩ := List.nodup_cons.mp nodup
    refine ((evict_linked linked spread (live id List.mem_cons_self)).and
      (evict_evicts c id)).bind ?_
    rintro c₁ ⟨hlinked, hevicts⟩
    refine ih hlinked (hevicts.spread spread) hnodup fun j hj => ?_
    apply hevicts.isSome _ (live j (List.mem_cons_of_mem _ hj))
    intro hmem
    exact hnot (List.mem_singleton.mp hmem ▸ hj)

theorem evictOldest_linked (linked : c.Linked P) {start : Nat}
    (spread : Spread start c.buffer.capacity c.table.view.bare)
    {inTheWay : Compiled → Except Crash Bool}
    (decides : ∀ id b, c.table.view.bare id = some b → ∃ r, inTheWay b = .ok r)
    (blind : ∀ b, inTheWay b = inTheWay b.bare) {queue : List Nat} (nodup : queue.Nodup)
    (live : ∀ id ∈ queue, (c.table.view.bare id).isSome) :
  Meets True (evictOldest inTheWay queue c) fun c' => c'.Linked P
  := by
  induction queue generalizing c with
  | nil => exact .ok linked
  | cons oldest rest ih =>
    obtain ⟨hnot, hnodup⟩ := List.nodup_cons.mp nodup
    unfold evictOldest
    split
    case h_1 => exact .ok linked
    case h_2 b hb =>
      refine (Meets.self fun _ => ?_).bind fun r hr => ?_
      · rw [blind]
        exact decides oldest b.bare (Table.bare_of_block? hb)
      cases r with
      | false => exact .ok linked
      | true =>
        have hlinked : ({ c with queue := rest } : CodeCache).Linked P :=
          ⟨linked.graph, linked.index, linked.jumps, linked.waiting, linked.coded⟩
        refine ((evict_linked hlinked spread (live oldest List.mem_cons_self)).and
          (evict_evicts { c with queue := rest } oldest)).bind ?_
        rintro c₁ ⟨hlinked₁, hevicts⟩
        refine ih (c := { c₁ with evicted := c₁.evicted + 1 })
          ⟨hlinked₁.graph, hlinked₁.index, hlinked₁.jumps, hlinked₁.waiting, hlinked₁.coded⟩
          (hevicts.spread spread) (fun id b hb => decides id b (hevicts.left hb)) hnodup
          fun j hj => ?_
        apply hevicts.isSome _ (live j (List.mem_cons_of_mem _ hj))
        intro hmem
        exact hnot (List.mem_singleton.mp hmem ▸ hj)

theorem makeRoom_linked (linked : c.Linked P) (arena : c.Arena)
    (low : c.buffer.capacity ≤ 0x80000000) (mode : c.buffer.mode = .execute) (need : Nat) :
  Meets True (c.makeRoom need) fun c₁ => c₁.Linked P
  := by
  refine (Meets.self fun _ => ⟨_, if_pos mode⟩).bind fun buffer hbuffer => ?_
  have hlinked : ({ c with buffer } : CodeCache).Linked P := by
    obtain ⟨-, rfl⟩ := Buffer.beginWrite_eq_ok hbuffer
    exact ⟨linked.graph, linked.index, linked.jumps, linked.waiting, linked.coded⟩
  have hspread : Spread c.frame.start buffer.capacity c.table.view.bare := by
    obtain ⟨-, rfl⟩ := Buffer.beginWrite_eq_ok hbuffer
    exact Spread.of_arena arena low
  have hblind (b : Compiled) : c.inTheWay need b = c.inTheWay need b.bare := rfl
  refine evictOldest_linked hlinked hspread (fun id b hb => ?_) hblind arena.nodup
    fun id hid => (arena.mem_queue id).mp hid
  unfold inTheWay
  split
  · exact ⟨_, rfl⟩
  · exact ⟨_, overlapsHost_eq (arena.sits id b hb) arena.host _ _⟩

/-! ### Connecting a new block -/

/-- All exits but the loose ones are linked as the code has it, or wait for addresses that satisfy
`Q`. -/
structure Joined (P : Block → Prop) (services : Services) (leave : Nat) (loose : ExitRef → Prop)
    (Q : Word → Prop) (t : Table) (b : Buffer) : Prop where
  graph : Graph loose t.view
  waiting : ∀ p ∈ t.view.pending, Q p.1
  coded : Coded P services leave t.view.bare b.bytes t.view.dest

namespace Joined

variable {services : Services} {leave start : Nat} {loose : ExitRef → Prop} {Q : Word → Prop}
  {t : Table} {b : Buffer} {e : ExitRef} {x : Exit}

/-- One loose exit is linked. -/
theorem link (h : Joined P services leave loose Q t b)
    (spread : Spread start b.capacity t.view.bare) (he : loose e) (hx : t.view.exit e = some x)
    {dst : Nat} {target : Compiled} (hdst : t.view.bare dst = some target)
    (hpc : target.pc = x.site.target) :
  Meets True (t.link b e dst) fun r =>
    Joined P services leave (fun f => loose f ∧ f ≠ e) Q r.1 r.2 ∧
      r.1.view = t.view.link e x dst ∧ r.2.capacity = b.capacity
  := by
  have hfree : x.linked = none := by
    obtain ⟨x', hx', hfree⟩ := h.graph.free e he
    cases hx.symm.trans hx'
    exact hfree
  refine (Table.link_wired h.coded spread hx hfree (dest_of_free hx hfree) hdst).imp ?_
  rintro ⟨t', b'⟩ ⟨hview, -, hcapacity, hcoded⟩
  dsimp only at hview hcapacity hcoded
  refine ⟨⟨?_, ?_, ?_⟩, hview, hcapacity⟩
  · dsimp only
    rw [hview]
    exact h.graph.link he hx hdst hpc
  · dsimp only
    rw [hview]
    exact h.waiting
  · dsimp only
    rw [hview, dest_link hdst]
    exact hcoded

/-- One loose exit waits. -/
theorem await (h : Joined P services leave loose Q t b) (he : loose e)
    (hx : t.view.exit e = some x) (hQ : Q x.site.target) :
  Joined P services leave (fun f => loose f ∧ f ≠ e) Q (t.await x.site.target e) b
  := by
  refine ⟨h.graph.await he hx, fun p hp => ?_, h.coded⟩
  obtain hp | hp := List.mem_append.mp hp
  · exact h.waiting p hp
  · rw [List.mem_singleton.mp hp]
    exact hQ

/-- Only which exits are loose counts. -/
theorem congr {loose' : ExitRef → Prop} (h : Joined P services leave loose Q t b)
    (same : ∀ e, loose e ↔ loose' e) :
  Joined P services leave loose' Q t b
  := by
  rw [show loose = loose' from funext fun e => propext (same e)] at h
  exact h

/-- The exits of a new block are linked or wait. -/
theorem linkSites {index : List (Word × Nat)} {id i : Nat} {sites : List Site}
    (h : Joined P services leave
      (fun e => e.block = id ∧ i ≤ e.exit ∧ e.exit < i + sites.length) Q t b)
    (spread : Spread start b.capacity t.view.bare)
    (there : ∀ k s, sites[k]? = some s → ∃ x, t.view.exit ⟨id, i + k⟩ = some x ∧ x.site = s)
    (found : ∀ pc dst, index.lookup pc = some dst → ∃ c, t.view.bare dst = some c ∧ c.pc = pc)
    (lost : ∀ pc, index.lookup pc = none → Q pc) :
  Meets True (CodeCache.linkSites index id sites i t b) fun r =>
    Joined P services leave (fun _ => False) Q r.1 r.2
  := by
  induction sites generalizing i t b with
  | nil =>
    refine .ok (h.congr fun e => ⟨?_, False.elim⟩)
    rintro ⟨-, hle, hlt⟩
    exact Nat.not_lt.mpr hle hlt
  | cons s sites ih =>
    obtain ⟨x, hx, rfl⟩ := there 0 s rfl
    have hfirst : (⟨id, i⟩ : ExitRef).block = id ∧ i ≤ i ∧ i < i + (x.site :: sites).length := by
      simp
    have hlater (e : ExitRef) : ((e.block = id ∧ i ≤ e.exit ∧
        e.exit < i + (x.site :: sites).length) ∧ e ≠ ⟨id, i⟩) ↔
        e.block = id ∧ i + 1 ≤ e.exit ∧ e.exit < i + 1 + sites.length := by
      obtain ⟨block, exit⟩ := e
      simp only [List.length_cons, ne_eq, ExitRef.mk.injEq]
      omega
    have hrest (k : Nat) (s : Site) (hs : sites[k]? = some s) :
        ∃ y, t.view.exit ⟨id, i + 1 + k⟩ = some y ∧ y.site = s := by
      obtain ⟨y, hy, hsite⟩ := there (k + 1) s hs
      refine ⟨y, ?_, hsite⟩
      rw [← hy, Nat.add_right_comm, Nat.add_assoc]
    unfold CodeCache.linkSites
    split
    case h_1 dst hdst =>
      obtain ⟨c, hc, hpc⟩ := found _ dst hdst
      refine (h.link spread hfirst hx hc hpc).bind ?_
      rintro ⟨t', b'⟩ ⟨hjoined, hview, hcapacity⟩
      dsimp only at hjoined hview hcapacity
      have hbare : t'.view.bare = t.view.bare := by
        rw [hview]
        rfl
      refine ih (hjoined.congr hlater) ?_ (fun k s hs => ?_) ?_
      · rw [hcapacity, hbare]
        exact spread
      · obtain ⟨y, hy, hsite⟩ := hrest k s hs
        refine ⟨y, ?_, hsite⟩
        rw [hview, ← hy]
        refine Function.update_of_ne ?_ _ _
        simp only [ne_eq, ExitRef.mk.injEq]
        omega
      · rw [hbare]
        exact found
    case h_2 hnone => exact ih ((h.await hfirst hx (lost _ hnone)).congr hlater) spread hrest found

/-- Exits that are loose, all with the address of one block, are linked to it. -/
theorem linkAll {dst : Nat} {target : Compiled} {es : List ExitRef} (nodup : es.Nodup)
    (h : Joined P services leave (fun e => e ∈ es) Q t b)
    (spread : Spread start b.capacity t.view.bare) (hdst : t.view.bare dst = some target)
    (same : ∀ e ∈ es, ∀ x, t.view.exit e = some x → target.pc = x.site.target) :
  Meets True (Table.linkAll dst es t b) fun r =>
    Joined P services leave (fun _ => False) Q r.1 r.2
  := by
  induction es generalizing t b with
  | nil => exact .ok (h.congr fun e => by simp)
  | cons e es ih =>
    obtain ⟨hnot, hnodup⟩ := List.nodup_cons.mp nodup
    obtain ⟨x, hx, -⟩ := h.graph.free e List.mem_cons_self
    refine (h.link spread List.mem_cons_self hx hdst (same e List.mem_cons_self x hx)).bind ?_
    rintro ⟨t', b'⟩ ⟨hjoined, hview, hcapacity⟩
    dsimp only at hjoined hview hcapacity
    have hbare : t'.view.bare = t.view.bare := by
      rw [hview]
      rfl
    refine ih hnodup (hjoined.congr fun f => ?_) ?_ ?_ fun f hf y hy => ?_
    · rw [List.mem_cons]
      grind
    · rw [hcapacity, hbare]
      exact spread
    · rw [hbare]
      exact hdst
    · have hne : f ≠ e := fun heq => hnot (heq ▸ hf)
      apply same f (List.mem_cons_of_mem _ hf) y
      rw [hview] at hy
      exact (Function.update_of_ne hne _ _).symm.trans hy

/-- All links from and to a new block are made. -/
theorem connect {index : List (Word × Nat)} {id : Nat} {sites : List Site} {new : Compiled}
    (h : Joined P services leave (fun e => e.block = id ∧ e.exit < sites.length) Q t b)
    (spread : Spread start b.capacity t.view.bare) (hnew : t.view.bare id = some new)
    (there : ∀ k s, sites[k]? = some s → ∃ x, t.view.exit ⟨id, k⟩ = some x ∧ x.site = s)
    (found : ∀ pc dst, index.lookup pc = some dst → ∃ c, t.view.bare dst = some c ∧ c.pc = pc)
    (lost : ∀ pc, index.lookup pc = none → Q pc) :
  Meets True (CodeCache.connect index new.pc id sites t b) fun r =>
    Joined P services leave (fun _ => False) (fun pc => Q pc ∧ pc ≠ new.pc) r.1 r.2
  := by
  have hall : Joined P services leave
      (fun e => e.block = id ∧ 0 ≤ e.exit ∧ e.exit < 0 + sites.length) Q t b :=
    h.congr fun e => by simp
  refine ((hall.linkSites spread (fun k s hs => ?_) found lost).and
    (linkSites_relinked index id sites 0 t b)).bind ?_
  · rw [Nat.zero_add]
    exact there k s hs
  · rintro ⟨t', b'⟩ ⟨hjoined, hrelinked⟩
    dsimp only at hjoined hrelinked
    rw [← hrelinked.bare] at spread hnew
    rw [← hrelinked.capacity] at spread
    have hmem (e : ExitRef) : (new.pc, e) ∈ t'.view.pending ↔ e ∈ (t'.takeAwaiting new.pc).1 := by
      simp [Table.takeAwaiting, Table.view]
    have hnodup : (t'.takeAwaiting new.pc).1.Nodup := by
      refine (hjoined.graph.pending_nodup.filter _).map_on ?_
      rintro ⟨pc, e⟩ hp ⟨pc', e'⟩ hp' rfl
      have hpc := of_decide_eq_true (List.mem_filter.mp hp).2
      have hpc' := of_decide_eq_true (List.mem_filter.mp hp').2
      dsimp only at hpc hpc'
      rw [hpc, hpc']
    have htaken : Joined P services leave (fun e => e ∈ (t'.takeAwaiting new.pc).1)
        (fun pc => Q pc ∧ pc ≠ new.pc) (t'.takeAwaiting new.pc).2 b' := by
      refine Joined.congr ⟨hjoined.graph.take new.pc, fun p hp => ?_, hjoined.coded⟩ hmem
      obtain ⟨hp, hpc⟩ := List.mem_filter.mp hp
      exact ⟨hjoined.waiting p hp, of_decide_eq_true hpc⟩
    refine htaken.linkAll hnodup spread hnew fun e he x hx => ?_
    obtain ⟨-, y, hy, -, htarget⟩ := (hjoined.graph.pending new.pc e).mp ((hmem e).mpr he)
    cases hy.symm.trans hx
    exact htarget.symm

end Joined

/-! ### Installing -/

/-- The code that was written for a block stands, with each exit leading to its stub. -/
theorem Written.coded {block : Block} {start need : Nat} {sites : List Site} {b : Buffer} {d : Draft}
    (written : Written c block start need sites b d) (below : c.frame.leave < start)
    (low : c.buffer.capacity ≤ 0x80000000) :
  Codes c.services (.ofBlock block start (Item.stop start d.code) sites) block d ∧
    d.StandsAt b.bytes c.frame.leave start fun k => (sites[k]?).elim 0 (·.stub)
  := by
  have hpos := written.pos
  have hfinished := finished_of_lower written.lower
  refine ⟨⟨written.lower, rfl, rfl, rfl, ?_, ?_, fun k x hx => ?_⟩, ?_⟩
  · exact Nat.add_sub_cancel' hpos.le
  · exact (List.length_map _).trans written.length
  · rw [Compiled.ofBlock, List.getElem?_map, Option.map_eq_some_iff] at hx
    obtain ⟨s, hs, rfl⟩ := hx
    exact written.sites k s hs
  · have hstands : d.StandsAt b.bytes c.frame.leave start (d.stub start) :=
      ⟨written.has, written.reaches, below,
        Nat.le_add_left_of_le (written.fits.trans (written.room.trans low))⟩
    refine hstands.congr_dest fun e he => ?_
    have hlt : e.1 < sites.length := by
      have hmem := List.mem_map_of_mem (f := Prod.fst) he
      rw [Item.map_fst_exitsAt, hfinished.numbers, List.mem_range] at hmem
      rw [written.length]
      exact hmem
    have hget := List.getElem?_eq_getElem hlt
    rw [hget, Option.elim_some, Draft.stub, (written.sites _ _ hget).stub, Option.getD_some]

/-- Where exits lead when a block was added. -/
theorem dest_insert {v : View} (graph : Graph (fun _ => False) v) {id : Nat} (fresh : v.bare id = none)
    {new : Compiled} {e : ExitRef} (he : e.block ≠ id) :
  (v.insert id new).dest e = v.dest e
  := by
  have hexit : (v.insert id new).exit e = v.exit e := if_neg he
  unfold View.dest
  rw [hexit]
  cases hx : v.exit e with
  | none => rfl
  | some x =>
    cases hdst : x.linked with
    | none => simp only [Option.elim_some, hdst, Option.elim_none]
    | some dst =>
      obtain ⟨b, hb, -⟩ := graph.linked e x dst hx hdst
      have hne : dst ≠ id := by
        rintro rfl
        rw [fresh] at hb
        cases hb
      have hbare : (v.insert id new).bare dst = v.bare dst := Function.update_of_ne hne _ _
      simp only [Option.elim_some, hdst, hbare]

/-- A block whose code was written is there, with all its exits loose. -/
theorem Linked.joined (linked : c.Linked P) {block : Block} {start need : Nat} {sites : List Site}
    {b : Buffer} {d : Draft} (written : Written c block start need sites b d) (hP : P block)
    (below : c.frame.leave < start) (low : c.buffer.capacity ≤ 0x80000000)
    (apart : ∀ j a, c.table.view.bare j = some a →
      Item.stop start d.code ≤ a.entry ∨ a.entry + a.size ≤ start)
    {id : Nat} (fresh : c.table.view.bare id = none) {t : Table}
    (view : t.view = c.table.view.insert id (.ofBlock block start (Item.stop start d.code) sites)) :
  Joined P c.services c.frame.leave (fun e => e.block = id ∧ e.exit < sites.length)
    (fun pc => c.index.lookup pc = none) t b
  := by
  have hexits (e : ExitRef) (he : e.block = id) : c.table.view.exit e = none := by
    cases hx : c.table.view.exit e with
    | none => rfl
    | some x =>
      obtain ⟨a, ha, -⟩ := Table.bare_of_exit hx
      rw [he, fresh] at ha
      cases ha
  have hlength : (Compiled.ofBlock block start (Item.stop start d.code) sites).exits.length =
      sites.length := List.length_map _
  refine ⟨?_, ?_, fun j a ha => ?_⟩
  · rw [view, ← hlength]
    refine linked.graph.insert fresh hexits rfl fun x hx => ?_
    obtain ⟨s, -, rfl⟩ := List.mem_map.mp hx
    rfl
  · rw [view]
    exact linked.waiting
  · rw [view] at ha ⊢
    by_cases hj : j = id
    · subst hj
      rw [View.bare_insert, if_pos rfl, bare_ofBlock] at ha
      obtain rfl := Option.some.inj ha
      obtain ⟨hcodes, hstands⟩ := written.coded below low
      refine ⟨block, d, hP, hcodes, ?_⟩
      refine hstands.congr_dest fun e _ => ?_
      have hexit : (c.table.view.insert j (.ofBlock block start (Item.stop start d.code) sites)).exit
          ⟨j, e.1⟩ = (sites[e.1]?).map fun site => { site } :=
        (if_pos rfl).trans List.getElem?_map
      rw [View.dest, hexit]
      cases sites[e.1]? with
      | none => rfl
      | some s => rfl
    · rw [View.bare_insert, if_neg hj] at ha
      obtain ⟨block', d', hP', hcodes, hstands⟩ := linked.coded j a ha
      refine ⟨block', d', hP', hcodes, ?_⟩
      have hdest : (fun k => (c.table.view.insert id
          (.ofBlock block start (Item.stop start d.code) sites)).dest ⟨j, k⟩) =
          fun k => c.table.view.dest ⟨j, k⟩ := by
        funext k
        exact dest_insert linked.graph fresh hj
      rw [hdest]
      refine hstands.congr fun i hlow hhigh => written.same i ?_
      rw [← hcodes.stop] at hhigh
      have := apart j a ha
      omega

theorem settle_linked (linked : c.Linked P) (dir : c.Directory) {block : Block} {start need : Nat}
    {sites : List Site} {b : Buffer} {d : Draft} (written : Written c block start need sites b d)
    (hP : P block) (below : c.frame.leave < start) {base : Nat}
    (spread : Spread base c.buffer.capacity c.table.view.bare)
    (sits : Sits base c.buffer.capacity (.ofBlock block start (Item.stop start d.code) sites))
    (apart : ∀ j a, c.table.view.bare j = some a →
      Item.stop start d.code ≤ a.entry ∨ a.entry + a.size ≤ start)
    (absent : c.index.lookup block.pc = none) :
  Meets True (c.settle block start sites b) fun r => r.2.Linked P ∧ r.2.buffer.mode = .execute
  := by
  have hnumbers := numbers_numbered dir.free_nodup dir.free (.ofBlock block start b.offset sites)
  unfold settle
  rw [written.offset] at hnumbers ⊢
  generalize numbered c.table (Compiled.ofBlock block start (Item.stop start d.code) sites) c.free = r
    at hnumbers ⊢
  obtain ⟨id, free, t⟩ := r
  have hview : t.view = _ := hnumbers.view
  have hfresh : c.table.view.bare id = none := hnumbers.fresh
  obtain ⟨hgraph, hwaiting, hcoded⟩ := linked.joined written hP below spread.low apart hfresh hview
  have hjoined : Joined P c.services c.frame.leave (fun e => e.block = id ∧ e.exit < sites.length)
      (fun pc => c.index.lookup pc = none) t b.release := ⟨hgraph, hwaiting, hcoded⟩
  have hbare (j : Nat) : t.view.bare j =
      if j = id then some (.ofBlock block start (Item.stop start d.code) sites)
      else c.table.view.bare j := by
    rw [hview, View.bare_insert, bare_ofBlock]
  have hindex : Indexes ((block.pc, id) :: c.index) t.view.bare :=
    linked.index.insert absent hfresh hbare
  have hspread : Spread base b.release.capacity t.view.bare := by
    have hupdate : t.view.bare = Function.update c.table.view.bare id
        (some (.ofBlock block start (Item.stop start d.code) sites)) := by
      rw [hview, View.insert, bare_ofBlock]
    rw [hupdate, show b.release.capacity = c.buffer.capacity from written.capacity]
    refine spread.insert sits fun j a ha => ?_
    exact (apart j a ha).imp_left (Nat.add_sub_cancel' written.pos.le).trans_le
  dsimp only
  refine ((hjoined.connect hspread ((hbare id).trans (if_pos rfl)) (fun k s hs => ?_)
    (fun pc dst hdst => ?_) fun pc hpc => ?_).and
    (connect_relinked _ block.pc id sites t b.release)).bind ?_
  · refine ⟨{ site := s }, ?_, rfl⟩
    rw [hview]
    refine (if_pos rfl).trans ?_
    rw [Compiled.ofBlock, List.getElem?_map, hs]
    rfl
  · exact (hindex pc dst).mp hdst
  · rw [lookup_cons_eq] at hpc
    split at hpc
    · cases hpc
    · exact hpc
  · rintro ⟨t', b'⟩ ⟨⟨hgraph', hwaiting', hcoded'⟩, hrelinked⟩
    dsimp only at hgraph' hwaiting' hcoded' hrelinked
    refine .ok ⟨⟨hgraph', ?_, fun pc j hj => ?_, fun p hp => ?_, hcoded'⟩, rfl⟩
    · dsimp only
      rw [hrelinked.bare]
      exact hindex
    · dsimp only at hj ⊢
      rw [lookup_cons_eq]
      obtain ⟨rfl, rfl⟩ | hj := lookup_insert hj
      · exact if_pos rfl
      · have h := linked.jumps pc j hj
        rw [if_neg, h]
        rintro rfl
        rw [absent] at h
        cases h
    · obtain ⟨hnone, hne⟩ := hwaiting' p hp
      dsimp only
      rw [lookup_cons_eq]
      exact (if_neg hne).trans hnone

end CrossHart.CodeCache
