import Mathlib.Logic.Function.Basic
import CrossHart.Cache.Table
import CrossHart.Proofs.Outcome

/-!
# What the table of compiled blocks says

A table is looked at through a `View`: the blocks without their links, the exits, the exits linked to
each block, and the exits that wait.  Each operation on links changes a view in one or two places,
and leaves blocks without their links as they are.
-/

namespace CrossHart.Cache

open Host

/-- A block without its links. -/
def Compiled.bare (c : Compiled) : Compiled :=
  { c with exits := c.exits.map fun x => { x with linked := none }, incoming := [] }

/-- What a table says of blocks and links. -/
@[ext]
structure View where
  /-- The blocks, without their links. -/
  bare : Nat → Option Compiled
  exit : ExitRef → Option Exit
  /-- The exits linked to a block. -/
  incoming : Nat → List ExitRef
  /-- The exits that wait, each with its address. -/
  pending : List (Word × ExitRef)

namespace View

/-- An exit was linked to a block, or to none. -/
def relink (v : View) (e : ExitRef) (x : Exit) (linked : Option Nat) : View :=
  { v with exit := Function.update v.exit e (some { x with linked }) }

/-- An exit was linked to a block, which knows of it. -/
def link (v : View) (e : ExitRef) (x : Exit) (dst : Nat) : View :=
  { v.relink e x (some dst) with
    incoming := Function.update v.incoming dst (v.incoming dst ++ [e]) }

/-- The link of an exit was undone, and the exit waits. -/
def unlink (v : View) (e : ExitRef) (x : Exit) : View :=
  { v.relink e x none with pending := v.pending ++ [(x.site.target, e)] }

/-- A block is there with its exits. -/
def insert (v : View) (id : Nat) (c : Compiled) : View where
  bare := Function.update v.bare id (some c.bare)
  exit e := if e.block = id then c.exits[e.exit]? else v.exit e
  incoming := Function.update v.incoming id c.incoming
  pending := v.pending

theorem bare_insert (v : View) (id : Nat) (c : Compiled) (j : Nat) :
  (v.insert id c).bare j = if j = id then some c.bare else v.bare j
  := Function.update_apply _ _ _ _

/-- A block is gone with its exits. -/
def remove (v : View) (id : Nat) : View where
  bare := Function.update v.bare id none
  exit e := if e.block = id then none else v.exit e
  incoming := Function.update v.incoming id []
  pending := v.pending

theorem bare_remove (v : View) (id j : Nat) :
  (v.remove id).bare j = if j = id then none else v.bare j
  := Function.update_apply _ _ _ _

end View

namespace Table

variable {t : Table} {id : Nat} {c : Compiled}

/-- What a table says. -/
def view (t : Table) : View where
  bare id := (t.block? id).map (·.bare)
  exit e := (t.block? e.block).bind (·.exits[e.exit]?)
  incoming id := (t.block? id).elim [] (·.incoming)
  pending := t.pending

theorem lt_size (h : t.block? id = some c) :
  id < t.blocks.size
  := by
  unfold block? at h
  by_contra hge
  rw [Array.getElem?_eq_none (Nat.le_of_not_lt hge)] at h
  cases h

theorem block?_setBlock (h : id < t.blocks.size) (c : Option Compiled) (j : Nat) :
  (t.setBlock id c).block? j = if j = id then c else t.block? j
  := by
  simp only [setBlock, block?, Array.getElem?_setIfInBounds]
  by_cases hj : id = j
  · subst hj
    simp [h]
  · simp [hj, Ne.symm hj]

@[simp]
theorem size_setBlock (t : Table) (id : Nat) (c : Option Compiled) :
  (t.setBlock id c).blocks.size = t.blocks.size
  := Array.size_setIfInBounds

@[simp]
theorem pending_setBlock (t : Table) (id : Nat) (c : Option Compiled) :
  (t.setBlock id c).pending = t.pending
  := rfl

theorem bare_eq_some {c : Compiled} :
  t.view.bare id = some c ↔ ∃ c', t.block? id = some c' ∧ c'.bare = c
  := Option.map_eq_some_iff

theorem bare_of_block? (h : t.block? id = some c) :
  t.view.bare id = some c.bare
  := bare_eq_some.mpr ⟨c, h, rfl⟩

theorem incoming_of_block? (h : t.block? id = some c) :
  t.view.incoming id = c.incoming
  := by
  simp only [view, h, Option.elim_some]

theorem block?_of_bare (h : t.view.bare id = none) :
  t.block? id = none
  := Option.map_eq_none_iff.mp h

theorem incoming_of_bare (h : t.view.bare id = none) :
  t.view.incoming id = []
  := by
  simp only [view, block?_of_bare h, Option.elim_none]

theorem exit_eq_some {e : ExitRef} {x : Exit} :
  t.view.exit e = some x ↔ ∃ c, t.block? e.block = some c ∧ c.exits[e.exit]? = some x
  := Option.bind_eq_some_iff

/-- An exit is one of its block without links. -/
theorem bare_of_exit {e : ExitRef} {x : Exit} (h : t.view.exit e = some x) :
  ∃ c, t.view.bare e.block = some c ∧ c.exits[e.exit]? = some { x with linked := none }
  := by
  obtain ⟨c, hc, hx⟩ := exit_eq_some.mp h
  refine ⟨c.bare, bare_of_block? hc, ?_⟩
  rw [Compiled.bare, List.getElem?_map, hx]
  rfl

theorem view_setBlock_some (h : id < t.blocks.size) (c : Compiled) :
  (t.setBlock id (some c)).view = t.view.insert id c
  := by
  ext1
  · funext j
    simp only [view, View.insert, block?_setBlock h, Function.update_apply]
    split <;> rfl
  · funext e
    simp only [view, View.insert, block?_setBlock h]
    split <;> rfl
  · funext j
    simp only [view, View.insert, block?_setBlock h, Function.update_apply]
    split <;> rfl
  · rfl

theorem view_push (t : Table) (c : Compiled) :
  ({ t with blocks := t.blocks.push (some c) } : Table).view = t.view.insert t.blocks.size c
  := by
  have hblock (j : Nat) : ({ t with blocks := t.blocks.push (some c) } : Table).block? j =
      if j = t.blocks.size then some c else t.block? j := by
    rw [block?, Array.getElem?_push]
    split <;> rfl
  ext1
  · funext j
    simp only [view, View.insert, hblock, Function.update_apply]
    split <;> rfl
  · funext e
    simp only [view, View.insert, hblock]
    split <;> rfl
  · funext j
    simp only [view, View.insert, hblock, Function.update_apply]
    split <;> rfl
  · rfl

theorem view_setBlock_none (h : id < t.blocks.size) :
  (t.setBlock id none).view = t.view.remove id
  := by
  ext1
  · funext j
    simp only [view, View.remove, block?_setBlock h, Function.update_apply]
    split <;> rfl
  · funext e
    simp only [view, View.remove, block?_setBlock h]
    split <;> rfl
  · funext j
    simp only [view, View.remove, block?_setBlock h, Function.update_apply]
    split <;> rfl
  · rfl

/-- Other exits linked to a block. -/
theorem view_setIncoming (h : t.block? id = some c) (l : List ExitRef) :
  (t.setBlock id (some { c with incoming := l })).view =
    { t.view with incoming := Function.update t.view.incoming id l }
  := by
  rw [view_setBlock_some (lt_size h)]
  ext1
  · exact Function.update_eq_self_iff.mpr (bare_of_block? h).symm
  · funext e
    simp only [View.insert]
    split
    case isTrue he =>
      subst he
      simp only [view, h, Option.bind_some]
    case isFalse => rfl
  · rfl
  · rfl

/-- Another link of an exit. -/
theorem view_setExit {e : ExitRef} {src : Compiled} {x : Exit} (h : t.block? e.block = some src)
    (hx : src.exits[e.exit]? = some x) (linked : Option Nat) :
  (t.setBlock e.block (some (src.setExit e.exit { x with linked }))).view = t.view.relink e x linked
  := by
  obtain ⟨hlt, hget⟩ := List.getElem?_eq_some_iff.mp hx
  rw [view_setBlock_some (lt_size h)]
  ext1
  · apply Function.update_eq_self_iff.mpr
    rw [bare_of_block? h]
    have hset : (src.exits.set e.exit { x with linked }).map (fun x => { x with linked := none }) =
        src.exits.map (fun x => { x with linked := none }) := by
      apply List.ext_getElem?
      intro i
      by_cases hi : e.exit = i
      · subst hi
        simp [hlt, hget]
      · simp [hi]
    simp only [Compiled.bare, Compiled.setExit, hset]
  · funext e'
    simp only [View.insert, View.relink, Function.update_apply]
    by_cases hblock : e'.block = e.block
    · rw [if_pos hblock, Compiled.setExit, List.getElem?_set]
      by_cases hexit : e.exit = e'.exit
      · have heq : e' = e := by
          cases e
          cases e'
          simp_all
        rw [if_pos hexit, if_pos hlt, if_pos heq]
      · have hne : e' ≠ e := fun heq => hexit (by rw [heq])
        rw [if_neg hexit, if_neg hne]
        simp only [view, hblock, h, Option.bind_some]
    · have hne : e' ≠ e := fun heq => hblock (by rw [heq])
      rw [if_neg hblock, if_neg hne]
  · exact Function.update_eq_self_iff.mpr (incoming_of_block? h).symm
  · rfl

/-! ### Links -/

variable {safe : Prop} {b : Buffer} {e : ExitRef}

theorem exit_meets {gone : Breach} (there : safe → (t.view.exit e).isSome) :
  Meets safe (t.exit e gone) fun r =>
    t.block? e.block = some r.1 ∧ r.1.exits[e.exit]? = some r.2
  := by
  unfold exit
  cases hblock : t.block? e.block with
  | none =>
    intro hsafe
    have h := there hsafe
    simp [view, hblock] at h
  | some src =>
    dsimp only
    cases hexit : src.exits[e.exit]? with
    | none =>
      intro hsafe
      have h := there hsafe
      simp [view, hblock, hexit] at h
    | some x => exact .ok ⟨rfl, hexit⟩

/-- Linking an exit that leads to its stub. -/
theorem link_meets {dst : Nat}
    (ready : safe → ∃ x target, t.view.exit e = some x ∧ x.linked = none ∧
      t.view.bare dst = some target ∧ b.targetAt x.site.jump = .ok (some x.site.stub) ∧
      ∃ b', b.patchJump x.site.jump target.entry = .ok b') :
  Meets safe (t.link b e dst) fun r => ∃ x target, t.view.exit e = some x ∧
    t.view.bare dst = some target ∧ r.1.view = t.view.link e x dst ∧
    r.1.blocks.size = t.blocks.size ∧ b.patchJump x.site.jump target.entry = .ok r.2
  := by
  unfold link
  cases hdst : t.block? dst with
  | none =>
    intro hsafe
    obtain ⟨_, _, -, -, hbare, -⟩ := ready hsafe
    simp [view, hdst] at hbare
  | some target =>
    refine (exit_meets fun hsafe => ?_).bind ?_
    · obtain ⟨_, _, h, -⟩ := ready hsafe
      rw [h]
      rfl
    · rintro ⟨src, x⟩ ⟨hsrc, hx⟩
      have hexit : t.view.exit e = some x := exit_eq_some.mpr ⟨src, hsrc, hx⟩
      have hready (hsafe : safe) : x.linked = none ∧
          b.targetAt x.site.jump = .ok (some x.site.stub) ∧
          ∃ b', b.patchJump x.site.jump target.entry = .ok b' := by
        obtain ⟨x', target', hx', hlinked, htarget', hcurrent, hpatch⟩ := ready hsafe
        cases hexit.symm.trans hx'
        cases (bare_of_block? hdst).symm.trans htarget'
        exact ⟨hlinked, hcurrent, hpatch⟩
      refine (Meets.self fun hsafe => ⟨_, (hready hsafe).2.1⟩).bind fun current hcurrent => ?_
      split
      case isTrue hbad =>
        intro hsafe
        obtain ⟨hlinked, hstub, -⟩ := hready hsafe
        rw [hcurrent] at hstub
        cases hstub
        simp [hlinked] at hbad
      case isFalse =>
        refine (Meets.self fun hsafe => (hready hsafe).2.2).bind fun b' hpatch => ?_
        dsimp only
        have hview := view_setExit hsrc hx (some dst)
        have hbare : (t.setBlock e.block (some (src.setExit e.exit
            { x with linked := some dst }))).view.bare dst = some target.bare := by
          rw [hview]
          exact bare_of_block? hdst
        obtain ⟨c, hc, -⟩ := bare_eq_some.mp hbare
        rw [hc]
        refine .ok ⟨x, target.bare, hexit, bare_of_block? hdst, ?_, ?_, hpatch⟩
        · have hincoming := view_setIncoming hc (c.incoming ++ [e])
          have hold : c.incoming = t.view.incoming dst := by
            rw [← incoming_of_block? hc, hview]
            rfl
          rw [hview] at hincoming
          refine hincoming.trans ?_
          rw [hold]
          rfl
        · simp

/-- Undoing a link. -/
theorem unlink_meets {entry : Nat}
    (ready : safe → ∃ x, t.view.exit e = some x ∧ b.targetAt x.site.jump = .ok (some entry) ∧
      ∃ b', b.patchJump x.site.jump x.site.stub = .ok b') :
  Meets safe (t.unlink b e entry) fun r => ∃ x, t.view.exit e = some x ∧
    r.1.view = t.view.unlink e x ∧ r.1.blocks.size = t.blocks.size ∧
    b.patchJump x.site.jump x.site.stub = .ok r.2
  := by
  unfold unlink
  refine (exit_meets fun hsafe => ?_).bind ?_
  · obtain ⟨_, h, -⟩ := ready hsafe
    rw [h]
    rfl
  · rintro ⟨src, x⟩ ⟨hsrc, hx⟩
    have hexit : t.view.exit e = some x := exit_eq_some.mpr ⟨src, hsrc, hx⟩
    have hready (hsafe : safe) : b.targetAt x.site.jump = .ok (some entry) ∧
        ∃ b', b.patchJump x.site.jump x.site.stub = .ok b' := by
      obtain ⟨x', hx', h⟩ := ready hsafe
      cases hexit.symm.trans hx'
      exact h
    refine (Meets.self fun hsafe => ⟨_, (hready hsafe).1⟩).bind fun current hcurrent => ?_
    split
    case isTrue hbad =>
      intro hsafe
      obtain ⟨hentry, -⟩ := hready hsafe
      rw [hcurrent] at hentry
      cases hentry
      exact hbad rfl
    case isFalse =>
      refine (Meets.self fun hsafe => (hready hsafe).2).bind fun b' hpatch => ?_
      have hview := view_setExit hsrc hx none
      refine .ok ⟨x, hexit, ?_, ?_, hpatch⟩
      · exact congrArg (fun v : View => { v with pending := v.pending ++ [(x.site.target, e)] }) hview
      · exact size_setBlock _ _ _

/-! ### Exits of a block that is gone -/

/-- The exits `xs` of the block `id`, the `n`-th first, were dropped: they no longer count where they
were linked, and no longer wait. -/
structure Dropped (id : Nat) (xs : List Exit) (n : Nat) (v w : View) : Prop where
  bare : w.bare = v.bare
  exit : w.exit = v.exit
  incoming : ∀ j, (w.incoming j).Sublist (v.incoming j)
  pending : w.pending.Sublist v.pending
  mem_incoming : ∀ j e, e ∈ w.incoming j ↔ e ∈ v.incoming j ∧
    ¬(e.block = id ∧ ∃ x, (x, e.exit) ∈ xs.zipIdx n ∧ x.linked = some j)
  mem_pending : ∀ p, p ∈ w.pending ↔ p ∈ v.pending ∧
    ¬(p.2.block = id ∧ ∃ x, (x, p.2.exit) ∈ xs.zipIdx n ∧ x.linked = none ∧ x.site.target = p.1)

/-- One exit dropped after the other. -/
theorem Dropped.cons {x : Exit} {xs : List Exit} {n : Nat} {u v w : View}
    (h : Dropped id [x] n u v) (h' : Dropped id xs (n + 1) v w) :
  Dropped id (x :: xs) n u w
  := by
  refine ⟨h'.bare.trans h.bare, h'.exit.trans h.exit, fun j => (h'.incoming j).trans (h.incoming j),
    h'.pending.trans h.pending, fun j e => ?_, fun p => ?_⟩
  · rw [h'.mem_incoming, h.mem_incoming, List.zipIdx_cons, List.zipIdx_cons]
    simp only [List.zipIdx_nil, List.mem_cons, List.not_mem_nil, or_false]
    grind
  · rw [h'.mem_pending, h.mem_pending, List.zipIdx_cons, List.zipIdx_cons]
    simp only [List.zipIdx_nil, List.mem_cons, List.not_mem_nil, or_false]
    grind

/-- An exit that was linked to a block no longer counts there. -/
theorem dropped_of_linked {x : Exit} {n dst : Nat} (hlinked : x.linked = some dst) (v : View)
    {l : List ExitRef} (hl : l = (v.incoming dst).filter fun e => e ≠ ⟨id, n⟩) :
  Dropped id [x] n v { v with incoming := Function.update v.incoming dst l }
  := by
  refine ⟨rfl, rfl, fun j => ?_, .refl _, fun j e => ?_, fun p => ?_⟩
  · simp only [Function.update_apply]
    split
    case isTrue hj =>
      rw [hl, hj]
      exact List.filter_sublist
    case isFalse => exact .refl _
  · simp only [Function.update_apply, List.zipIdx_cons, List.zipIdx_nil, List.mem_singleton, hl]
    obtain ⟨block, exit⟩ := e
    grind
  · simp only [List.zipIdx_cons, List.zipIdx_nil, List.mem_singleton]
    grind

theorem dropped_of_waiting {x : Exit} {n : Nat} (hlinked : x.linked = none) (v : View) :
  Dropped id [x] n v
    { v with pending := v.pending.filter fun p => p ≠ (x.site.target, ⟨id, n⟩) }
  := by
  refine ⟨rfl, rfl, fun j => .refl _, List.filter_sublist, fun j e => ?_, fun p => ?_⟩
  · simp only [List.zipIdx_cons, List.zipIdx_nil, List.mem_singleton]
    grind
  · simp only [List.zipIdx_cons, List.zipIdx_nil, List.mem_singleton]
    obtain ⟨pc, block, exit⟩ := p
    grind

theorem dropExits_meets (xs : List Exit) (n : Nat) {t : Table} (gone : t.view.incoming id = [])
    (there : safe → ∀ x ∈ xs, ∀ dst, x.linked = some dst → dst < t.blocks.size) :
  Meets safe (dropExits id xs n t) fun t' =>
    Dropped id xs n t.view t'.view ∧ t'.blocks.size = t.blocks.size
  := by
  induction xs generalizing n t with
  | nil =>
    refine .ok ⟨⟨rfl, rfl, fun _ => .refl _, .refl _, fun j e => ?_, fun p => ?_⟩, rfl⟩
    · simp
    · simp
  | cons x xs ih =>
    -- What is left to do behind the first exit.
    have hrest {t₁ : Table} (h : Dropped id [x] n t.view t₁.view)
        (hsize : t₁.blocks.size = t.blocks.size) :
        Meets safe (dropExits id xs (n + 1) t₁) fun t' =>
          Dropped id (x :: xs) n t.view t'.view ∧ t'.blocks.size = t.blocks.size := by
      refine (ih (n + 1) ?_ ?_).imp fun t' h' => ⟨h.cons h'.1, h'.2.trans hsize⟩
      · exact List.sublist_nil.mp (gone ▸ h.incoming id)
      · intro hsafe y hy
        rw [hsize]
        exact there hsafe y (List.mem_cons_of_mem _ hy)
    unfold dropExits
    split
    case h_1 hlinked => exact hrest (dropped_of_waiting hlinked t.view) rfl
    case h_2 dst hlinked =>
      have hnothing (h : t.view.incoming dst = []) : Dropped id [x] n t.view t.view := by
        have hdropped : Dropped id [x] n t.view
            { t.view with incoming := Function.update t.view.incoming dst [] } :=
          dropped_of_linked hlinked t.view (by rw [h]; rfl)
        rw [Function.update_eq_self_iff.mpr h.symm] at hdropped
        exact hdropped
      split
      case isTrue hid =>
        rw [hid] at hnothing
        exact hrest (hnothing gone) rfl
      case isFalse =>
        split
        case isTrue =>
          split
          case h_1 c hc =>
            refine hrest ?_ (size_setBlock _ _ _)
            rw [view_setIncoming hc]
            exact dropped_of_linked hlinked t.view (by rw [incoming_of_block? hc])
          case h_2 hc =>
            refine hrest (hnothing ?_) rfl
            simp only [view, hc, Option.elim_none]
        case isFalse hge => exact fun hsafe => hge (there hsafe x List.mem_cons_self dst hlinked)

end Table

end CrossHart.Cache
