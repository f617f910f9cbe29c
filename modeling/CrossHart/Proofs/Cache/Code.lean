import CrossHart.Proofs.Cache.Arena

/-!
# The code of compiled blocks

The code of each block stands at its entry, with the jump of each exit leading to a given place.
Linking an exit and undoing a link redirect one jump and leave all other code as it is, so that they
succeed whenever the jump leads where the table says.
-/

namespace CrossHart.Cache

open Host

/-- A compiled block is made from a block of the guest, whose code is `d`. -/
structure Codes (services : Services) (b : Compiled) (block : Block) (d : Draft) : Prop where
  lower : lower services block = (.ok (), d)
  pc : b.pc = block.pc
  endPc : b.endPc = block.endPc
  count : b.count = block.count
  stop : b.entry + b.size = Item.stop b.entry d.code
  length : b.exits.length = d.exitCount
  sites : ∀ k x, b.exits[k]? = some x → d.IsSite b.entry k x.site

/-- The code of each block stands at its entry, with its exits leading to given places.  The blocks
of the guest all satisfy `P`. -/
def Coded (P : Block → Prop) (services : Services) (leave : Nat) (bare : Nat → Option Compiled)
    (bytes : ByteArray) (dest : ExitRef → Nat) : Prop :=
  ∀ id b, bare id = some b → ∃ block d, P block ∧ Codes services b block d ∧
    d.StandsAt bytes leave b.entry fun k => dest ⟨id, k⟩

/-- Blocks are apart, within two gigabytes. -/
structure Spread (start capacity : Nat) (bare : Nat → Option Compiled) : Prop where
  low : capacity ≤ 0x80000000
  sits : ∀ id b, bare id = some b → CodeCache.Sits start capacity b
  apart : ∀ i j a b, i ≠ j → bare i = some a → bare j = some b →
    a.entry + a.size ≤ b.entry ∨ b.entry + b.size ≤ a.entry

/-- What blocks are left are apart. -/
theorem Spread.of_bare {start capacity : Nat} {bare bare' : Nat → Option Compiled}
    (h : Spread start capacity bare) (left : ∀ id b, bare' id = some b → bare id = some b) :
  Spread start capacity bare'
  := ⟨h.low, fun id b hb => h.sits id b (left id b hb),
    fun i j a b hij ha hb => h.apart i j a b hij (left i a ha) (left j b hb)⟩

/-- A block was added that is apart from the others. -/
theorem Spread.insert {start capacity id : Nat} {bare : Nat → Option Compiled} {new : Compiled}
    (h : Spread start capacity bare) (sits : CodeCache.Sits start capacity new)
    (apart : ∀ j a, bare j = some a →
      new.entry + new.size ≤ a.entry ∨ a.entry + a.size ≤ new.entry) :
  Spread start capacity (Function.update bare id (some new))
  := by
  refine ⟨h.low, fun j b hb => ?_, fun i j a b hij ha hb => ?_⟩
  · rw [Function.update_apply] at hb
    split at hb
    · cases hb
      exact sits
    · exact h.sits j b hb
  · rw [Function.update_apply] at ha hb
    split at ha
    · cases ha
      rw [if_neg (by omega)] at hb
      exact apart j b hb
    · split at hb
      · cases hb
        exact (apart i a ha).symm
      · exact h.apart i j a b hij ha hb

theorem Spread.of_arena {c : CodeCache} (arena : c.Arena) (low : c.buffer.capacity ≤ 0x80000000) :
  Spread c.frame.start c.buffer.capacity c.table.view.bare
  := ⟨low, arena.sits, fun _ _ _ _ hij ha hb => arena.apart hij ha hb⟩

theorem reaches_of_le {jump place : Nat} (hjump : jump + jumpSize ≤ 0x80000000)
    (hplace : place ≤ 0x80000000) :
  Item.Reaches jump place
  := by
  unfold Item.Reaches fitsDisplacement
  apply decide_eq_true
  rw [jumpSize] at *
  omega

namespace Coded

variable {P : Block → Prop} {services : Services} {leave start : Nat}
  {bare : Nat → Option Compiled} {dest : ExitRef → Nat}

/-- Only where exits lead is looked at. -/
theorem congr_dest {bytes : ByteArray} {dest' : ExitRef → Nat}
    (h : Coded P services leave bare bytes dest)
    (same : ∀ id k, (bare id).isSome → dest' ⟨id, k⟩ = dest ⟨id, k⟩) :
  Coded P services leave bare bytes dest'
  := by
  intro id b hb
  obtain ⟨block, d, hP, hcodes, hstands⟩ := h id b hb
  have hdest : (fun k => dest' ⟨id, k⟩) = fun k => dest ⟨id, k⟩ := by
    funext k
    exact same id k (by rw [hb]; rfl)
  rw [← hdest] at hstands
  exact ⟨block, d, hP, hcodes, hstands⟩

/-- What blocks are left stand where they stood. -/
theorem of_bare {bytes : ByteArray} {bare' : Nat → Option Compiled}
    (h : Coded P services leave bare bytes dest)
    (left : ∀ id b, bare' id = some b → bare id = some b) :
  Coded P services leave bare' bytes dest
  := fun id b hb => h id b (left id b hb)

section Exits

variable {b : Buffer} {e : ExitRef} {c : Compiled} {x : Exit}

theorem targetAt (h : Coded P services leave bare b.bytes dest)
    (spread : Spread start b.capacity bare) (hc : bare e.block = some c)
    (hx : c.exits[e.exit]? = some x) :
  b.targetAt x.site.jump = .ok (some (dest e))
  := by
  obtain ⟨block, d, -, hcodes, hstands⟩ := h _ c hc
  have hjump := (hcodes.sites _ x hx).jump
  have hsits := spread.sits _ c hc
  have hlow := spread.low
  have hend := (hsits.jumps x (List.mem_of_getElem? hx)).2
  have hhigh := hsits.high
  exact Buffer.targetAt_of_has (hstands.has_jump hjump) (hstands.reaches _ hjump) (by omega) (by omega)

theorem reaches (spread : Spread start b.capacity bare) (hc : bare e.block = some c)
    (hx : c.exits[e.exit]? = some x) {place : Nat} (hplace : place ≤ 0x80000000) :
  x.site.jump + jumpSize ≤ b.capacity ∧ Item.Reaches x.site.jump place
  := by
  have hsits := spread.sits _ c hc
  have hlow := spread.low
  have hend := (hsits.jumps x (List.mem_of_getElem? hx)).2
  have hhigh := hsits.high
  exact ⟨by omega, reaches_of_le (by omega) hplace⟩

theorem patchJump (spread : Spread start b.capacity bare) (hc : bare e.block = some c)
    (hx : c.exits[e.exit]? = some x) {place : Nat} (hplace : place ≤ 0x80000000) :
  ∃ b', b.patchJump x.site.jump place = .ok b'
  := by
  obtain ⟨hfits, hreach⟩ := reaches spread hc hx hplace
  rw [Buffer.patchJump_eq hfits (by omega)]
  exact ⟨_, if_pos hreach⟩

/-- Redirecting the jump of one exit. -/
theorem redirect (h : Coded P services leave bare b.bytes dest)
    (spread : Spread start b.capacity bare) (hc : bare e.block = some c)
    (hx : c.exits[e.exit]? = some x) {place : Nat} (hplace : place ≤ 0x80000000) {b' : Buffer}
    (hpatch : b.patchJump x.site.jump place = .ok b') :
  Coded P services leave bare b'.bytes (Function.update dest e place)
  := by
  obtain ⟨-, hreach⟩ := reaches spread hc hx hplace
  have hbuffer := Buffer.eq_overwrite_of_patchJump hpatch
  have hjumps := (spread.sits _ c hc).jumps x (List.mem_of_getElem? hx)
  have hsame (i : Nat) (hi : ¬(x.site.jump + 1 ≤ i ∧ i < x.site.jump + jumpSize)) :
      Bytes.at0 b'.bytes i = Bytes.at0 b.bytes i := by
    rw [hbuffer, Buffer.at0_overwrite, if_neg]
    exact hi
  intro id a ha
  obtain ⟨block, d, hP, hcodes, hstands⟩ := h id a ha
  refine ⟨block, d, hP, hcodes, ?_⟩
  by_cases hid : id = e.block
  · subst hid
    cases hc.symm.trans ha
    have hfield : Bytes.Has b'.bytes (x.site.jump + 1)
        (field32 (displacement (x.site.jump + jumpSize) place)) := by
      rw [hbuffer]
      exact Buffer.has_overwrite _ _ _
    have hupdate : (fun k => Function.update dest e place ⟨e.block, k⟩) =
        Function.update (fun k => dest ⟨e.block, k⟩) e.exit place := by
      funext k
      simp only [Function.update_apply]
      obtain ⟨block, exit⟩ := e
      simp
    rw [hupdate]
    exact hstands.redirect (finished_of_lower hcodes.lower) (hcodes.sites _ x hx).jump hreach hsame
      hfield
  · have hupdate : (fun k => Function.update dest e place ⟨id, k⟩) = fun k => dest ⟨id, k⟩ := by
      funext k
      exact Function.update_of_ne (fun heq => hid (by rw [← heq])) _ _
    rw [hupdate]
    refine hstands.congr fun i hlow hhigh => hsame i ?_
    rw [← hcodes.stop] at hhigh
    have := spread.apart _ _ a c hid ha hc
    omega

end Exits

end Coded

/-! ### Links in the code -/

/-- The links of several exits were undone, and they wait for an address. -/
def View.unlinkAll (v : View) (pc : Word) (es : List ExitRef) : View :=
  { v with
    exit := fun e =>
      if e ∈ es then (v.exit e).map fun x => { x with linked := none } else v.exit e
    pending := v.pending ++ es.map fun e => (pc, e) }

namespace Table

variable {P : Block → Prop} {services : Services} {leave start : Nat} {dest : ExitRef → Nat}
  {t : Table} {b : Buffer} {e : ExitRef} {x : Exit}

/-- What a change of links leaves, where each exit leads as `dest` says. -/
structure Wired (P : Block → Prop) (services : Services) (leave : Nat) (t : Table) (b : Buffer)
    (v : View) (dest : ExitRef → Nat) (r : Table × Buffer) : Prop where
  view : r.1.view = v
  size : r.1.blocks.size = t.blocks.size
  capacity : r.2.capacity = b.capacity
  coded : Coded P services leave t.view.bare r.2.bytes dest

/-- An exit that leads to its stub can be linked. -/
theorem link_wired (coded : Coded P services leave t.view.bare b.bytes dest)
    (spread : Spread start b.capacity t.view.bare) (hx : t.view.exit e = some x)
    (free : x.linked = none) (stub : dest e = x.site.stub) {dst : Nat} {target : Compiled}
    (hdst : t.view.bare dst = some target) :
  Meets True (t.link b e dst)
    (Wired P services leave t b (t.view.link e x dst) (Function.update dest e target.entry))
  := by
  obtain ⟨c, hc, hget⟩ := bare_of_exit hx
  have hplace : target.entry ≤ 0x80000000 := by
    have := spread.low
    have := (spread.sits _ target hdst).high
    omega
  refine (link_meets fun _ => ?_).imp ?_
  · refine ⟨x, target, hx, free, hdst, ?_, Coded.patchJump spread hc hget hplace⟩
    have htarget := coded.targetAt spread hc hget
    rw [stub] at htarget
    exact htarget
  · rintro ⟨t', b'⟩ ⟨x', target', hx', hdst', hview, hsize, hpatch⟩
    cases hx.symm.trans hx'
    cases hdst.symm.trans hdst'
    refine ⟨hview, hsize, ?_, coded.redirect spread hc hget hplace hpatch⟩
    rw [Buffer.eq_overwrite_of_patchJump hpatch]
    exact Buffer.capacity_overwrite _ _ _

/-- The link of an exit that leads to a block can be undone. -/
theorem unlink_wired (coded : Coded P services leave t.view.bare b.bytes dest)
    (spread : Spread start b.capacity t.view.bare) (hx : t.view.exit e = some x) {entry : Nat}
    (leads : dest e = entry) :
  Meets True (t.unlink b e entry)
    (Wired P services leave t b (t.view.unlink e x) (Function.update dest e x.site.stub))
  := by
  obtain ⟨c, hc, hget⟩ := bare_of_exit hx
  have hplace : x.site.stub ≤ 0x80000000 := by
    obtain ⟨block, d, -, hcodes, -⟩ := coded _ c hc
    have hstub : x.site.stub ≤ Item.stop c.entry d.code :=
      Item.offsetOf?_le (hcodes.sites _ _ hget).stub
    have := hcodes.stop
    have := spread.low
    have := (spread.sits _ c hc).high
    omega
  refine (unlink_meets fun _ => ?_).imp ?_
  · refine ⟨x, hx, ?_, Coded.patchJump spread hc hget hplace⟩
    have htarget := coded.targetAt spread hc hget
    rw [leads] at htarget
    exact htarget
  · rintro ⟨t', b'⟩ ⟨x', hx', hview, hsize, hpatch⟩
    cases hx.symm.trans hx'
    refine ⟨hview, hsize, ?_, coded.redirect spread hc hget hplace hpatch⟩
    rw [Buffer.eq_overwrite_of_patchJump hpatch]
    exact Buffer.capacity_overwrite _ _ _

/-- Links of several exits to one block can be undone. -/
theorem unlinkAll_wired {entry : Nat} (pc : Word) {es : List ExitRef} (nodup : es.Nodup)
    (coded : Coded P services leave t.view.bare b.bytes dest)
    (spread : Spread start b.capacity t.view.bare)
    (linked : ∀ e ∈ es, ∃ x, t.view.exit e = some x ∧ x.site.target = pc ∧ dest e = entry) :
  Meets True (unlinkAll entry es t b)
    (Wired P services leave t b (t.view.unlinkAll pc es) fun e =>
      if e ∈ es then (t.view.exit e).elim 0 (·.site.stub) else dest e)
  := by
  induction es generalizing t b dest with
  | nil => exact .ok ⟨by simp [View.unlinkAll], rfl, rfl, by simpa using coded⟩
  | cons e es ih =>
    obtain ⟨hnot, hnodup⟩ := List.nodup_cons.mp nodup
    obtain ⟨x, hx, htarget, hdest⟩ := linked e List.mem_cons_self
    have hne {e' : ExitRef} (he' : e' ∈ es) : e' ≠ e := fun heq => hnot (heq ▸ he')
    refine (unlink_wired coded spread hx hdest).bind ?_
    rintro ⟨t₁, b₁⟩ ⟨hview, hsize, hcapacity, hcoded⟩
    dsimp only at hview hsize hcapacity hcoded
    have hbare : t₁.view.bare = t.view.bare := by
      rw [hview]
      rfl
    have hexit (e' : ExitRef) (he' : e' ≠ e) : t₁.view.exit e' = t.view.exit e' := by
      rw [hview]
      exact Function.update_of_ne he' _ _
    rw [← hbare] at hcoded spread
    rw [← hcapacity] at spread
    refine (ih hnodup hcoded spread fun e' he' => ?_).imp ?_
    · obtain ⟨x', hx', htarget', hdest'⟩ := linked e' (List.mem_cons_of_mem _ he')
      refine ⟨x', (hexit e' (hne he')).trans hx', htarget', ?_⟩
      rw [Function.update_of_ne (hne he'), hdest']
    · rintro ⟨t₂, b₂⟩ ⟨hview₂, hsize₂, hcapacity₂, hcoded₂⟩
      refine ⟨hview₂.trans ?_, hsize₂.trans hsize, hcapacity₂.trans hcapacity, ?_⟩
      · rw [hview]
        ext1
        · rfl
        · funext e'
          by_cases he' : e' = e
          · subst he'
            simp [View.unlinkAll, View.unlink, View.relink, hnot, hx]
          · simp [View.unlinkAll, View.unlink, View.relink, he']
        · rfl
        · simp [View.unlinkAll, View.unlink, htarget]
      · rw [← hbare]
        refine hcoded₂.congr_dest fun id k _ => ?_
        by_cases he' : (⟨id, k⟩ : ExitRef) = e
        · rw [he', if_neg hnot, if_pos List.mem_cons_self, Function.update_self, hx]
          rfl
        · rw [hexit _ he', Function.update_of_ne he']
          simp only [List.mem_cons, he', false_or]

end Table

end CrossHart.Cache
