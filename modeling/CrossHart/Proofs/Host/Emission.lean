import Mathlib.Data.List.Pairwise
import Mathlib.Logic.Function.Basic
import CrossHart.Proofs.Host.Blocks

/-!
# Blocks in the code buffer

Writing the code of a block leaves it at the current offset of the buffer, with each exit leading to
a stub.  What runs at that offset does what the instructions of the block do.
-/

namespace CrossHart.Host

open Isa Item Compile Processor

variable {env : Environment} {b : Block} {d : Draft}

/-! ### Code that stands at an offset -/

/-- The layout of code at an offset, with its exits leading to given places. -/
def Draft.layout (d : Draft) (leave start : Nat) (dest : Nat → Nat) : Layout :=
  { layoutAt leave start d.code with exit := dest }

/-- The place of a stub. -/
def Draft.stub (d : Draft) (start n : Nat) : Nat :=
  (offsetOf? (.stub n) start d.code).getD 0

/-- Code stands at an offset of a buffer, with its exits leading to given places. -/
structure Draft.StandsAt (d : Draft) (bytes : ByteArray) (leave start : Nat) (dest : Nat → Nat) :
    Prop where
  has : Bytes.Has bytes start (image (d.layout leave start dest) start d.code)
  reaches : ∀ e ∈ exitsAt start d.code, Reaches e.2 (dest e.1)
  below : leave < start
  /-- The way back is not too far from the end of the code. -/
  near : stop start d.code ≤ leave + 0x80000000

namespace Draft.StandsAt

variable {bytes : ByteArray} {leave start : Nat} {dest : Nat → Nat}

theorem target_layout (d : Draft) (leave start : Nat) (dest : Nat → Nat) {t : Target}
    (h : t ∈ places d.code) :
  offsetOf? t start d.code = some ((d.layout leave start dest).target t)
  := by
  obtain ⟨n, hn⟩ := offsetOf?_isSome h start
  have htarget : (d.layout leave start dest).target t = n := by
    simp only [Draft.layout, layoutAt, hn, Option.getD_some]
  rw [htarget, hn]

theorem allReady (h : d.StandsAt bytes leave start dest) (finished : d.Finished b) :
  AllReady (d.layout leave start dest) start d.code
  := allReady_of_wellPlaced finished.wellPlaced finished.straight
    (fun _ ht => target_layout d leave start dest ht) h.reaches h.below h.near

/-- A run follows the code. -/
theorem follows (h : d.StandsAt bytes leave start dest) (finished : d.Finished b) {p : Processor}
    {r : Except Crash Flow} (walks : Walks env d.code p r) :
  Follows env bytes (d.layout leave start dest) leave start (stop start d.code) (p.at start) r
  := follows_walks walks (h.allReady finished) h.has
    (fun _ ht => target_layout d leave start dest ht) finished.wellPlaced.distinct h.below

/-- A stub leaves with the address of its exit. -/
theorem leads_stub (h : d.StandsAt bytes leave start dest) (finished : d.Finished b) {s : Services}
    (hlower : lower s b = (.ok (), d)) {k : Nat} {pc : Word} (target : d.targets[k]? = some pc)
    {p : Processor} (base : p.reg stateReg = env.state) :
  ∃ n, ∃ q : Processor, n + d.stub start k ≤ stop start d.code ∧
    Leads env bytes leave n (p.at (d.stub start k)) (q.at leave) ∧
    q.reg .rax = BitVec.ofNat 64 ExitReason.chain.code ∧ q.guest = p.guest.goto pc
  := by
  obtain ⟨tail, htail, hleave⟩ := isWayOut_leave env (.stub k) pc .chain
  obtain ⟨before, after, hcode⟩ : ∃ before after,
      d.code = before ++ .place (.stub k) :: (tail ++ after) := by
    obtain ⟨D, -, rfl⟩ := on_block_eq_ok hlower
    obtain ⟨before, after, heq⟩ := numbered_eq stubItems target 0
    rw [Nat.zero_add, stubItems, htail] at heq
    refine ⟨D.code ++ budgetItems b ++ numbered faultItems D.faults.reverse 0 ++ before, after, ?_⟩
    rw [Draft.code_push, wayItems, show D.exits.reverse = (D.push (wayItems b D)).targets from rfl, heq]
    simp
  obtain ⟨q, hexec, hrax, hguest⟩ := hleave after p base
  have hready := h.allReady finished
  have hhas := h.has
  have hdistinct := finished.wellPlaced.distinct
  have htarget : d.stub start k = stop start before := by
    rw [hcode] at hdistinct
    rw [Draft.stub, hcode, offsetOf?_place start hdistinct]
    rfl
  rw [hcode] at hready hhas
  have hfollows : Follows env bytes (d.layout leave start dest) leave (d.stub start k) _
      (p.at (d.stub start k)) _ := follows_target hready hhas htarget h.below p
  rw [hexec, ← hcode] at hfollows
  obtain ⟨n, hn, hleads⟩ := hfollows
  exact ⟨n, q, hn, hleads, hrax, hguest⟩

/-- Code stands where its bytes do. -/
theorem congr {bytes' : ByteArray} (h : d.StandsAt bytes leave start dest)
    (same : ∀ i, start ≤ i → i < stop start d.code → Bytes.at0 bytes' i = Bytes.at0 bytes i) :
  d.StandsAt bytes' leave start dest
  := by
  refine ⟨h.has.congr fun i hlow hhigh => same i hlow ?_, h.reaches, h.below, h.near⟩
  rw [add_length_image] at hhigh
  exact hhigh

/-- Code stands with its exits leading to the same places. -/
theorem congr_dest {dest' : Nat → Nat} (h : d.StandsAt bytes leave start dest)
    (same : ∀ e ∈ exitsAt start d.code, dest' e.1 = dest e.1) :
  d.StandsAt bytes leave start dest'
  := by
  refine ⟨has_image_of_exits (l := d.layout leave start dest) rfl rfl h.has (fun _ _ _ _ => rfl)
    fun e he => ?_, fun e he => ?_, h.below, h.near⟩
  · have hjump := (Bytes.Has.append_iff (l := [0xe9])).mp (has_exit h.has he)
    change Bytes.Has bytes (e.2 + 1) (field32 (displacement (e.2 + jumpSize) (dest' e.1)))
    rw [same e he]
    exact hjump.2
  · rw [same e he]
    exact h.reaches e he

/-- The jump of an exit leads to its place. -/
theorem has_jump (h : d.StandsAt bytes leave start dest) {k jump : Nat}
    (exit : (k, jump) ∈ exitsAt start d.code) :
  Bytes.Has bytes jump (Instr.encode (.jmp (displacement (jump + jumpSize) (dest k))))
  := has_exit h.has exit

/-- Two exits are the same, or their jumps are apart. -/
theorem apart_of_mem_exitsAt (finished : d.Finished b) {e f : Nat × Nat}
    (he : e ∈ exitsAt start d.code) (hf : f ∈ exitsAt start d.code) :
  (e.1 = f.1 → e = f) ∧ (e ≠ f → e.2 + jumpSize ≤ f.2 ∨ f.2 + jumpSize ≤ e.2)
  := by
  have hnodup : ((exitsAt start d.code).map (·.1)).Nodup := by
    rw [map_fst_exitsAt, finished.numbers]
    exact List.nodup_range
  constructor
  · exact List.inj_on_of_nodup_map hnodup he hf
  · have hpairwise : (exitsAt start d.code).Pairwise fun e f =>
        e.2 + jumpSize ≤ f.2 ∨ f.2 + jumpSize ≤ e.2 :=
      (pairwise_exitsAt start d.code).imp fun h => .inl h
    have hsymm : Std.Symm fun e f : Nat × Nat => e.2 + jumpSize ≤ f.2 ∨ f.2 + jumpSize ≤ e.2 :=
      ⟨fun _ _ h => h.symm⟩
    exact hpairwise.forall he hf

/-- Code whose exit was redirected stands with the exit leading to another place. -/
theorem redirect {bytes' : ByteArray} (h : d.StandsAt bytes leave start dest)
    (finished : d.Finished b) {k jump place : Nat} (exit : (k, jump) ∈ exitsAt start d.code)
    (reach : Reaches jump place)
    (same : ∀ i, ¬(jump + 1 ≤ i ∧ i < jump + jumpSize) → Bytes.at0 bytes' i = Bytes.at0 bytes i)
    (field : Bytes.Has bytes' (jump + 1) (field32 (displacement (jump + jumpSize) place))) :
  d.StandsAt bytes' leave start (Function.update dest k place)
  := by
  refine ⟨has_image_of_exits (l := d.layout leave start dest) rfl rfl h.has
    (fun i _ _ hi => same i (hi _ exit)) fun e he => ?_, fun e he => ?_, h.below, h.near⟩
  · change Bytes.Has bytes' (e.2 + 1)
      (field32 (displacement (e.2 + jumpSize) (Function.update dest k place e.1)))
    obtain ⟨hsame, hapart⟩ := apart_of_mem_exitsAt finished he exit
    by_cases hk : e.1 = k
    · obtain rfl := hsame hk
      rw [Function.update_self]
      exact field
    · rw [Function.update_of_ne hk]
      have hjump := (Bytes.Has.append_iff (l := [0xe9])).mp (h.has_jump he)
      refine hjump.2.congr fun i hlow hhigh => same i ?_
      have hafter : e.2 + 1 ≤ i := hlow
      have hbefore : i < e.2 + 1 + 4 := hhigh
      have := hapart fun heq => hk (by rw [heq])
      simp only [jumpSize] at this ⊢
      omega
  · by_cases hk : e.1 = k
    · obtain rfl := (apart_of_mem_exitsAt finished he exit).1 hk
      rw [Function.update_self]
      exact reach
    · rw [Function.update_of_ne hk]
      exact h.reaches e he

end Draft.StandsAt

/-! ### Writing code -/

/-- What the site of an exit says. -/
structure Draft.IsSite (d : Draft) (start k : Nat) (s : Site) : Prop where
  target : d.targets[k]? = some s.target
  jump : (k, s.jump) ∈ exitsAt start d.code
  stub : offsetOf? (.stub k) start d.code = some s.stub

/-- What was written for a block at the offset of a buffer. -/
structure Emits (f : Frame) (s : Services) (b : Block) (buf : Buffer) (sites : List Site)
    (buf' : Buffer) (d : Draft) : Prop where
  lower : lower s b = (.ok (), d)
  fits : stop buf.offset d.code ≤ buf.limit
  buffer : buf' = Buffer.overwrite { buf with offset := stop buf.offset d.code } buf.offset
    (image (layoutAt f.leave buf.offset d.code) buf.offset d.code)
  length : sites.length = d.exitCount
  sites : ∀ k s, sites[k]? = some s → d.IsSite buf.offset k s
  reaches : ∀ e ∈ exitsAt buf.offset d.code, Reaches e.2 (d.stub buf.offset e.1)

theorem sitesOf_meets {safe : Prop} {ls : Labels} (targets : List Word) (jumps : List Nat) (n : Nat)
    (placed : safe → ∀ k < jumps.length, ∃ stub, (ls.label (.stub (n + k))).place = some stub) :
  Meets safe (sitesOf ls targets jumps n) fun sites =>
    sites.length = min targets.length jumps.length ∧
    ∀ k s, sites[k]? = some s → targets[k]? = some s.target ∧ jumps[k]? = some s.jump ∧
      (ls.label (.stub (n + k))).place = some s.stub
  := by
  induction targets generalizing jumps n with
  | nil => exact .ok ⟨by simp, by simp⟩
  | cons target targets ih =>
    cases jumps with
    | nil => exact .ok ⟨by simp, by simp⟩
    | cons jump jumps =>
      apply (placeOf_meets fun hsafe => placed hsafe 0 (Nat.zero_lt_succ _)).bind
      rintro stub ⟨hstub, -⟩
      refine (ih jumps (n + 1) fun hsafe k hk => ?_).bind fun sites hsites => ?_
      · obtain ⟨stub, h⟩ := placed hsafe (k + 1) (Nat.succ_lt_succ hk)
        exact ⟨stub, by rw [← h, Nat.add_right_comm n 1 k]; rfl⟩
      refine .ok ⟨by simp [hsites.1], ?_⟩
      intro k s hk
      cases k with
      | zero =>
        cases hk
        exact ⟨rfl, rfl, hstub⟩
      | succ k =>
        have h := hsites.2 k s hk
        rw [Nat.add_right_comm n 1 k] at h
        exact h

theorem count_lt_of_codeBound (h : codeBound b ≤ 0x80000000) :
  b.count < 0x80000000
  := by
  rw [codeBound] at h
  omega

theorem exitsAt_getElem? {start k jump : Nat} (finished : d.Finished b)
    (h : ((exitsAt start d.code).map (·.2))[k]? = some jump) :
  (k, jump) ∈ exitsAt start d.code
  := by
  rw [List.getElem?_map, Option.map_eq_some_iff] at h
  obtain ⟨⟨k', jump'⟩, hget, rfl⟩ := h
  have hfst : ((exitsAt start d.code).map (·.1))[k]? = some k' := by
    rw [List.getElem?_map, hget]
    rfl
  rw [map_fst_exitsAt, finished.numbers] at hfst
  obtain ⟨hlt, hget'⟩ := List.getElem?_eq_some_iff.mp hfst
  rw [List.getElem_range] at hget'
  rw [hget']
  exact List.mem_of_getElem? hget

/-- Every exit of code at an offset reaches its stub. -/
def Draft.Connects (d : Draft) (start : Nat) : Prop :=
  ∀ e ∈ exitsAt start d.code, Reaches e.2 (d.stub start e.1)

/-- Exits reach their stubs in a reservation of at most two gigabytes. -/
theorem Draft.Finished.connects (h : d.Finished b) (start : Nat)
    (near : codeBound b ≤ 0x80000000) :
  d.Connects start
  := by
  intro e he
  obtain ⟨stub, hstub⟩ := h.wellPlaced.exists_stub he
  have hstop := stop_le_costs start d.code
  have hcosts := h.costs
  rw [Draft.stub, hstub]
  exact reaches_of_stop_le (by omega) he hstub

/-- Writing the code of a block, which succeeds within its reservation if the block can be compiled and
every exit reaches its stub. -/
theorem emitBlock_meets_of_connects {safe : Prop} {f : Frame} {s : Services} {buf : Buffer}
    (lowers : safe → ∃ d, Host.lower s b = (.ok (), d))
    (room : safe → buf.offset + codeBound b ≤ buf.limit)
    (connects : safe → ∀ d, Host.lower s b = (.ok (), d) → d.Connects buf.offset) :
  Meets safe (emitBlock f s b buf) fun r => ∃ d, Emits f s b buf r.1 r.2 d
  := by
  unfold emitBlock
  rcases hlower : lower s b with ⟨r, d⟩
  cases r with
  | error c =>
    intro hsafe
    obtain ⟨d', hok⟩ := lowers hsafe
    rw [hlower] at hok
    cases hok
  | ok u =>
    have hfinished := finished_of_lower hlower
    have hstop : stop buf.offset d.code ≤ buf.offset + codeBound b :=
      Nat.le_trans (stop_le_costs _ _) (Nat.add_le_add_left hfinished.costs _)
    have hreach (hsafe : safe) (e : Nat × Nat) (he : e ∈ exitsAt buf.offset d.code) (stub : Nat)
        (hstub : offsetOf? (.stub e.1) buf.offset d.code = some stub) : Reaches e.2 stub := by
      have h := connects hsafe d hlower e he
      rw [Draft.stub, hstub] at h
      exact h
    refine (assemble_meets (fun _ => hfinished.wellPlaced) hreach).bind ?_
    rintro ⟨code, ls⟩ ⟨rfl, hplace, hreaches⟩
    have hlength := add_length_image (layoutAt f.leave buf.offset d.code) buf.offset d.code
    have hjumps := exitOffsets_eq buf.offset d.code []
    rw [List.reverse_nil, List.nil_append] at hjumps
    have hcount : (exitsAt buf.offset d.code).length = d.exitCount := by
      rw [← List.length_map (f := Prod.fst), map_fst_exitsAt, hfinished.numbers, List.length_range]
    have hemit : Meets safe (buf.emit (image (layoutAt f.leave buf.offset d.code) buf.offset d.code))
        fun buf' => stop buf.offset d.code ≤ buf.limit ∧
          buf' = Buffer.overwrite { buf with offset := stop buf.offset d.code } buf.offset
            (image (layoutAt f.leave buf.offset d.code) buf.offset d.code) := by
      rw [Buffer.emit, hlength]
      split
      case isTrue hfits => exact .ok ⟨hfits, by rw [hlength]⟩
      case isFalse hfits => exact fun hsafe => hfits (Nat.le_trans hstop (room hsafe))
    refine hemit.bind ?_
    rintro buf' ⟨hfits, hbuf'⟩
    rw [hjumps]
    refine (sitesOf_meets d.targets _ 0 fun _ k hk => ?_).bind ?_
    · rw [List.length_map] at hk
      have hmem := exitsAt_getElem? hfinished
        (List.getElem?_eq_getElem (l := (exitsAt buf.offset d.code).map (·.2)) (by simpa using hk))
      obtain ⟨stub, hstub, -⟩ := hreaches _ hmem
      exact ⟨stub, by rw [Nat.zero_add, hplace]; exact hstub⟩
    · rintro sites ⟨hlen, hsites⟩
      refine .ok ⟨d, hlower, hfits, hbuf', ?_, ?_, ?_⟩
      · rw [hlen, List.length_map, hcount, Draft.targets, List.length_reverse, hfinished.targets,
          Nat.min_self]
      · intro k s hs
        obtain ⟨htarget, hjump, hstub⟩ := hsites k s hs
        rw [Nat.zero_add, hplace] at hstub
        exact ⟨htarget, exitsAt_getElem? hfinished hjump, hstub⟩
      · intro e he
        obtain ⟨stub, hstub, hreach⟩ := hreaches e he
        rw [Draft.stub, hstub]
        exact hreach

/-- Writing the code of a block, which succeeds for a formed block within a reservation of at most two
gigabytes. -/
theorem emitBlock_meets {safe : Prop} {f : Frame} {s : Services} {buf : Buffer}
    (formed : safe → b.IsFormed) (room : safe → buf.offset + codeBound b ≤ buf.limit)
    (near : safe → codeBound b ≤ 0x80000000) :
  Meets safe (emitBlock f s b buf) fun r => ∃ d, Emits f s b buf r.1 r.2 d
  := by
  refine emitBlock_meets_of_connects (fun hsafe => ?_) room
    fun hsafe _ hlower => (finished_of_lower hlower).connects _ (near hsafe)
  obtain ⟨D, code, hlower, -⟩ := lower_eq ⟨0, s, fun _ => 0⟩ (formed hsafe)
    (Nat.lt_trans (count_lt_of_codeBound (near hsafe)) (by decide))
  exact ⟨_, hlower⟩

theorem exists_emitBlock {f : Frame} {s : Services} {buf : Buffer} (formed : b.IsFormed)
    (room : buf.offset + codeBound b ≤ buf.limit) (near : codeBound b ≤ 0x80000000) :
  ∃ sites buf', emitBlock f s b buf = .ok (sites, buf')
  := by
  have hmeets : Meets True (emitBlock f s b buf) _ :=
    emitBlock_meets (fun _ => formed) (fun _ => room) fun _ => near
  obtain ⟨⟨sites, buf'⟩, hemit, -⟩ := hmeets.exists_ok trivial
  exact ⟨sites, buf', hemit⟩

namespace Emits

variable {f : Frame} {s : Services} {buf buf' : Buffer} {sites : List Site}

theorem of_emitBlock (h : emitBlock f s b buf = .ok (sites, buf')) :
  ∃ d, Emits f s b buf sites buf' d
  := by
  have hmeets : Meets False (emitBlock f s b buf) _ :=
    emitBlock_meets_of_connects False.elim False.elim False.elim
  exact hmeets.post_of_eq h

theorem finished (h : Emits f s b buf sites buf' d) :
  d.Finished b
  := finished_of_lower h.lower

theorem lt_stop (h : Emits f s b buf sites buf' d) :
  buf.offset < stop buf.offset d.code
  := by
  obtain ⟨D, -, rfl⟩ := on_block_eq_ok h.lower
  have hpos : 0 < (budgetInstr .add b.count).size := Instr.size_pos trivial
  have hcode := le_stop buf.offset D.code
  have hrest := le_stop (stop buf.offset D.code + (budgetInstr .add b.count).size)
    ((pcCode b.pc).map .instr ++ leaveItems .budget ++ numbered faultItems D.faults.reverse 0 ++
      numbered stubItems D.exits.reverse 0)
  rw [Draft.code_push, stop_append, wayItems, budgetItems]
  exact Nat.lt_of_lt_of_le (by omega) hrest

theorem offset_eq (h : Emits f s b buf sites buf' d) :
  buf'.offset = stop buf.offset d.code
  := by
  rw [h.buffer, Buffer.offset_overwrite]

theorem has (h : Emits f s b buf sites buf' d) :
  Bytes.Has buf'.bytes buf.offset (image (layoutAt f.leave buf.offset d.code) buf.offset d.code)
  := by
  rw [h.buffer]
  exact Buffer.has_overwrite _ _ _

theorem offset_le (h : Emits f s b buf sites buf' d) :
  buf'.offset ≤ buf.offset + codeBound b
  := by
  have hstop := stop_le_costs buf.offset d.code
  have hcosts := h.finished.costs
  rw [h.offset_eq]
  omega

/-- What was written stands at the offset, with each exit leading to its stub, if it ends at most two
gigabytes behind the way back. -/
theorem standsAt (h : Emits f s b buf sites buf' d) (below : f.leave < buf.offset)
    (near : buf'.offset ≤ f.leave + 0x80000000) :
  d.StandsAt buf'.bytes f.leave buf.offset (d.stub buf.offset)
  := by
  rw [h.offset_eq] at near
  exact ⟨h.has, h.reaches, below, near⟩

end Emits

/-! ### Running what was written -/

/-- A run from `p` comes back to the engine, for a reason and with a guest. -/
def Arrives (env : Environment) (code : ByteArray) (leave : Nat) (p : Processor) (r : ExitReason)
    (g : Guest) : Prop :=
  ∃ n q, (∀ fuel, run env code leave (n + fuel + 1) p = .ok q) ∧
    q.reg .rax = BitVec.ofNat 64 r.code ∧ q.guest = g

/-- A run from `p` crashes. -/
def Crashes (env : Environment) (code : ByteArray) (leave : Nat) (p : Processor) (c : Crash) : Prop :=
  ∃ n, ∀ fuel, run env code leave (n + fuel) p = .error c

/-- A run from `p` through the code of a block ends as the instructions of the block do. -/
def Delivers (env : Environment) (code : ByteArray) (leave : Nat) (ending : Block.Ending)
    (p : Processor) : Except Crash (Except Exception Hart.StepExit × Guest) → Prop
  | .ok (r, g) => Arrives env code leave p (departure ending r) (observed r g)
  | .error c => Crashes env code leave p c

theorem Arrives.of_leads {code : ByteArray} {leave n : Nat} {p q : Processor} {r : ExitReason}
    (leads : Leads env code leave n p (q.at leave)) (reason : q.reg .rax = BitVec.ofNat 64 r.code) :
  Arrives env code leave p r q.guest
  := by
  refine ⟨n, q.at leave, fun fuel => ?_, reason, rfl⟩
  rw [Nat.add_assoc, leads, run, if_pos (position_at q leave)]

/-- Code whose exits lead to stubs comes back to the engine as the block is left. -/
theorem Yields.delivers {bytes : ByteArray} {leave start : Nat} {s : Services} {p : Processor}
    {x : Except Crash (Except Exception Hart.StepExit × Guest)}
    (stands : d.StandsAt bytes leave start (d.stub start)) (finished : d.Finished b)
    (hlower : lower s b = (.ok (), d)) (h : Yields d.targets env b.ending (Walks env d.code p) x) :
  Delivers env bytes leave b.ending (p.at start) x
  := by
  cases x with
  | error c =>
    obtain ⟨n, -, hfails⟩ := stands.follows finished h
    exact ⟨n, hfails⟩
  | ok x =>
    rw [Yields] at h
    rw [Delivers]
    generalize departure b.ending x.1 = reason at h ⊢
    generalize observed x.1 x.2 = g at h ⊢
    cases h with
    | exit exits target guest base =>
      obtain ⟨n, -, hexit⟩ := stands.follows finished exits
      obtain ⟨m, q', -, hstub, hrax, hguest⟩ := stands.leads_stub finished hlower target base
      rw [← guest, ← hguest]
      exact .of_leads (hexit.trans hstub) hrax
    | leave leaves reason =>
      obtain ⟨n, -, hleave⟩ := stands.follows finished leaves
      exact .of_leads hleave reason

end CrossHart.Host
