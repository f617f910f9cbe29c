import CrossHart.Proofs.Formation
import CrossHart.Proofs.Memory.Plain

/-!
# Instructions in memory

What is fetched depends on the bytes that are fetched and on nothing else.  So memory holds an
instruction as long as the bytes of the instruction stay the same, whatever else is written.
-/

namespace CrossHart.Memory

open CrossHart.Action Isa

variable {allows : Query → Bool} {m m' : Memory}

/-! ### Memories that agree on some bytes -/

/-- Memories of one layout with the same bytes at some addresses. -/
structure Agrees (allows : Query → Bool) (S : Word → Prop) (m m' : Memory) : Prop where
  left : m.Plain allows
  right : m'.Plain allows
  layout : m.space.SameLayout m'.space
  bytes : ∀ addr, S addr → m'.space.byteAt addr = m.space.byteAt addr

theorem Space.SameLayout.translate {s s' : Space} (h : s.SameLayout s') (addr : Word)
    (access : Access) :
  s'.translate allows addr access = s.translate allows addr access
  := by
  rw [Space.translate, Space.translate, h.resolve]

theorem Space.SameLayout.places {s s' : Space} (h : s.SameLayout s') {addr : Word} {position : Nat}
    (places : s.Places addr position) :
  s'.Places addr position
  := by
  refine ⟨?_, ?_, ?_⟩
  · rw [h.base]
    exact places.base
  · rw [h.base]
    exact places.addr
  · rw [h.size]
    exact places.room

section

variable {S : Word → Prop}

/-- What follows a translation happens at the same position of RAM. -/
theorem respects_locate_bind {α : Type} {addr : Word} {access : Access}
    {f : Backing → Action Memory Fault α}
    (h : ∀ m m' position, Agrees allows S m m' → m.space.Places addr position →
      Matches (Agrees allows S) ((f (.ram position)).on m) ((f (.ram position)).on m')) :
  Respects (Agrees allows S) (Memory.locate addr access >>= f)
  := by
  intro m m' agrees
  obtain ⟨n, hn, hlooks⟩ := agrees.left.locate addr access
  obtain ⟨n', hn', hlooks'⟩ := agrees.right.locate addr access
  have hagrees : Agrees allows S n n' := by
    refine ⟨hlooks.after, hlooks'.after, ?_, fun addr haddr => ?_⟩
    · rw [hlooks.space, hlooks'.space]
      exact agrees.layout
    · rw [hlooks.space, hlooks'.space, agrees.bytes addr haddr]
  rw [on_bind, on_bind, hn, hn', agrees.layout.translate]
  cases hb : m.space.translate allows addr access with
  | error e => exact .ok _ hagrees
  | ok b =>
    obtain ⟨position, rfl, hplaces, -⟩ := agrees.left.places hb
    rw [← hlooks.space] at hplaces
    exact h n n' position hagrees hplaces

/-- Reading within a page gives the bytes that are read. -/
theorem Agrees.readNat_eq (agrees : Agrees allows S m m') {addr : Word} {position size : Nat}
    (places : m.space.Places addr position) (inside : straddles addr size = false)
    (covered : ∀ k < size, S (addr + BitVec.ofNat 64 k)) :
  Bytes.readNat m'.space.ram position size = Bytes.readNat m.space.ram position size
  := by
  rw [Bytes.readNat, Bytes.readNat]
  congr 1
  apply Bytes.slice0_congr
  intro i hlow hhigh
  have hbytes := agrees.bytes _ (covered (i - position) (by omega))
  rw [places.byteAt_add inside (by omega), (agrees.layout.places places).byteAt_add inside (by omega),
    Nat.add_sub_cancel' hlow] at hbytes
  exact hbytes

theorem Agrees.matches_readAt (agrees : Agrees allows S m m') {addr : Word} {position size : Nat}
    (places : m.space.Places addr position) (inside : straddles addr size = false)
    (small : size ≤ 8) (covered : ∀ k < size, S (addr + BitVec.ofNat 64 k)) :
  Matches (Agrees allows S) ((readAt (.ram position) size).on m) ((readAt (.ram position) size).on m')
  := by
  rw [on_readAt small (places.fits inside),
    on_readAt small ((agrees.layout.places places).fits inside),
    agrees.readNat_eq places inside covered]
  exact .ok _ agrees

theorem respects_readEach_agrees (addr : Word) (access : Access) {n i : Nat} (small : i + n ≤ 8)
    (value : Word) (covered : ∀ k, k < i + n → S (addr + BitVec.ofNat 64 k)) :
  Respects (Agrees allows S) (readEach addr access n i value)
  := by
  induction n generalizing i value with
  | zero => exact .pure value
  | succ n ih =>
    apply respects_locate_bind
    intro m m' position agrees places
    have hbyte := agrees.matches_readAt places (not_straddles_one _) (by decide) (by
      intro k hk
      rw [Nat.lt_one_iff.mp hk, BitVec.add_zero]
      exact covered i (by omega))
    have hrest (byte : Word) : Respects (Agrees allows S)
        (Action.lift (byteShift i) >>= fun shift =>
          readEach addr access n (i + 1) (value ||| byte <<< shift)) :=
      (Respects.lift _).bind fun shift => ih (by omega) _ fun k hk => covered k (by omega)
    rw [on_bind, on_bind]
    obtain ⟨c, hs, ht⟩ | ⟨r, s, t, hs, ht, hst⟩ := hbyte.elim
    · rw [hs, ht]
      exact .crash c
    · rw [hs, ht]
      cases r with
      | ok byte => exact hrest byte s t hst
      | error e => exact .ok _ hst

/-- Reading depends on the bytes that are read. -/
theorem respects_read_agrees (addr : Word) {size : Nat} (small : size ≤ 8) (access : Access)
    (covered : ∀ k < size, S (addr + BitVec.ofNat 64 k)) :
  Respects (Agrees allows S) (read addr size access)
  := by
  unfold read
  split
  case isTrue =>
    exact respects_readEach_agrees addr access (by omega) 0 fun k hk => covered k (by omega)
  case isFalse inside =>
    apply respects_locate_bind
    intro m m' position agrees places
    exact agrees.matches_readAt places (Bool.eq_false_iff.mpr inside) small covered

theorem Agrees.fetch (agrees : Agrees allows S m m') {pc : Word} (first : S pc) (second : S (pc + 1))
    {half : BitVec 16} {n : Memory} (h : (Memory.fetch pc).on m = .ok (.ok half, n)) :
  ∃ n', (Memory.fetch pc).on m' = .ok (.ok half, n') ∧ Agrees allows S n n'
  := by
  have hcovered : ∀ k < 2, S (pc + BitVec.ofNat 64 k) := by
    intro k hk
    obtain rfl | rfl : k = 0 ∨ k = 1 := by omega
    · rw [BitVec.add_zero]
      exact first
    · exact second
  have hfetch : Respects (Agrees allows S) (Memory.fetch pc) :=
    (respects_read_agrees pc (by decide) .execute hcovered).bind fun _ => .pure _
  obtain ⟨c, hc, -⟩ | ⟨r, s, t, hs, ht, hst⟩ := (hfetch m m' agrees).elim
  · rw [hc] at h
    cases h
  · rw [hs] at h
    cases h
    exact ⟨t, ht, hst⟩

/-- The bits of an instruction depend on its own bytes. -/
theorem Agrees.fetchRaw (agrees : Agrees allows S m m') {pc : Word} {raw : BitVec 32} {n : Memory}
    (covered : ∀ k < Half.width (Encoding.low raw), S (pc + BitVec.ofNat 64 k))
    (h : (Block.fetchRaw Memory.fetch pc).on m = .ok (.ok raw, n)) :
  ∃ n', (Block.fetchRaw Memory.fetch pc).on m' = .ok (.ok raw, n')
  := by
  obtain ⟨low, t, hlow, hrest⟩ := on_bind_eq_ok.mp h
  have hwidth : Half.width (Encoding.low raw) = Half.width low := by
    split at hrest
    case isTrue =>
      obtain ⟨high, u, -, hrest⟩ := on_bind_eq_ok.mp hrest
      cases hrest
      rw [Encoding.low, BitVec.setWidth_append_eq_right]
    case isFalse =>
      cases hrest
      rw [Encoding.low, BitVec.setWidth_setWidth_of_le _ (by decide), BitVec.setWidth_eq]
  rw [hwidth, Half.width] at covered
  have htwo : 2 ≤ if Half.isFull low then 4 else 2 := by split <;> decide
  have hfirst := covered 0 (by omega)
  rw [BitVec.add_zero] at hfirst
  obtain ⟨t', hlow', hagrees⟩ := agrees.fetch hfirst (covered 1 (by omega)) hlow
  rw [Block.fetchRaw, on_bind, hlow']
  dsimp only
  split at hrest
  case isTrue hfull =>
    rw [if_pos hfull] at covered
    obtain ⟨high, u, hhigh, hrest⟩ := on_bind_eq_ok.mp hrest
    cases hrest
    have hthird : S (pc + 2) := covered 2 (by decide)
    have hfourth : S (pc + 2 + 1) := by
      rw [BitVec.add_assoc]
      exact covered 3 (by decide)
    obtain ⟨u', hhigh', -⟩ := hagrees.fetch hthird hfourth hhigh
    rw [if_pos hfull, on_bind, hhigh']
    exact ⟨u', rfl⟩
  case isFalse hhalf =>
    cases hrest
    rw [if_neg hhalf]
    exact ⟨t', rfl⟩

/-- An instruction depends on its own bytes. -/
theorem Agrees.readInstr (agrees : Agrees allows S m m') {d : Located} {n : Memory}
    (covered : ∀ k < d.width, S (d.pc + BitVec.ofNat 64 k))
    (h : (Block.readInstr Memory.fetch d.pc).on m = .ok (.ok d, n)) :
  ∃ n', (Block.readInstr Memory.fetch d.pc).on m' = .ok (.ok d, n')
  := by
  have hwidth := (Block.isDecoded_of_readInstr h).1.width_eq_low
  obtain ⟨pc, raw, i, width⟩ := d
  dsimp only at covered hwidth h ⊢
  obtain ⟨raw', t, hraw, hrest⟩ := on_bind_eq_ok.mp h
  have hraw' : raw' = raw := by
    split at hrest
    case h_1 => cases hrest; rfl
    case h_2 => cases hrest
  subst hraw'
  rw [hwidth] at covered
  obtain ⟨t', ht'⟩ := agrees.fetchRaw covered (on_of_adapt hraw)
  refine ⟨t', ?_⟩
  rw [Block.readInstr, on_bind, on_adapt, ht']
  dsimp only [Except.ok_map, Except.mapError]
  split at hrest
  case h_1 =>
    cases hrest
    rfl
  case h_2 => cases hrest

end

/-! ### Reading instructions -/

section

variable {σ : Type} {T : σ → σ → Prop} (course : IsCourse T) {fetch : Word → Action σ Fault Half}
  (fetches : ∀ pc, Stays T (fetch pc))

include course fetches

/-- Reading an instruction goes through where fetching does. -/
theorem stays_readInstr_of (pc : Word) :
  Stays T (Block.readInstr fetch pc)
  := by
  have hraw : Stays T (Block.fetchRaw fetch pc) := by
    apply (fetches pc).bind course
    intro low
    split
    · exact (fetches _).bind course fun _ => .pure _
    · exact .pure _
  apply (hraw.adapt _).bind course
  intro raw
  split
  · exact .pure _
  · exact .throw _

/-- Forming a block goes through where fetching does. -/
theorem stays_form_of (pc : Word) (limit : Nat) :
  Stays T (Block.form fetch pc limit)
  := by
  have hcollect (n : Nat) (pc : Word) (before : List Located) :
      Stays T (Block.collect fetch n pc before) := by
    induction n generalizing pc before with
    | zero =>
      unfold Block.collect
      apply (stays_readInstr_of course fetches pc).bind course
      intro d
      split <;> exact .pure _
    | succ n ih =>
      unfold Block.collect
      apply (stays_readInstr_of course fetches pc).bind course
      intro d
      split
      · exact .pure _
      · exact ih d.next (d :: before)
  exact (hcollect _ pc []).bind course fun _ => .pure _

end

/-- Reading an instruction looks at memory. -/
theorem stays_readInstr (pc : Word) :
  Stays (Looks allows) (Block.readInstr fetch pc)
  := stays_readInstr_of (isCourse_looks allows) stays_fetch pc

/-- Forming a block looks at memory. -/
theorem stays_form (pc : Word) (limit : Nat) :
  Stays (Looks allows) (Block.form fetch pc limit)
  := stays_form_of (isCourse_looks allows) stays_fetch pc limit

/-- Reading an instruction does not see the lookaside table. -/
theorem respects_readInstr (pc : Word) :
  Respects (Alike allows) (Block.readInstr fetch pc)
  := by
  have hraw : Respects (Alike allows) (Block.fetchRaw fetch pc) := by
    refine (respects_fetch pc).bind fun low => ?_
    split
    · exact (respects_fetch _).bind fun _ => .pure _
    · exact .pure _
  refine (hraw.adapt _).bind fun raw => ?_
  split
  · exact .pure _
  · exact .throw _

/-! ### Instructions that memory holds -/

/-- An instruction is what is read at its address. -/
def Space.Holds (allows : Query → Bool) (s : Space) (d : Located) : Prop :=
  ∀ m, m.Plain allows → m.space = s → ∃ m', (Block.readInstr fetch d.pc).on m = .ok (.ok d, m')

/-- An instruction that was read is there as long as its bytes are the same. -/
theorem Plain.holds_of_read (plain : m.Plain allows) {pc : Word} {d : Located}
    (read : (Block.readInstr fetch pc).on m = .ok (.ok d, m')) {s : Space}
    (layout : m.space.SameLayout s)
    (bytes : ∀ k < d.width, s.byteAt (d.pc + BitVec.ofNat 64 k) =
      m.space.byteAt (d.pc + BitVec.ofNat 64 k)) :
  s.Holds allows d
  := by
  rintro n hn rfl
  obtain ⟨-, rfl⟩ := Block.isDecoded_of_readInstr read
  have hagrees : Agrees allows (fun addr => n.space.byteAt addr = m.space.byteAt addr) m n :=
    ⟨plain, hn, layout, fun _ h => h⟩
  exact hagrees.readInstr bytes read

theorem Plain.holds_of_holds (plain : m.Plain allows) {d : Located} (holds : m.space.Holds allows d)
    {s : Space} (layout : m.space.SameLayout s)
    (bytes : ∀ k < d.width, s.byteAt (d.pc + BitVec.ofNat 64 k) =
      m.space.byteAt (d.pc + BitVec.ofNat 64 k)) :
  s.Holds allows d
  := by
  obtain ⟨m', read⟩ := holds m plain rfl
  exact plain.holds_of_read read layout bytes

theorem Plain.holds_of_collect (plain : m.Plain allows) {n : Nat} {pc : Word}
    {before ds : List Located} {e : Block.Ending}
    (h : (Block.collect fetch n pc before).on m = .ok (.ok (ds, e), m'))
    (earlier : ∀ d ∈ before, m.space.Holds allows d) :
  ∀ d ∈ ds, m.space.Holds allows d
  := by
  induction n generalizing pc before m with
  | zero =>
    obtain ⟨d, t, hread, h⟩ := Block.on_collect_eq_ok h
    have hd := plain.holds_of_read hread (.refl _) fun _ _ => rfl
    split at h
    all_goals
      obtain ⟨rfl, -⟩ := h
      simp only [List.mem_append, List.mem_reverse, List.mem_singleton]
      rintro d' (hd' | rfl)
      · exact earlier d' hd'
      · exact hd
  | succ n ih =>
    obtain ⟨d, t, hread, h⟩ := Block.on_collect_eq_ok h
    have hd := plain.holds_of_read hread (.refl _) fun _ _ => rfl
    split at h
    case isTrue =>
      obtain ⟨rfl, -⟩ := h
      simp only [List.mem_append, List.mem_reverse, List.mem_singleton]
      rintro d' (hd' | rfl)
      · exact earlier d' hd'
      · exact hd
    case isFalse =>
      have hlooks := (stays_readInstr pc m plain.looks).post_of_eq hread
      rw [← hlooks.space] at earlier hd ⊢
      exact ih hlooks.after h (List.forall_mem_cons.mpr ⟨hd, earlier⟩)

/-- Memory holds the instructions of a block that was formed. -/
theorem Plain.holds_of_form (plain : m.Plain allows) {pc : Word} {limit : Nat} {b : Block}
    (h : (Block.form fetch pc limit).on m = .ok (.ok b, m')) :
  ∀ d ∈ b.insns, m.space.Holds allows d
  := by
  obtain ⟨⟨ds, e⟩, t, hcollect, h⟩ := on_bind_eq_ok.mp h
  cases h
  exact plain.holds_of_collect hcollect fun d hd => (List.not_mem_nil hd).elim

/-! ### The rights of pages -/

/-- A translation without fault is of a page that may be accessed. -/
theorem Honest.allows_of_locate (honest : m.Honest allows) {addr : Word} {access : Access}
    {b : Backing} (h : (Memory.locate addr access).on m = .ok (.ok b, m')) :
  allows ⟨pageOf addr, access⟩ = true
  := by
  obtain ⟨t, ht, -⟩ := honest.locate addr access
  obtain ⟨hb, -⟩ := Prod.mk.inj (Except.ok.inj (ht.symm.trans h))
  exact (Space.resolve_of_translate hb).1

theorem Honest.allows_of_readEach (honest : m.Honest allows) {addr : Word} {access : Access}
    {n i : Nat} {value v : Word} (h : (readEach addr access n i value).on m = .ok (.ok v, m')) :
  ∀ k, i ≤ k → k < i + n → allows ⟨pageOf (addr + BitVec.ofNat 64 k), access⟩ = true
  := by
  induction n generalizing i value m with
  | zero =>
    intro k hlow hhigh
    omega
  | succ n ih =>
    intro k hlow hhigh
    obtain ⟨b, t, hlocate, h⟩ := on_bind_eq_ok.mp h
    obtain rfl | hlt := Nat.eq_or_lt_of_le hlow
    · exact honest.allows_of_locate hlocate
    · have ht := (honest.on (respects_locate _ _)).post_of_eq hlocate
      obtain ⟨byte, u, hbyte, h⟩ := on_bind_eq_ok.mp h
      have hu := (ht.on (respects_readAt _ _)).post_of_eq hbyte
      obtain ⟨shift, w, hshift, h⟩ := on_bind_eq_ok.mp h
      have hw := (hu.on (.lift _)).post_of_eq hshift
      exact ih hw h k hlt (by omega)

/-- What was read is on pages that may be read. -/
theorem Honest.allows_of_read (honest : m.Honest allows) {addr : Word} {size : Nat} {access : Access}
    {v : Word} (h : (read addr size access).on m = .ok (.ok v, m')) {k : Nat} (hk : k < size) :
  allows ⟨pageOf (addr + BitVec.ofNat 64 k), access⟩ = true
  := by
  unfold read at h
  split at h
  case isTrue =>
    exact honest.allows_of_readEach h k (Nat.zero_le _) (by omega)
  case isFalse inside =>
    obtain ⟨b, t, hlocate, -⟩ := on_bind_eq_ok.mp h
    have hpage : pageOf (addr + BitVec.ofNat 64 k) = pageOf addr := by
      have hlt := Space.Places.lt_of_not_straddles (Bool.eq_false_iff.mpr inside)
      have htop := addr.isLt
      rw [pageOf_eq_iff, BitVec.toNat_add, BitVec.toNat_ofNat]
      rw [pageSize] at hlt
      omega
    rw [hpage]
    exact honest.allows_of_locate hlocate

theorem Honest.allows_of_fetch (honest : m.Honest allows) {pc : Word} {half : BitVec 16}
    (h : (fetch pc).on m = .ok (.ok half, m')) {k : Nat} (hk : k < 2) :
  allows ⟨pageOf (pc + BitVec.ofNat 64 k), .execute⟩ = true
  := by
  obtain ⟨v, t, hread, -⟩ := on_bind_eq_ok.mp h
  exact honest.allows_of_read hread hk

/-- The bytes of an instruction that was read are on pages that may be executed. -/
theorem Honest.executable_of_read (honest : m.Honest allows) {pc : Word} {d : Located}
    (read : (Block.readInstr fetch pc).on m = .ok (.ok d, m')) {k : Nat} (hk : k < d.width) :
  allows ⟨pageOf (d.pc + BitVec.ofNat 64 k), .execute⟩ = true
  := by
  obtain ⟨hdecoded, rfl⟩ := Block.isDecoded_of_readInstr read
  have hwidth := hdecoded.width_eq_low
  obtain ⟨pc, raw, i, width⟩ := d
  dsimp only at hk hwidth read ⊢
  obtain ⟨raw', t, hraw, hrest⟩ := on_bind_eq_ok.mp read
  have hsame : raw' = raw := by
    split at hrest
    case h_1 => cases hrest; rfl
    case h_2 => cases hrest
  subst hsame
  obtain ⟨low, t₁, hlow, hrest⟩ := on_bind_eq_ok.mp (on_of_adapt hraw)
  by_cases hfirst : k < 2
  · exact honest.allows_of_fetch hlow hfirst
  · split at hrest
    case isTrue =>
      obtain ⟨high, t₂, hhigh, -⟩ := on_bind_eq_ok.mp hrest
      have honest₁ := (honest.on (respects_fetch pc)).post_of_eq hlow
      have hle : k < 4 := by
        rw [hwidth, Half.width] at hk
        split at hk <;> omega
      have hallowed := honest₁.allows_of_fetch hhigh (k := k - 2) (by omega)
      have haddr : pc + 2 + BitVec.ofNat 64 (k - 2) = pc + BitVec.ofNat 64 k := by
        rw [BitVec.add_assoc, show (2 : Word) = BitVec.ofNat 64 2 from rfl, ← BitVec.ofNat_add]
        congr 2
        omega
      rw [haddr] at hallowed
      exact hallowed
    case isFalse hhalf =>
      cases hrest
      rw [hwidth, Encoding.low, BitVec.setWidth_setWidth_of_le _ (by decide), BitVec.setWidth_eq,
        Half.width, if_neg hhalf] at hk
      exact absurd hk hfirst

/-- The bytes of an instruction that memory holds are on pages that may be executed. -/
theorem Plain.executable_of_holds (plain : m.Plain allows) {d : Located}
    (holds : m.space.Holds allows d) {k : Nat} (hk : k < d.width) :
  allows ⟨pageOf (d.pc + BitVec.ofNat 64 k), .execute⟩ = true
  := by
  obtain ⟨m', hread⟩ := holds m plain rfl
  exact plain.toHonest.executable_of_read hread hk

end CrossHart.Memory
