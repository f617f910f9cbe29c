import CrossHart.Proofs.Memory.Lookaside

/-!
# How fresh the entries of the lookaside table are

A policy may change its mind at any question.  A current entry of the lookaside table still has the
last answers that the policy gave for its page: while the entry is current nothing is asked about the
page, and what is discarded does not become current again before the generations come round.
-/

namespace CrossHart.Memory

/-! ### Questions and answers -/

namespace Policy

theorem lookup_cons (q q' : Query) (answer : Bool) (history : List (Query × Bool)) :
  ((q', answer) :: history).lookup q = if q = q' then some answer else history.lookup q
  := by
  rw [List.lookup_cons]
  by_cases h : q = q'
  · subst h
    simp
  · rw [beq_eq_false_iff_ne.mpr h, if_neg h]

/-- Asking about some accesses to a page, each once.  The newest answers are kept of each, and no
other question is asked. -/
theorem askEach_answers (p : Policy) (page : Word) {accesses : List Access} (nodup : accesses.Nodup) :
  ∃ newer, (p.askEach page accesses).2.history = newer ++ p.history ∧
    (∀ q : Query, q.page ≠ page ∨ q.access ∉ accesses → newer.lookup q = none) ∧
    (∀ a ∉ accesses, (p.askEach page accesses).1.contains (a, true) = false) ∧
    ∀ a ∈ accesses,
      newer.lookup ⟨page, a⟩ = some ((p.askEach page accesses).1.contains (a, true))
  := by
  induction accesses generalizing p with
  | nil => exact ⟨[], rfl, by simp, by simp [askEach], by simp⟩
  | cons a rest ih =>
    obtain ⟨hfirst, hrest⟩ := List.nodup_cons.mp nodup
    obtain ⟨newer, hhistory, hother, habsent, hanswers⟩ := ih (p.ask ⟨page, a⟩).2 hrest
    have hall : (p.askEach page (a :: rest)).1 =
        (a, (p.ask ⟨page, a⟩).1) :: ((p.ask ⟨page, a⟩).2.askEach page rest).1 := rfl
    refine ⟨newer ++ [(⟨page, a⟩, (p.ask ⟨page, a⟩).1)], ?_, ?_, ?_, ?_⟩
    · rw [List.append_assoc]
      apply hhistory
    · intro q hq
      have hne : q ≠ ⟨page, a⟩ := by
        rintro rfl
        simp at hq
      rw [List.lookup_append, hother q (hq.imp_right fun h hmem => h (List.mem_cons_of_mem a hmem)),
        lookup_cons, if_neg hne]
      rfl
    · intro b hb
      rw [List.mem_cons, not_or] at hb
      rw [hall, List.contains_cons, habsent b hb.2]
      simp [hb.1]
    · intro b hb
      rw [hall, List.contains_cons, List.lookup_append]
      by_cases hne : b = a
      · subst hne
        rw [hother _ (.inr hfirst), habsent b hfirst, lookup_cons, if_pos rfl]
        cases (p.ask ⟨page, b⟩).1 <;> simp
      · obtain hb | hb := List.mem_cons.mp hb
        · exact absurd hb hne
        · rw [hanswers b hb]
          simp [hne]

end Policy

namespace Lookaside

/-- An access that was just allowed is asked about first and the others after it.  The rights of the
page are the newest answers for it, and no other question is asked. -/
theorem askRights_answers (p : Policy) (page : Word) {access : Access}
    (allowed : (p.ask ⟨page, access⟩).1 = true) :
  ∃ newer, (askRights (p.ask ⟨page, access⟩).2 page access).2.history = newer ++ p.history ∧
    (∀ q : Query, q.page ≠ page → newer.lookup q = none) ∧
    ∀ a, newer.lookup ⟨page, a⟩ =
      some ((askRights (p.ask ⟨page, access⟩).2 page access).1.allows a)
  := by
  have hnodup : (Access.all.filter (· ≠ access)).Nodup := by
    cases access <;> decide
  have hmem (a : Access) : a ∈ Access.all.filter (· ≠ access) ↔ a ≠ access := by
    cases a <;> simp [Access.all]
  obtain ⟨newer, hhistory, hother, habsent, hanswers⟩ :=
    (p.ask ⟨page, access⟩).2.askEach_answers page hnodup
  have hfirst : (p.ask ⟨page, access⟩).2.history = (⟨page, access⟩, true) :: p.history := by
    rw [← allowed]
    rfl
  refine ⟨newer ++ [(⟨page, access⟩, true)], ?_, ?_, ?_⟩
  · rw [List.append_assoc, List.singleton_append, ← hfirst]
    apply hhistory
  · intro q hq
    have hne : q ≠ ⟨page, access⟩ := by
      rintro rfl
      exact hq rfl
    rw [List.lookup_append, hother q (.inl hq), Policy.lookup_cons, if_neg hne]
    rfl
  · intro a
    rw [List.lookup_append, askRights, Rights.allows_ofFun]
    by_cases hsame : a = access
    · subst hsame
      rw [hother _ (.inr fun h => (hmem a).mp h rfl), Policy.lookup_cons, if_pos rfl]
      simp
    · rw [hanswers a ((hmem a).mpr hsame)]
      simp [hsame]

/-! ### Current entries -/

variable {t t' : Lookaside} {p p' : Policy}

theorem entries_fill (t : Lookaside) (page : Word) (b : Backing) (rights : Rights) (i : Fin slotCount) :
  (t.fill page b rights).entries.get i =
    if slotOf page = i then some ⟨page, b, rights, t.slotGenerations.get i, t.generation⟩
    else t.entries.get i
  := by
  unfold fill
  dsimp only
  rw [Vector.get_set]
  split
  case isTrue h =>
    subst h
    rfl
  case isFalse => rfl

theorem slotGenerations_invalidate (t : Lookaside) (page : Word) (i : Fin slotCount) :
  (t.invalidate page).slotGenerations.get i =
    if slotOf page = i then t.slotGenerations.get i + 1 else t.slotGenerations.get i
  := by
  unfold invalidate
  dsimp only
  rw [Vector.get_set]
  split
  case isTrue h =>
    subst h
    rfl
  case isFalse => rfl

theorem entry?_eq (t : Lookaside) (page : Word) :
  t.entry? page =
    (t.entries.get (slotOf page)).filter fun e => e.page == page && t.isCurrent (slotOf page) e
  := rfl

/-- A current entry is of the page and of the current generations. -/
theorem entry?_eq_some {page : Word} {e : Entry} :
  t.entry? page = some e ↔ t.entries.get (slotOf page) = some e ∧ e.page = page ∧
    e.slotGeneration = t.slotGenerations.get (slotOf page) ∧ e.generation = t.generation
  := by
  simp [entry?_eq, isCurrent, Option.filter_eq_some_iff, Vector.getElem_val]

/-- Filling a slot makes an entry for one page and replaces those of all others of the slot. -/
theorem entry?_fill (t : Lookaside) (page : Word) (b : Backing) (rights : Rights) (page' : Word) :
  entry? (t.fill page b rights) page' =
    if page' = page then some ⟨page, b, rights, t.slotGenerations.get (slotOf page), t.generation⟩
    else if slotOf page' = slotOf page then none else t.entry? page'
  := by
  have hcurrent : (t.fill page b rights).isCurrent = t.isCurrent := rfl
  rw [entry?_eq, entries_fill, hcurrent]
  by_cases hpage : page' = page
  · subst hpage
    simp [isCurrent, Vector.getElem_val]
  · rw [if_neg hpage]
    by_cases hslot : slotOf page' = slotOf page
    · have hne : page ≠ page' := fun h => hpage h.symm
      simp [hslot, hne]
    · rw [if_neg hslot, if_neg fun h => hslot h.symm]
      rfl

/-- No entry is of a generation to come. -/
structure Dated (t : Lookaside) : Prop where
  slot : ∀ (i : Fin slotCount) e, t.entries.get i = some e →
    e.slotGeneration.toNat ≤ (t.slotGenerations.get i).toNat
  table : ∀ (i : Fin slotCount) e, t.entries.get i = some e → e.generation.toNat ≤ t.generation.toNat

theorem toNat_next {w : Word} (room : w.toNat + 1 < Word.count) :
  (w + 1).toNat = w.toNat + 1
  := by
  rw [BitVec.toNat_add, show (1 : Word).toNat = 1 from rfl, Nat.mod_eq_of_lt room]

/-- Invalidating a page leaves the other slots alone. -/
theorem entry?_invalidate_of_ne (t : Lookaside) {page page' : Word} (h : slotOf page' ≠ slotOf page) :
  entry? (t.invalidate page) page' = t.entry? page'
  := by
  apply Option.ext
  intro e
  rw [entry?_eq_some, entry?_eq_some, slotGenerations_invalidate, if_neg h.symm]
  rfl

namespace Dated

theorem entry?_invalidate (dated : t.Dated) {page page' : Word} (same : slotOf page' = slotOf page)
    (room : (t.slotGenerations.get (slotOf page)).toNat + 1 < Word.count) :
  entry? (t.invalidate page) page' = none
  := by
  apply Option.eq_none_iff_forall_ne_some.mpr
  intro e he
  obtain ⟨hentry, -, hslot, -⟩ := entry?_eq_some.mp he
  have hle := dated.slot (slotOf page') e hentry
  rw [slotGenerations_invalidate, if_pos same.symm] at hslot
  rw [hslot, same, toNat_next room] at hle
  omega

theorem entry?_flush (dated : t.Dated) (room : t.generation.toNat + 1 < Word.count) (page : Word) :
  t.flush.entry? page = none
  := by
  apply Option.eq_none_iff_forall_ne_some.mpr
  intro e he
  obtain ⟨hentry, -, -, htable⟩ := entry?_eq_some.mp he
  have hle := dated.table (slotOf page) e hentry
  rw [htable, flush, toNat_next room] at hle
  omega

theorem fill (dated : t.Dated) (page : Word) (b : Backing) (rights : Rights) :
  (t.fill page b rights).Dated
  := by
  constructor
  · intro i e he
    rw [entries_fill] at he
    split at he
    · cases he
      apply Nat.le_refl
    · apply dated.slot i e he
  · intro i e he
    rw [entries_fill] at he
    split at he
    · cases he
      apply Nat.le_refl
    · apply dated.table i e he

theorem invalidate (dated : t.Dated) (page : Word)
    (room : (t.slotGenerations.get (slotOf page)).toNat + 1 < Word.count) :
  (t.invalidate page).Dated
  := by
  constructor
  · intro i e he
    have hle := dated.slot i e he
    rw [slotGenerations_invalidate]
    split
    case isTrue h =>
      subst h
      rw [toNat_next room]
      omega
    case isFalse => exact hle
  · exact dated.table

theorem flush (dated : t.Dated) (room : t.generation.toNat + 1 < Word.count) :
  t.flush.Dated
  := by
  constructor
  · exact dated.slot
  · intro i e he
    have hle := dated.table i e he
    have hnext : t.flush.generation.toNat = t.generation.toNat + 1 := toNat_next room
    omega

end Dated

/-! ### Translations -/

/-- What a translation does, by what the table, the address space and the policy say. -/
inductive Translates (t : Lookaside) (s : Space) (p : Policy) (addr : Word) (access : Access) :
    Except Fault Backing → Lookaside → Policy → Prop where
  | hit {e : Entry} {b : Backing} (entry : t.entry? (pageOf addr) = some e)
      (allowed : e.rights.allows access = true) (shift : e.backing.shift (inPage addr) = .ok b) :
      Translates t s p addr access (.ok b) { t with hits := t.hits + 1 } p
  | refused {e : Entry} (entry : t.entry? (pageOf addr) = some e)
      (denied : e.rights.allows access = false) :
      Translates t s p addr access (.error ⟨addr, access⟩) { t with hits := t.hits + 1 } p
  | unmapped (entry : t.entry? (pageOf addr) = none) (unbacked : s.resolve addr = none) :
      Translates t s p addr access (.error ⟨addr, access⟩) { t with misses := t.misses + 1 } p
  | denied {b : Backing} (entry : t.entry? (pageOf addr) = none) (backed : s.resolve addr = some b)
      (denied : (p.ask ⟨pageOf addr, access⟩).1 = false) :
      Translates t s p addr access (.error ⟨addr, access⟩) { t with misses := t.misses + 1 }
        (p.ask ⟨pageOf addr, access⟩).2
  | filled {b b' : Backing} (entry : t.entry? (pageOf addr) = none)
      (backed : s.resolve addr = some b) (allowed : (p.ask ⟨pageOf addr, access⟩).1 = true)
      (shift : b.shift (inPage addr) = .ok b') :
      Translates t s p addr access (.ok b')
        ({ t with misses := t.misses + 1 }.fill (pageOf addr) b
          (askRights (p.ask ⟨pageOf addr, access⟩).2 (pageOf addr) access).1)
        (askRights (p.ask ⟨pageOf addr, access⟩).2 (pageOf addr) access).2

/-- A translation crashes only where it leaves the backing of a page. -/
theorem locate_translates (t : Lookaside) (s : Space) (p : Policy) (addr : Word) (access : Access) :
  Meets ((∀ e, t.entry? (pageOf addr) = some e → ∃ b, e.backing.shift (inPage addr) = .ok b) ∧
      ∀ b, s.resolve addr = some b → ∃ b', b.shift (inPage addr) = .ok b')
    (t.locate s p addr access) fun r => Translates t s p addr access r.1 r.2.1 r.2.2
  := by
  unfold locate
  dsimp only
  cases hentry : t.entry? (pageOf addr) with
  | some e =>
    dsimp only
    cases hallowed : e.rights.allows access with
    | true =>
      apply Meets.map
      apply (Meets.self fun hsafe => hsafe.1 e rfl).imp
      intro b hb
      apply Translates.hit hentry hallowed hb
    | false => exact .ok (.refused hentry hallowed)
  | none =>
    dsimp only
    cases hbacked : s.resolve addr with
    | none => exact .ok (.unmapped hentry hbacked)
    | some b =>
      dsimp only
      cases hanswer : p.ask ⟨pageOf addr, access⟩ with
      | mk allowed p' =>
        have hallowed : (p.ask ⟨pageOf addr, access⟩).1 = allowed := by rw [hanswer]
        have hpolicy : p' = (p.ask ⟨pageOf addr, access⟩).2 := by rw [hanswer]
        subst hpolicy
        cases allowed with
        | false => exact .ok (.denied hentry hbacked hallowed)
        | true =>
          apply Meets.map
          apply (Meets.self fun hsafe => hsafe.2 b rfl).imp
          intro b' hb'
          apply Translates.filled hentry hbacked hallowed hb'

namespace Translates

variable {s : Space} {addr : Word} {access : Access} {r : Except Fault Backing}

/-- A translation asks about its own page only. -/
theorem history (h : Translates t s p addr access r t' p') :
  ∃ newer, p'.history = newer ++ p.history ∧
    ∀ q : Query, q.page ≠ pageOf addr → newer.lookup q = none
  := by
  cases h with
  | hit => exact ⟨[], rfl, fun _ _ => rfl⟩
  | refused => exact ⟨[], rfl, fun _ _ => rfl⟩
  | unmapped => exact ⟨[], rfl, fun _ _ => rfl⟩
  | denied =>
    refine ⟨[(⟨pageOf addr, access⟩, _)], rfl, fun q hq => ?_⟩
    rw [Policy.lookup_cons, if_neg fun h => hq (congrArg Query.page h)]
    rfl
  | filled _ _ allowed =>
    obtain ⟨newer, hhistory, hother, -⟩ := askRights_answers p (pageOf addr) allowed
    exact ⟨newer, hhistory, hother⟩

/-- A fault leaves the current entries alone. -/
theorem entry?_of_fault {fault : Fault} (h : Translates t s p addr access (.error fault) t' p')
    (page : Word) :
  entry? t' page = t.entry? page
  := by
  cases h <;> rfl

/-- A new entry is of the current generations. -/
theorem dated (h : Translates t s p addr access r t' p') (dated : t.Dated) :
  t'.Dated
  := by
  have hmissed : { t with misses := t.misses + 1 }.Dated := ⟨dated.slot, dated.table⟩
  cases h with
  | hit => exact ⟨dated.slot, dated.table⟩
  | refused => exact ⟨dated.slot, dated.table⟩
  | unmapped => exact hmissed
  | denied => exact hmissed
  | filled => apply hmissed.fill

theorem generations (h : Translates t s p addr access r t' p') :
  t'.slotGenerations = t.slotGenerations ∧ t'.generation = t.generation
  := by
  cases h <;> exact ⟨rfl, rfl⟩

/-- An entry is new and has the answers just given, or it was there before and is of another page
than the one asked about. -/
theorem entry?_eq_some (h : Translates t s p addr access r t' p') {page : Word} {e : Entry}
    (he : entry? t' page = some e) :
  (page = pageOf addr ∧ s.resolve addr = some e.backing ∧
    ∃ newer, p'.history = newer ++ p.history ∧
      ∀ a, newer.lookup ⟨page, a⟩ = some (e.rights.allows a)) ∨
  ((page = pageOf addr → p' = p) ∧ t.entry? page = some e)
  := by
  cases h with
  | hit => exact .inr ⟨fun _ => rfl, he⟩
  | refused => exact .inr ⟨fun _ => rfl, he⟩
  | unmapped => exact .inr ⟨fun _ => rfl, he⟩
  | denied entry =>
    have he : t.entry? page = some e := he
    refine .inr ⟨?_, he⟩
    rintro rfl
    rw [entry] at he
    contradiction
  | filled entry backed allowed shift =>
    rw [entry?_fill] at he
    split at he
    case isTrue hpage =>
      subst hpage
      obtain rfl := Option.some.inj he
      obtain ⟨newer, hhistory, -, hanswers⟩ := askRights_answers p (pageOf addr) allowed
      exact .inl ⟨rfl, backed, newer, hhistory, hanswers⟩
    case isFalse hpage =>
      split at he
      · contradiction
      · exact .inr ⟨fun h => absurd h hpage, he⟩

end Translates

/-! ### Requests -/

/-- A request to a table.  RAM and devices are in whole pages. -/
inductive Request where
  | locate (space : Space) (aligned : space.Aligned) (addr : Word) (access : Access)
  | invalidate (page : Word)
  | flush

namespace Request

def isInvalidation : Request → Bool
  | invalidate _ => true
  | _ => false

def isFlush : Request → Bool
  | flush => true
  | _ => false

/-- The request empties the slot of a page. -/
def Discards (r : Request) (page : Word) : Prop :=
  match r with
  | locate .. => False
  | invalidate page' => slotOf page' = slotOf page
  | flush => True

/-- Carrying out a request. -/
def on (r : Request) : Lookaside × Policy → Except Crash (Lookaside × Policy)
  | (t, p) =>
    match r with
    | locate space _ addr access => (t.locate space p addr access).map Prod.snd
    | invalidate page => .ok (t.invalidate page, p)
    | flush => .ok (t.flush, p)

end Request

/-- The table and the policy after some requests to a new table, the newest first. -/
def after (policy : Policy) : List Request → Except Crash (Lookaside × Policy)
  | [] => .ok ({}, policy)
  | r :: earlier => do r.on (← after policy earlier)

variable {policy : Policy} {requests : List Request} {r : Request}

theorem Request.history_on (h : r.on (t, p) = .ok (t', p')) :
  p.history <:+ p'.history
  := by
  cases r with
  | locate space aligned addr access =>
    have htranslates := (t.locate_translates space p addr access).imp fun _ h => h.history
    rw [on] at h
    cases hlocate : t.locate space p addr access with
    | error c =>
      rw [hlocate] at h
      contradiction
    | ok result =>
      rw [hlocate] at h
      obtain ⟨result, t', p'⟩ := result
      cases h
      obtain ⟨newer, hhistory, -⟩ := htranslates.post_of_eq hlocate
      exact ⟨newer, hhistory.symm⟩
  | invalidate page =>
    cases h
    apply List.suffix_refl
  | flush =>
    cases h
    apply List.suffix_refl

/-- The answers of earlier requests are among those of later ones. -/
theorem after_suffix {earlier : List Request} (h : after policy requests = .ok (t, p))
    (suffix : earlier <:+ requests) :
  ∃ t₁ p₁, after policy earlier = .ok (t₁, p₁) ∧ p₁.history <:+ p.history
  := by
  induction requests generalizing t p with
  | nil =>
    obtain rfl := List.suffix_nil.mp suffix
    exact ⟨t, p, h, List.suffix_refl _⟩
  | cons r rest ih =>
    obtain rfl | hrest := List.suffix_cons_iff.mp suffix
    · exact ⟨t, p, h, List.suffix_refl _⟩
    · obtain ⟨⟨t', p'⟩, hafter, hon⟩ := Except.bind_eq_ok.mp h
      obtain ⟨t₁, p₁, hearlier, hsuffix⟩ := ih hafter hrest
      exact ⟨t₁, p₁, hearlier, hsuffix.trans (Request.history_on hon)⟩

/-! ### Recent answers -/

/-- The rights are the newest answers for a page, all given since its slot was last emptied. -/
def Recent (policy : Policy) (requests : List Request) (p : Policy) (page : Word) (rights : Rights) :
    Prop :=
  ∃ newer older, p.history = newer ++ older ∧
    (∀ access, newer.lookup ⟨page, access⟩ = some (rights.allows access)) ∧
    ∀ r earlier, r :: earlier <:+ requests → r.Discards page →
      ∃ t₁ p₁, after policy (r :: earlier) = .ok (t₁, p₁) ∧ p₁.history <:+ older

namespace Recent

variable {page : Word} {rights : Rights}

/-- Answers stay recent while nothing is asked about the page and its slot is not emptied. -/
theorem later (recent : Recent policy requests p page rights) {asked : List (Query × Bool)}
    (history : p'.history = asked ++ p.history) (other : ∀ a, asked.lookup ⟨page, a⟩ = none)
    (kept : ¬r.Discards page) :
  Recent policy (r :: requests) p' page rights
  := by
  obtain ⟨newer, older, hhistory, hanswers, hsince⟩ := recent
  refine ⟨asked ++ newer, older, ?_, ?_, ?_⟩
  · rw [history, hhistory, List.append_assoc]
  · intro access
    rw [List.lookup_append, other, hanswers]
    rfl
  · intro r' earlier hsuffix hdiscards
    obtain heq | hsuffix := List.suffix_cons_iff.mp hsuffix
    · cases heq
      exact absurd hdiscards kept
    · exact hsince r' earlier hsuffix hdiscards

/-- New answers are recent. -/
theorem of_answers (state : after policy requests = .ok (t, p)) {newer : List (Query × Bool)}
    (history : p'.history = newer ++ p.history)
    (answers : ∀ a, newer.lookup ⟨page, a⟩ = some (rights.allows a)) (kept : ¬r.Discards page) :
  Recent policy (r :: requests) p' page rights
  := by
  refine ⟨newer, p.history, history, answers, ?_⟩
  intro r' earlier hsuffix hdiscards
  obtain heq | hsuffix := List.suffix_cons_iff.mp hsuffix
  · cases heq
    exact absurd hdiscards kept
  · exact after_suffix state hsuffix

/-- The newest answer of all is the one given since the slot was emptied. -/
theorem lookup_history (recent : Recent policy requests p page rights) (access : Access) :
  p.history.lookup ⟨page, access⟩ = some (rights.allows access)
  := by
  obtain ⟨newer, older, hhistory, hanswers, -⟩ := recent
  rw [hhistory, List.lookup_append, hanswers]
  rfl

theorem since (recent : Recent policy requests p page rights) (access : Access) {r : Request}
    {earlier : List Request} (suffix : r :: earlier <:+ requests) (discards : r.Discards page) :
  ∃ t₁ p₁ newer, after policy (r :: earlier) = .ok (t₁, p₁) ∧ p.history = newer ++ p₁.history ∧
    newer.lookup ⟨page, access⟩ = some (rights.allows access)
  := by
  obtain ⟨newer, older, hhistory, hanswers, hsince⟩ := recent
  obtain ⟨t₁, p₁, hafter, between, hbetween⟩ := hsince r earlier suffix discards
  refine ⟨t₁, p₁, newer ++ between, hafter, ?_, ?_⟩
  · rw [hhistory, List.append_assoc, hbetween]
  · rw [List.lookup_append, hanswers]
    rfl

end Recent

/-- What requests keep, as long as the generations do not come round. -/
structure Kept (policy : Policy) (requests : List Request) (t : Lookaside) (p : Policy) : Prop where
  dated : t.Dated
  slots : ∀ i : Fin slotCount,
    (t.slotGenerations.get i).toNat ≤ requests.countP Request.isInvalidation
  table : t.generation.toNat ≤ requests.countP Request.isFlush
  backed : ∀ addr e, t.entry? (pageOf addr) = some e → ∃ b, e.backing.shift (inPage addr) = .ok b
  recent : ∀ page e, t.entry? page = some e → Recent policy requests p page e.rights

theorem kept_new (policy : Policy) :
  Kept policy [] {} policy
  := by
  have hentry (i : Fin slotCount) (e : Entry) : ({} : Lookaside).entries.get i ≠ some e := by
    rw [Vector.replicate_get]
    exact nofun
  have hcurrent (page : Word) (e : Entry) : entry? {} page ≠ some e := fun he =>
    hentry _ e (entry?_eq_some.mp he).1
  refine ⟨⟨?_, ?_⟩, ?_, Nat.le_refl 0, ?_, ?_⟩
  · intro i e he
    exact absurd he (hentry i e)
  · intro i e he
    exact absurd he (hentry i e)
  · intro i
    rw [Vector.replicate_get]
    apply Nat.le_refl
  · intro addr e he
    exact absurd he (hcurrent _ e)
  · intro page e he
    exact absurd he (hcurrent page e)

namespace Kept

variable (kept : Kept policy requests t p)
include kept

theorem locate (state : after policy requests = .ok (t, p)) (s : Space) (aligned : s.Aligned)
    (addr : Word) (access : Access) :
  ∃ result t' p', t.locate s p addr access = .ok (result, t', p') ∧
    Kept policy (.locate s aligned addr access :: requests) t' p'
  := by
  obtain ⟨⟨result, t', p'⟩, hlocate, h⟩ := (t.locate_translates s p addr access).exists_ok
    ⟨kept.backed addr, fun b hb => ⟨_, aligned.shift_eq hb⟩⟩
  dsimp only at h
  obtain ⟨hslots, htable⟩ := h.generations
  have hkeeps (page : Word) : ¬(Request.locate s aligned addr access).Discards page := not_false
  refine ⟨result, t', p', hlocate, h.dated kept.dated, ?_, ?_, ?_, ?_⟩
  · rw [hslots]
    apply kept.slots
  · rw [htable]
    apply kept.table
  · intro addr' e he
    obtain ⟨hpage, hbacked, -⟩ | ⟨-, he⟩ := h.entry?_eq_some he
    · rw [← s.resolve_congr hpage] at hbacked
      exact ⟨_, aligned.shift_eq hbacked⟩
    · apply kept.backed addr' e he
  · intro page e he
    obtain ⟨-, -, newer, hhistory, hanswers⟩ | ⟨hsame, he⟩ := h.entry?_eq_some he
    · apply Recent.of_answers state hhistory hanswers (hkeeps page)
    · by_cases hpage : page = pageOf addr
      · rw [hsame hpage]
        apply (kept.recent page e he).later (List.nil_append _).symm (fun _ => rfl) (hkeeps page)
      · obtain ⟨asked, hhistory, hother⟩ := h.history
        apply (kept.recent page e he).later hhistory (fun a => hother _ hpage) (hkeeps page)

theorem invalidate {page : Word} (room : requests.countP Request.isInvalidation + 1 < Word.count) :
  Kept policy (.invalidate page :: requests) (t.invalidate page) p
  := by
  have hroom := Nat.lt_of_le_of_lt (Nat.succ_le_succ (kept.slots (slotOf page))) room
  have hentry {page' : Word} {e : Entry} (he : entry? (t.invalidate page) page' = some e) :
      ¬(Request.invalidate page).Discards page' ∧ t.entry? page' = some e := by
    by_cases hslot : slotOf page' = slotOf page
    · rw [kept.dated.entry?_invalidate hslot hroom] at he
      contradiction
    · rw [entry?_invalidate_of_ne t hslot] at he
      exact ⟨fun h => hslot h.symm, he⟩
  refine ⟨kept.dated.invalidate page hroom, ?_, kept.table, ?_, ?_⟩
  · intro i
    have hle := kept.slots i
    rw [slotGenerations_invalidate, List.countP_cons_of_pos rfl]
    split
    case isTrue h =>
      subst h
      rw [toNat_next hroom]
      omega
    case isFalse => omega
  · intro addr e he
    apply kept.backed addr e (hentry he).2
  · intro page' e he
    obtain ⟨hkeeps, he⟩ := hentry he
    apply (kept.recent page' e he).later (List.nil_append _).symm (fun _ => rfl) hkeeps

theorem flush (room : requests.countP Request.isFlush + 1 < Word.count) :
  Kept policy (.flush :: requests) t.flush p
  := by
  have hroom := Nat.lt_of_le_of_lt (Nat.succ_le_succ kept.table) room
  have hentry (page : Word) : t.flush.entry? page = none := kept.dated.entry?_flush hroom page
  have hnext : t.flush.generation.toNat = t.generation.toNat + 1 := toNat_next hroom
  refine ⟨kept.dated.flush hroom, kept.slots, ?_, ?_, ?_⟩
  · rw [List.countP_cons_of_pos rfl, hnext]
    exact Nat.succ_le_succ kept.table
  · intro addr e he
    simp [hentry] at he
  · intro page e he
    simp [hentry] at he

end Kept

/-- Requests return, and keep what each of them keeps. -/
theorem after_kept (policy : Policy) {requests : List Request}
    (invalidations : requests.countP Request.isInvalidation < Word.count)
    (flushes : requests.countP Request.isFlush < Word.count) :
  ∃ t p, after policy requests = .ok (t, p) ∧ Kept policy requests t p
  := by
  induction requests with
  | nil => exact ⟨{}, policy, rfl, kept_new policy⟩
  | cons r earlier ih =>
    rw [List.countP_cons] at invalidations flushes
    obtain ⟨t, p, hafter, kept⟩ := ih (by omega) (by omega)
    rw [after, hafter, Except.ok_bind]
    cases r with
    | locate s aligned addr access =>
      obtain ⟨result, t', p', hlocate, kept'⟩ := kept.locate hafter s aligned addr access
      refine ⟨t', p', ?_, kept'⟩
      rw [Request.on, hlocate]
      rfl
    | invalidate page => exact ⟨_, _, rfl, kept.invalidate invalidations⟩
    | flush => exact ⟨_, _, rfl, kept.flush flushes⟩

/-- Every current entry has the last answers that the policy gave for its page, all three given since
the table was last flushed and since a page of its slot was last invalidated.  A fault changes no
entry, an invalidation empties its slot and no other, and a flush empties all. -/
theorem entries_have_last_answers (policy : Policy) (requests : List Request)
    (invalidations : requests.countP Request.isInvalidation < Word.count)
    (flushes : requests.countP Request.isFlush < Word.count) :
  ∃ t p, after policy requests = .ok (t, p) ∧
    (∀ page e, t.entry? page = some e → ∀ access,
      p.history.lookup ⟨page, access⟩ = some (e.rights.allows access) ∧
      ∀ r earlier, r :: earlier <:+ requests → r.Discards page →
        ∃ t₁ p₁ newer, after policy (r :: earlier) = .ok (t₁, p₁) ∧
          p.history = newer ++ p₁.history ∧
          newer.lookup ⟨page, access⟩ = some (e.rights.allows access)) ∧
    (∀ space addr access fault t' p',
      t.locate space p addr access = .ok (.error fault, t', p') →
        ∀ page, entry? t' page = t.entry? page) ∧
    (∀ page, requests.countP Request.isInvalidation + 1 < Word.count →
      entry? (t.invalidate page) page = none ∧
      ∀ page', slotOf page' ≠ slotOf page → entry? (t.invalidate page) page' = t.entry? page') ∧
    (requests.countP Request.isFlush + 1 < Word.count → ∀ page, t.flush.entry? page = none)
  := by
  obtain ⟨t, p, hafter, kept⟩ := after_kept policy invalidations flushes
  refine ⟨t, p, hafter, ?_, ?_, ?_, ?_⟩
  · intro page e he access
    refine ⟨(kept.recent page e he).lookup_history access, ?_⟩
    intro r earlier hsuffix hdiscards
    apply (kept.recent page e he).since access hsuffix hdiscards
  · intro space addr access fault t' p' hlocate page
    apply ((t.locate_translates space p addr access).post_of_eq hlocate).entry?_of_fault
  · intro page room
    refine ⟨?_, fun page' hslot => entry?_invalidate_of_ne t hslot⟩
    apply kept.dated.entry?_invalidate rfl
    exact Nat.lt_of_le_of_lt (Nat.succ_le_succ (kept.slots (slotOf page))) room
  · intro room page
    apply kept.dated.entry?_flush
    exact Nat.lt_of_le_of_lt (Nat.succ_le_succ kept.table) room

/-- A policy that refuses every fourth question, from the second on. -/
def fickle : Policy where
  answer history _ := history.length % 4 != 1

/-- A byte of RAM from the second page on. -/
def onePage : Space where
  ram := ⟨#[0]⟩
  base := 0x1000

theorem aligned_onePage :
  onePage.Aligned
  := ⟨by decide, nofun⟩

/-- Two reads of a page, between which another page of its slot is invalidated. -/
def reread : List Request :=
  [.locate onePage aligned_onePage 0x1000 .read, .invalidate 65,
    .locate onePage aligned_onePage 0x1000 .read]

/-- At the first read the page can be executed and not written, at the second the other way round. -/
theorem entries_have_last_answers_when_reread :
  reread.countP Request.isInvalidation < Word.count ∧ reread.countP Request.isFlush < Word.count ∧
    ∃ t p e, after fickle reread = .ok (t, p) ∧ t.entry? 1 = some e ∧
      e.rights = ⟨true, true, false⟩ ∧
      ∀ access, p.history.lookup ⟨1, access⟩ = some (e.rights.allows access)
  := by
  have hinvalidations : reread.countP Request.isInvalidation < Word.count := by decide
  have hflushes : reread.countP Request.isFlush < Word.count := by decide
  refine ⟨hinvalidations, hflushes, ?_⟩
  obtain ⟨t, p, hafter, hentries, -⟩ :=
    entries_have_last_answers fickle reread hinvalidations hflushes
  have hrights : (after fickle reread).map (fun s => Entry.rights <$> entry? s.1 1) =
      .ok (some ⟨true, true, false⟩) := rfl
  rw [hafter] at hrights
  obtain ⟨e, he, hrights⟩ := Option.map_eq_some_iff.mp (Except.ok.inj hrights)
  exact ⟨t, p, e, hafter, he, hrights, fun access => (hentries 1 e he access).1⟩

end Lookaside

end CrossHart.Memory
