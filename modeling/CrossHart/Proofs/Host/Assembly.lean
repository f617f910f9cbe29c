import CrossHart.Host.Assembly
import CrossHart.Proofs.Host.Encoding
import CrossHart.Proofs.Host.Size
import CrossHart.Proofs.Outcome

/-!
# Images of assembly

The bytes of items depend on where their jumps lead.  Given a `Layout`, which says so for all
jumps at once, `Item.image` gives the bytes of items without failing.  Assembling gives the image
for the layout that its first pass finds, and redirecting an exit gives the image for the layout
with that exit changed.
-/

namespace CrossHart.Host

/-! ### Sizes -/

theorem jumpPadding_lt (offset : Nat) :
  jumpPadding offset < 4
  := by
  unfold jumpPadding Size.roundUp
  omega

theorem length_nopBytes {n : Nat} (h : n ≤ 8) :
  (nopBytes n).length = n
  := by
  revert n
  decide

theorem padding_eq_nopBytes {n : Nat} (h : n ≤ 8) :
  padding n = nopBytes n
  := by
  rw [padding]
  split
  case isTrue hzero =>
    rw [hzero]
    rfl
  case isFalse => rfl

@[simp]
theorem length_padding (n : Nat) :
  (padding n).length = n
  := by
  fun_induction padding n with
  | case1 => rfl
  | case2 n hpos hle => apply length_nopBytes hle
  | case3 n hpos hgt ih =>
    rw [List.length_append, ih, length_nopBytes (by decide)]
    omega

@[simp]
theorem Instr.size_jmp (disp : BitVec 32) :
  (Instr.jmp disp).size = jumpSize
  := by simp [Instr.size, Instr.encode, jumpSize]

@[simp]
theorem Instr.size_jcc (c : Cond) (disp : BitVec 32) :
  (Instr.jcc c disp).size = Item.branchSize
  := by simp [Instr.size, Instr.encode, Opcode.bytes, Opcode.rex, Item.branchSize]

/-- Where the jumps of a block's code lead. -/
structure Layout where
  /-- The places of the targets within the code. -/
  target : Target → Nat
  /-- Where each exit leads. -/
  exit : Nat → Nat
  /-- The way back to the engine. -/
  leave : Nat

namespace Item

/-- The bytes of an item at an offset. -/
def bytes (l : Layout) (offset : Nat) : Item → List UInt8
  | instr i => i.encode
  | branch c t => Instr.encode (.jcc c (displacement (offset + branchSize) (l.target t)))
  | place _ => []
  | exit n =>
    padding (jumpPadding offset) ++
      Instr.encode (.jmp (displacement (offset + jumpPadding offset + jumpSize) (l.exit n)))
  | leave => Instr.encode (.jmp (displacement (offset + jumpSize) l.leave))

/-- The bytes of items that start at an offset. -/
def image (l : Layout) : Nat → List Item → List UInt8
  | _, [] => []
  | offset, item :: rest => item.bytes l offset ++ image l (offset + item.size offset) rest

/-- The number and the jump of each exit among items that start at an offset. -/
def exitsAt : Nat → List Item → List (Nat × Nat)
  | _, [] => []
  | offset, .exit n :: rest =>
    (n, offset + jumpPadding offset) :: exitsAt (offset + (Item.exit n).size offset) rest
  | offset, item :: rest => exitsAt (offset + item.size offset) rest

/-- The offset of a target among items that start at an offset. -/
def offsetOf? (t : Target) : Nat → List Item → Option Nat
  | _, [] => none
  | offset, .place t' :: rest => if t' = t then some offset else offsetOf? t offset rest
  | offset, item :: rest => offsetOf? t (offset + item.size offset) rest

/-- The targets among items. -/
def places (items : List Item) : List Target :=
  items.filterMap fun
    | place t => some t
    | _ => none

@[simp]
theorem length_bytes (l : Layout) (offset : Nat) (item : Item) :
  (item.bytes l offset).length = item.size offset
  := by
  cases item with
  | instr i => rfl
  | branch c t => apply Instr.size_jcc
  | place t => rfl
  | exit n =>
    rw [bytes, List.length_append, length_padding]
    exact congrArg _ (Instr.size_jmp _)
  | leave => apply Instr.size_jmp

@[simp]
theorem stop_nil (offset : Nat) :
  stop offset [] = offset
  := rfl

@[simp]
theorem stop_cons (offset : Nat) (item : Item) (rest : List Item) :
  stop offset (item :: rest) = stop (offset + item.size offset) rest
  := rfl

theorem stop_append (offset : Nat) (items rest : List Item) :
  stop offset (items ++ rest) = stop (stop offset items) rest
  := List.foldl_append

theorem le_stop (offset : Nat) (items : List Item) :
  offset ≤ stop offset items
  := by
  induction items generalizing offset with
  | nil => apply Nat.le_refl
  | cons item rest ih => exact Nat.le_trans (Nat.le_add_right _ _) (ih _)

theorem add_length_image (l : Layout) (offset : Nat) (items : List Item) :
  offset + (image l offset items).length = stop offset items
  := by
  induction items generalizing offset with
  | nil => rfl
  | cons item rest ih =>
    rw [image, List.length_append, length_bytes, ← Nat.add_assoc, ih, stop_cons]

theorem image_append (l : Layout) (offset : Nat) (items rest : List Item) :
  image l offset (items ++ rest) = image l offset items ++ image l (stop offset items) rest
  := by
  induction items generalizing offset with
  | nil => rfl
  | cons item items ih => rw [List.cons_append, image, ih, image, List.append_assoc, stop_cons]

/-- The numbers of the exits do not depend on where the items are. -/
def exitNumbers (items : List Item) : List Nat :=
  items.filterMap fun
    | exit n => some n
    | _ => none

theorem map_fst_exitsAt (offset : Nat) (items : List Item) :
  (exitsAt offset items).map (·.1) = exitNumbers items
  := by
  induction items generalizing offset with
  | nil => rfl
  | cons item items ih => cases item <;> simp [exitsAt, exitNumbers, ih]

theorem exitsAt_append (offset : Nat) (items rest : List Item) :
  exitsAt offset (items ++ rest) = exitsAt offset items ++ exitsAt (stop offset items) rest
  := by
  induction items generalizing offset with
  | nil => rfl
  | cons item items ih => cases item <;> simp [exitsAt, ih]

theorem exitOffsets_eq (offset : Nat) (items : List Item) (done : List Nat) :
  exitOffsets offset items done = done.reverse ++ (exitsAt offset items).map (·.2)
  := by
  induction items generalizing offset done with
  | nil => simp [exitOffsets, exitsAt]
  | cons item items ih => cases item <;> simp [exitOffsets, exitsAt, ih]

/-! ### The places of targets -/

/-- The place that labels give a target, zero if they give none. -/
def placeAt (ls : Labels) (t : Target) : Nat :=
  (ls.label t).place.getD 0

theorem placeOf_eq_ok {ls : Labels} {t : Target} {n : Nat} :
  ls.placeOf t = .ok n ↔ (ls.label t).place = some n
  := by
  unfold Labels.placeOf
  split <;> simp_all

theorem placeAt_of_placeOf {ls : Labels} {t : Target} {n : Nat} (h : ls.placeOf t = .ok n) :
  placeAt ls t = n
  := by
  rw [placeAt, placeOf_eq_ok.mp h]
  rfl

theorem bind_eq_ok {ls ls' : Labels} {t : Target} {offset : Nat} :
  ls.bind t offset = .ok ls' ↔
    (ls.label t).place = none ∧ ls' = (t, { place := some offset }) :: ls
  := by
  unfold Labels.bind Label.bind
  split
  case h_1 h => simp [h, bind, Except.bind]
  case h_2 h => simp [h, bind, Except.bind, pure, Except.pure, eq_comm]

theorem label_cons (t t' : Target) (l : Label) (ls : Labels) :
  Labels.label ((t', l) :: ls) t = if t = t' then l else ls.label t
  := by
  unfold Labels.label
  rw [List.lookup_cons]
  by_cases h : t = t'
  · simp [h]
  · simp [h, beq_false_of_ne h]

/-- The first pass finds every target, or gives the place it had before. -/
theorem place_labels {offset : Nat} {items : List Item} {ls ls' : Labels}
    (h : labels offset items ls = .ok ls') (t : Target) :
  (ls'.label t).place = (ls.label t).place.or (offsetOf? t offset items)
  := by
  induction items generalizing offset ls with
  | nil =>
    cases h
    simp [offsetOf?]
  | cons item rest ih =>
    cases item with
    | place t' =>
      obtain ⟨ls₁, hbind, hrest⟩ := Except.bind_eq_ok.mp h
      obtain ⟨hnew, rfl⟩ := bind_eq_ok.mp hbind
      rw [ih hrest, label_cons, offsetOf?]
      by_cases ht : t = t'
      · subst ht
        simp [hnew]
      · rw [if_neg ht, if_neg (Ne.symm ht)]
    | _ => exact ih h

/-- The first pass succeeds if no target occurs twice. -/
theorem labels_isOk {items : List Item} (distinct : (places items).Nodup) (offset : Nat)
    (ls : Labels) (new : ∀ t ∈ places items, (ls.label t).place = none) :
  ∃ ls', labels offset items ls = .ok ls'
  := by
  induction items generalizing offset ls with
  | nil => exact ⟨ls, rfl⟩
  | cons item rest ih =>
    cases item with
    | place t =>
      obtain ⟨hnot, hrest⟩ := List.nodup_cons.mp distinct
      have hbind : ls.bind t offset = .ok ((t, { place := some offset }) :: ls) :=
        bind_eq_ok.mpr ⟨new t (by simp [places]), rfl⟩
      rw [labels, hbind]
      apply ih hrest
      intro t' ht'
      rw [label_cons, if_neg]
      · apply new
        exact List.mem_cons_of_mem t ht'
      · rintro rfl
        exact hnot ht'
    | _ => exact ih distinct _ ls new

theorem offsetOf?_eq_some {t : Target} {offset n : Nat} {items : List Item}
    (h : offsetOf? t offset items = some n) :
  ∃ before after, items = before ++ place t :: after ∧ n = stop offset before
  := by
  induction items generalizing offset with
  | nil => cases h
  | cons item rest ih =>
    cases item with
    | place t' =>
      rw [offsetOf?] at h
      split at h
      case isTrue ht =>
        cases h
        exact ⟨[], rest, by rw [ht]; rfl, rfl⟩
      case isFalse =>
        obtain ⟨before, after, rfl, rfl⟩ := ih h
        exact ⟨place t' :: before, after, rfl, rfl⟩
    | _ =>
      obtain ⟨before, after, rfl, rfl⟩ := ih h
      exact ⟨_ :: before, after, rfl, rfl⟩

theorem offsetOf?_isSome {t : Target} {items : List Item} (h : t ∈ places items) (offset : Nat) :
  ∃ n, offsetOf? t offset items = some n
  := by
  induction items generalizing offset with
  | nil => cases h
  | cons item rest ih =>
    cases item with
    | place t' =>
      rw [offsetOf?]
      by_cases ht : t' = t
      · exact ⟨offset, if_pos ht⟩
      · obtain heq | hrest := List.mem_cons.mp h
        · exact False.elim (ht heq.symm)
        · rw [if_neg ht]
          exact ih hrest offset
    | _ => exact ih h _

theorem offsetOf?_le {t : Target} {offset n : Nat} {items : List Item}
    (h : offsetOf? t offset items = some n) :
  n ≤ stop offset items
  := by
  obtain ⟨before, after, rfl, rfl⟩ := offsetOf?_eq_some h
  rw [stop_append]
  apply le_stop

theorem le_offsetOf? {t : Target} {offset n : Nat} {items : List Item}
    (h : offsetOf? t offset items = some n) :
  offset ≤ n
  := by
  obtain ⟨before, after, rfl, rfl⟩ := offsetOf?_eq_some h
  apply le_stop

/-! ### Exits -/

/-- The jumps of exits lie within the code, with their displacements at multiples of four. -/
theorem mem_exitsAt {offset : Nat} {items : List Item} {e : Nat × Nat}
    (h : e ∈ exitsAt offset items) :
  offset ≤ e.2 ∧ e.2 + jumpSize ≤ stop offset items ∧ (e.2 + 1) % 4 = 0
  := by
  induction items generalizing offset with
  | nil => cases h
  | cons item rest ih =>
    have hle := Nat.le_add_right offset (item.size offset)
    cases item with
    | exit n =>
      obtain rfl | hrest := List.mem_cons.mp h
      · have hstop := le_stop (offset + (exit n).size offset) rest
        refine ⟨Nat.le_add_right _ _, ?_, ?_⟩
        · rw [stop_cons]
          simp only [size] at hstop ⊢
          omega
        · simp only [jumpPadding, Size.roundUp]
          omega
      · obtain ⟨hstart, hrest⟩ := ih hrest
        exact ⟨Nat.le_trans hle hstart, hrest⟩
    | _ =>
      obtain ⟨hstart, hrest⟩ := ih h
      exact ⟨Nat.le_trans hle hstart, hrest⟩

/-- The jumps of exits come one after the other. -/
theorem pairwise_exitsAt (offset : Nat) (items : List Item) :
  (exitsAt offset items).Pairwise fun e f => e.2 + jumpSize ≤ f.2
  := by
  induction items generalizing offset with
  | nil => apply List.Pairwise.nil
  | cons item rest ih =>
    cases item with
    | exit n =>
      apply List.Pairwise.cons
      · intro f hf
        have hstart := (mem_exitsAt hf).1
        simp only [size] at hstart
        omega
      · apply ih
    | _ => apply ih

/-- Code with the image of items has the jump of each exit. -/
theorem has_exit {l : Layout} {offset : Nat} {items : List Item} {code : ByteArray}
    (h : Bytes.Has code offset (image l offset items)) {e : Nat × Nat}
    (he : e ∈ exitsAt offset items) :
  Bytes.Has code e.2 (Instr.encode (.jmp (displacement (e.2 + jumpSize) (l.exit e.1))))
  := by
  induction items generalizing offset with
  | nil => cases he
  | cons item rest ih =>
    obtain ⟨hitem, hrest⟩ := Bytes.Has.append_iff.mp h
    rw [length_bytes] at hrest
    cases item with
    | exit n =>
      obtain rfl | he := List.mem_cons.mp he
      · obtain ⟨-, hjump⟩ := Bytes.Has.append_iff.mp hitem
        rw [length_padding] at hjump
        exact hjump
      · exact ih hrest he
    | _ => exact ih hrest he

/-- Code that differs from an image in the displacements of exits only is the image for the layout
with which these agree. -/
theorem has_image_of_exits {l l' : Layout} {offset : Nat} {items : List Item}
    {code code' : ByteArray} (target : l'.target = l.target) (leave : l'.leave = l.leave)
    (h : Bytes.Has code offset (image l offset items))
    (same : ∀ i, offset ≤ i → i < stop offset items →
      (∀ e ∈ exitsAt offset items, ¬(e.2 + 1 ≤ i ∧ i < e.2 + jumpSize)) →
      Bytes.at0 code' i = Bytes.at0 code i)
    (exits : ∀ e ∈ exitsAt offset items,
      Bytes.Has code' (e.2 + 1) (field32 (displacement (e.2 + jumpSize) (l'.exit e.1)))) :
  Bytes.Has code' offset (image l' offset items)
  := by
  induction items generalizing offset with
  | nil => apply Bytes.Has.nil
  | cons item rest ih =>
    obtain ⟨hitem, hrest⟩ := Bytes.Has.append_iff.mp h
    have hstop := le_stop (offset + item.size offset) rest
    have hlater : ∀ e ∈ exitsAt (offset + item.size offset) rest, offset + item.size offset ≤ e.2 :=
      fun e he => (mem_exitsAt he).1
    rw [length_bytes] at hrest
    apply Bytes.Has.append_iff.mpr
    rw [length_bytes]
    cases item with
    | exit n =>
      constructor
      · obtain ⟨hpad, hjump⟩ := Bytes.Has.append_iff.mp hitem
        have hjump := (Bytes.Has.append_iff (l := [0xe9])).mp hjump
        have hfield := exits _ List.mem_cons_self
        simp only [length_padding, List.length_singleton] at hjump hfield
        simp only [size, jumpSize] at hlater hstop
        simp only [stop_cons, size, exitsAt, List.forall_mem_cons, jumpSize] at same
        apply Bytes.Has.append_iff.mpr
        constructor
        · apply hpad.congr
          intro i hi hi'
          rw [length_padding] at hi'
          apply same i hi (by omega)
          refine ⟨by omega, fun e he => ?_⟩
          have := hlater e he
          omega
        · rw [length_padding]
          apply (Bytes.Has.append_iff (l := [0xe9])).mpr
          refine ⟨?_, hfield⟩
          apply hjump.1.congr
          intro i hi hi'
          rw [List.length_singleton] at hi'
          apply same i (by omega) (by omega)
          refine ⟨by omega, fun e he => ?_⟩
          have := hlater e he
          omega
      · apply ih hrest
        · intro i hi hi' hfields
          apply same i (by omega) hi'
          simp only [exitsAt, List.forall_mem_cons]
          refine ⟨?_, hfields⟩
          simp only [size] at hi
          omega
        · intro e he
          exact exits e (List.mem_cons_of_mem _ he)
    | _ =>
      constructor
      · simp only [bytes, target, leave]
        apply hitem.congr
        intro i hi hi'
        rw [length_bytes] at hi'
        apply same i hi (by rw [stop_cons]; omega)
        intro e he
        have := hlater e he
        omega
      · apply ih hrest _ exits
        intro i hi hi'
        apply same i (by omega) hi'

/-! ### Assembling -/

/-- The targets to which items jump. -/
def mentions (items : List Item) : List Target :=
  items.filterMap fun
    | branch _ t => some t
    | exit n => some (.stub n)
    | _ => none

/-- The layout that labels give, with every exit leading to its stub. -/
def layoutOf (ls : Labels) (leave : Nat) : Layout where
  target := placeAt ls
  exit n := placeAt ls (.stub n)
  leave

/-- Whether the jump of an exit reaches a place. -/
def Reaches (jump place : Nat) : Prop :=
  fitsDisplacement ((place : Int) - (jump + jumpSize : Nat)) = true

theorem placeOf_meets {safe : Prop} {ls : Labels} {t : Target}
    (placed : safe → ∃ n, (ls.label t).place = some n) :
  Meets safe (ls.placeOf t) fun n => (ls.label t).place = some n ∧ placeAt ls t = n
  := by
  cases h : (ls.label t).place with
  | none =>
    simp only [Labels.placeOf, h]
    intro hsafe
    obtain ⟨n, hn⟩ := placed hsafe
    rw [h] at hn
    cases hn
  | some n =>
    have hok := placeOf_eq_ok.mpr h
    exact .of_eq hok ⟨rfl, placeAt_of_placeOf hok⟩

/-- The second pass gives the image for the layout of the labels. -/
theorem encodeAll_meets {safe : Prop} {ls : Labels} {leave offset : Nat} {items : List Item}
    (placed : safe → ∀ t ∈ mentions items, ∃ n, (ls.label t).place = some n)
    (reach : safe → ∀ e ∈ exitsAt offset items, Reaches e.2 (placeAt ls (.stub e.1)))
    (done : List (List UInt8)) :
  Meets safe (encodeAll ls leave offset items done) fun pieces =>
    pieces.flatten = done.reverse.flatten ++ image (layoutOf ls leave) offset items ∧
    ∀ e ∈ exitsAt offset items,
      (ls.label (.stub e.1)).place.isSome ∧ Reaches e.2 (placeAt ls (.stub e.1))
  := by
  induction items generalizing offset done with
  | nil => exact ⟨by simp [image], by simp [exitsAt]⟩
  | cons item rest ih =>
    cases item with
    | exit n =>
      have hitem : Meets safe ((exit n).encode ls leave offset) fun bytes =>
          bytes = (exit n).bytes (layoutOf ls leave) offset ∧
          (ls.label (.stub n)).place.isSome ∧
          Reaches (offset + jumpPadding offset) (placeAt ls (.stub n)) := by
        apply (placeOf_meets fun h => placed h _ List.mem_cons_self).bind
        rintro target ⟨hlabel, rfl⟩
        dsimp only
        split
        case isTrue hfits => exact .ok ⟨rfl, by rw [hlabel]; rfl, hfits⟩
        case isFalse hfits => exact fun hsafe => hfits (reach hsafe _ List.mem_cons_self)
      apply hitem.bind
      rintro bytes ⟨rfl, hexit⟩
      apply (ih (fun h t ht => placed h t (List.mem_cons_of_mem _ ht))
        (fun h e he => reach h e (List.mem_cons_of_mem _ he)) _).imp
      rintro pieces ⟨hpieces, hexits⟩
      refine ⟨by rw [hpieces]; simp [image], ?_⟩
      exact List.forall_mem_cons.mpr ⟨hexit, hexits⟩
    | branch c t =>
      have hitem : Meets safe ((branch c t).encode ls leave offset) fun bytes =>
          bytes = (branch c t).bytes (layoutOf ls leave) offset := by
        apply (placeOf_meets fun h => placed h _ List.mem_cons_self).bind
        rintro target ⟨-, rfl⟩
        exact .ok rfl
      apply hitem.bind
      rintro bytes rfl
      apply (ih (fun h t ht => placed h t (List.mem_cons_of_mem _ ht)) reach _).imp
      rintro pieces ⟨hpieces, hexits⟩
      exact ⟨by rw [hpieces]; simp [image], hexits⟩
    | _ =>
      apply (ih placed reach _).imp
      rintro pieces ⟨hpieces, hexits⟩
      exact ⟨by rw [hpieces]; simp [image, bytes, layoutOf], hexits⟩

/-- The layout of items at an offset, with every exit leading to its stub. -/
def layoutAt (leave start : Nat) (items : List Item) : Layout where
  target t := (offsetOf? t start items).getD 0
  exit n := (offsetOf? (.stub n) start items).getD 0
  leave

/-- Every jump leads forward. -/
def Forward : List Item → Prop
  | [] => True
  | item :: rest => (∀ t ∈ mentions [item], t ∈ places rest) ∧ Forward rest

theorem Forward.placed {items : List Item} (h : Forward items) :
  ∀ t ∈ mentions items, t ∈ places items
  := by
  induction items with
  | nil => simp [mentions]
  | cons item rest ih =>
    intro t ht
    have hsub : t ∈ places rest := by
      rw [mentions, ← List.singleton_append, List.filterMap_append, List.mem_append] at ht
      obtain ht | ht := ht
      · exact h.1 t ht
      · exact ih h.2 t ht
    rw [places, ← List.singleton_append, List.filterMap_append, List.mem_append]
    exact .inr hsub

/-- Items that can be assembled: no target occurs twice, and every jump has its target further
on. -/
structure WellPlaced (items : List Item) : Prop where
  distinct : (places items).Nodup
  forward : Forward items

theorem WellPlaced.exists_stub {items : List Item} (well : WellPlaced items) {start : Nat}
    {e : Nat × Nat} (he : e ∈ exitsAt start items) :
  ∃ stub, offsetOf? (.stub e.1) start items = some stub
  := by
  have hnumber : e.1 ∈ exitNumbers items := by
    rw [← map_fst_exitsAt start]
    exact List.mem_map_of_mem he
  obtain ⟨item, hitem, hsome⟩ := List.mem_filterMap.mp hnumber
  have hmentions : Target.stub e.1 ∈ mentions items := by
    apply List.mem_filterMap.mpr
    use item, hitem
    cases item <;> simp_all
  exact offsetOf?_isSome (well.forward.placed _ hmentions) start

/-- Exits reach their stubs in less than two gigabytes. -/
theorem reaches_of_stop_le {start stub : Nat} {items : List Item} {e : Nat × Nat}
    (room : stop start items ≤ start + 0x80000000) (he : e ∈ exitsAt start items)
    (hstub : offsetOf? (.stub e.1) start items = some stub) :
  Reaches e.2 stub
  := by
  have hle := offsetOf?_le hstub
  have hge := le_offsetOf? hstub
  have hjump := mem_exitsAt he
  apply decide_eq_true
  simp only [jumpSize] at hjump ⊢
  omega

/-- Assembling gives the image of the items, with every exit leading to its stub, which it
reaches.  It does not fail if every exit does. -/
theorem assemble_meets {safe : Prop} {leave start : Nat} {items : List Item}
    (well : safe → WellPlaced items)
    (reach : safe → ∀ e ∈ exitsAt start items, ∀ stub,
      offsetOf? (.stub e.1) start items = some stub → Reaches e.2 stub) :
  Meets safe (assemble leave start items) fun r =>
    r.1 = image (layoutAt leave start items) start items ∧
    (∀ t, (r.2.label t).place = offsetOf? t start items) ∧
    ∀ e ∈ exitsAt start items, ∃ stub,
      offsetOf? (.stub e.1) start items = some stub ∧ Reaches e.2 stub
  := by
  have hlabels : Meets safe (labels start items []) fun ls =>
      ∀ t, (ls.label t).place = offsetOf? t start items := by
    cases h : labels start items [] with
    | ok ls =>
      intro t
      rw [place_labels h]
      rfl
    | error c =>
      intro hsafe
      obtain ⟨ls, hls⟩ := labels_isOk (well hsafe).distinct start [] fun _ _ => rfl
      rw [h] at hls
      cases hls
  apply hlabels.bind
  intro ls hplace
  have hlayout : layoutOf ls leave = layoutAt leave start items := by
    have htarget : placeAt ls = fun t => (offsetOf? t start items).getD 0 := by
      funext t
      rw [placeAt, hplace]
    rw [layoutOf, layoutAt, htarget]
  apply (encodeAll_meets (fun hsafe t ht => ?_) (fun hsafe e he => ?_) []).bind
  · rintro pieces ⟨hpieces, hexits⟩
    refine .ok ⟨by rw [hpieces, hlayout]; rfl, hplace, fun e he => ?_⟩
    obtain ⟨hsome, hreach⟩ := hexits e he
    obtain ⟨stub, hstub⟩ := Option.isSome_iff_exists.mp hsome
    rw [hplace] at hstub
    rw [placeAt, hplace, hstub] at hreach
    exact ⟨stub, hstub, hreach⟩
  · rw [hplace]
    exact offsetOf?_isSome ((well hsafe).forward.placed t ht) start
  · obtain ⟨stub, hstub⟩ := (well hsafe).exists_stub he
    rw [placeAt, hplace, hstub]
    exact reach hsafe e he stub hstub

end Item

end CrossHart.Host
