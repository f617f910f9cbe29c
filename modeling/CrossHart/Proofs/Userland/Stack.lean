import CrossHart.Proofs.Userland.Contents
import Mathlib.Data.List.Forall2

/-!
# The stack of a program

The stack that a program starts with is built from the end of RAM downwards: sixteen bytes, the strings of
the environment, those of the arguments, and a frame of words with their addresses.  What is built later
lies below what was built before, so nothing is overwritten, however many strings there are and however
long they are.
-/

namespace CrossHart.Userland

open Loading
open Memory (gather)

variable {low high start stop : Nat} {m m' m₁ m₂ : Machine} {bytes bytes' : Word → UInt8}
variable {addr : Word} {s : String} {addrs : List Word} {strings : List String}

/-! ### Strings -/

/-- The bytes of a string on the stack, with the zero byte behind it. -/
def textOf (s : String) : List UInt8 :=
  s.toUTF8.data.toList ++ [0]

/-- Strings are at addresses, one behind the other from one position to another. -/
inductive Strung (bytes : Word → UInt8) (stop : Nat) : Nat → List Word → List String → Prop
  | nil : Strung bytes stop stop [] []
  | cons {start : Nat} {addr : Word} {s : String} {addrs : List Word} {strings : List String}
    (place : addr.toNat = start) (text : gather bytes addr (roomOf s) = textOf s)
    (rest : Strung bytes stop (start + roomOf s) addrs strings) :
    Strung bytes stop start (addr :: addrs) (s :: strings)

namespace Strung

theorem sum_rooms (h : Strung bytes stop start addrs strings) :
  start + (strings.map roomOf).sum = stop
  := by
  induction h with
  | nil => rfl
  | cons place text rest ih =>
    rw [List.map_cons, List.sum_cons, ← Nat.add_assoc]
    exact ih

theorem congr (h : Strung bytes stop start addrs strings) (below : stop ≤ Word.count)
    (same : ∀ a : Word, start ≤ a.toNat → a.toNat < stop → bytes' a = bytes a) :
  Strung bytes' stop start addrs strings
  := by
  induction h with
  | nil => exact .nil
  | cons place text rest ih =>
    have hstop := rest.sum_rooms
    refine .cons place ?_ (ih fun a ha => same a (by omega))
    rw [← text]
    apply Memory.gather_congr
    · omega
    · intro a ha ha'
      apply same
      · omega
      · omega

theorem forall₂ (h : Strung bytes stop start addrs strings) :
  List.Forall₂ (fun addr s => gather bytes addr (roomOf s) = textOf s) addrs strings
  := by
  induction h with
  | nil => exact .nil
  | cons place text rest ih => exact .cons text ih

/-- The place of a string: its address and its room. -/
def extent (addr : Word) (s : String) : Nat × Nat :=
  (addr.toNat, roomOf s)

theorem extents_within (h : Strung bytes stop start addrs strings) :
  ∀ e ∈ List.zipWith extent addrs strings, start ≤ e.1 ∧ e.1 + e.2 ≤ stop
  := by
  induction h with
  | nil => exact fun e he => absurd he List.not_mem_nil
  | cons place text rest ih =>
    have hstop := rest.sum_rooms
    rw [List.zipWith_cons_cons, List.forall_mem_cons]
    constructor
    · unfold extent
      omega
    · intro e he
      have := ih e he
      omega

theorem extents_apart (h : Strung bytes stop start addrs strings) :
  (List.zipWith extent addrs strings).Pairwise fun e e' => e.1 + e.2 ≤ e'.1
  := by
  induction h with
  | nil => exact .nil
  | cons place text rest ih =>
    rw [List.zipWith_cons_cons, List.pairwise_cons]
    refine ⟨fun e he => ?_, ih⟩
    have := (rest.extents_within e he).1
    unfold extent
    omega

end Strung

/-- A string below those that are on the stack. -/
theorem strung_of_push (spans : Spans low high m) {pos pos' : Word} (stop_le : stop ≤ high)
    (strung : Strung m.byteAt stop pos.toNat addrs strings)
    (moved : Word.diff pos (BitVec.ofNat 64 (s.toUTF8.size + 1)) = .ok pos')
    (text : (copy m pos' s.toUTF8).run = .ok (.ok m₁))
    (zero : (copy m₁ (pos' + BitVec.ofNat 64 s.toUTF8.size) ⟨#[0]⟩).run = .ok (.ok m₂)) :
  Strung m₂.byteAt stop pos'.toNat (pos' :: addrs) (s :: strings) ∧
    Wrote pos'.toNat pos.toNat m m₂ ∧ low ≤ pos'.toNat
  := by
  have hbelow := spans.below
  have htext := copied_of_copy spans text
  have spans₁ := spans.wrote htext.toWrote
  have hzero := copied_of_copy spans₁ zero
  have hsize : s.toUTF8.size + 1 = roomOf s := rfl
  have hone : (⟨#[0]⟩ : ByteArray).size = 1 := rfl
  have hend : (pos' + BitVec.ofNat 64 s.toUTF8.size).toNat = pos'.toNat + s.toUTF8.size := by
    apply Word.toNat_offset
    have := htext.stop
    omega
  have hstop := hzero.stop
  rw [hend, hone] at hstop
  have hroom : roomOf s < Word.count := by omega
  have hpos : pos'.toNat + roomOf s = pos.toNat := by
    have hdiff := Word.toNat_of_diff moved
    rw [hsize, BitVec.toNat_ofNat, Nat.mod_eq_of_lt hroom] at hdiff
    exact hdiff
  have hwrote : Wrote pos'.toNat pos.toNat m m₂ := by
    apply (htext.toWrote.mono (Nat.le_refl _) (by omega)).trans
    apply hzero.toWrote.mono
    · omega
    · omega
  refine ⟨.cons rfl ?_ ?_, hwrote, htext.start⟩
  · have hkept : gather m₂.byteAt pos' s.toUTF8.size = gather m₁.byteAt pos' s.toUTF8.size := by
      apply Memory.gather_congr
      · omega
      · intro a ha ha'
        apply hzero.kept
        omega
    have hlast : gather m₂.byteAt (pos' + BitVec.ofNat 64 s.toUTF8.size) 1 = [0] :=
      hzero.gather spans.below
    rw [← hsize, Memory.gather_add, hkept, htext.gather spans.below, hlast]
    rfl
  · rw [hpos]
    apply strung.congr
    · omega
    · intro a ha ha'
      apply hwrote.kept
      omega

theorem strung_of_pushStrings (spans : Spans low high m) {more : List String} {pos pos' : Word}
    {addrs' : List Word} (stop_le : stop ≤ high) (start_le : low ≤ pos.toNat)
    (strung : Strung m.byteAt stop pos.toNat addrs strings)
    (pushed : (pushStrings more pos addrs m).run = .ok (.ok (pos', addrs', m'))) :
  Strung m'.byteAt stop pos'.toNat addrs' (more.reverse ++ strings) ∧
    Wrote pos'.toNat pos.toNat m m' ∧ low ≤ pos'.toNat
  := by
  induction more generalizing pos addrs strings m with
  | nil =>
    cases pushed
    exact ⟨strung, .rfl, start_le⟩
  | cons s more ih =>
    obtain ⟨pos₁, hpos₁, pushed⟩ := run_bind_eq_ok.mp pushed
    obtain ⟨m₁, text, pushed⟩ := run_bind_eq_ok.mp pushed
    obtain ⟨m₂, zero, pushed⟩ := run_bind_eq_ok.mp pushed
    obtain ⟨strung₂, wrote₂, hlow₂⟩ :=
      strung_of_push spans stop_le strung (run_lift_eq_ok.mp hpos₁) text zero
    obtain ⟨strung', wrote', hlow'⟩ := ih (spans.wrote wrote₂) hlow₂ strung₂ pushed
    have hsum₂ := strung₂.sum_rooms
    have hsum' := strung'.sum_rooms
    have hsum := strung.sum_rooms
    rw [List.map_append, List.sum_append] at hsum'
    rw [List.map_cons, List.sum_cons] at hsum₂ hsum'
    refine ⟨?_, ?_, hlow'⟩
    · rw [List.reverse_cons, List.append_assoc]
      exact strung'
    · apply (wrote₂.mono (by omega) (Nat.le_refl _)).trans
      apply wrote'.mono (Nat.le_refl _)
      omega

/-! ### Strings and sixteen bytes -/

variable {argv envp : List String} {args env : List Word} {random : Word} {pos : Nat}

/-- From a position to the end of RAM are the strings of the arguments, those of the environment, and
sixteen bytes. -/
structure Topped (bytes : Word → UInt8) (high : Nat) (argv envp : List String) (args env : List Word)
    (random : Word) (pos : Nat) : Prop where
  place : random.toNat + 16 = high
  sixteen : gather bytes random 16 = randomBytes
  strings : ∃ mid, Strung bytes mid pos args argv ∧ Strung bytes random.toNat mid env envp

theorem Topped.sum_rooms (h : Topped bytes high argv envp args env random pos) :
  pos + ((argv ++ envp).map roomOf).sum + 16 = high
  := by
  obtain ⟨mid, hargs, henv⟩ := h.strings
  have hplace := h.place
  have hsum := hargs.sum_rooms
  have hsum' := henv.sum_rooms
  rw [List.map_append, List.sum_append]
  omega

/-- Only what is from the position on matters. -/
theorem Topped.congr (h : Topped bytes high argv envp args env random pos) (below : high ≤ Word.count)
    (same : ∀ a : Word, pos ≤ a.toNat → bytes' a = bytes a) :
  Topped bytes' high argv envp args env random pos
  := by
  obtain ⟨mid, hargs, henv⟩ := h.strings
  have hplace := h.place
  have hsum := hargs.sum_rooms
  have hsum' := henv.sum_rooms
  refine ⟨hplace, ?_, mid, ?_, ?_⟩
  · rw [← h.sixteen]
    apply Memory.gather_congr
    · omega
    · intro a ha _
      apply same
      omega
  · apply hargs.congr
    · omega
    · intro a ha _
      apply same a ha
  · apply henv.congr
    · omega
    · intro a ha _
      apply same
      omega

theorem topped_of_pushStrings (spans : Spans low high m) {m₃ : Machine} {mid top : Word}
    (place : random.toNat + 16 = high)
    (copied : (copy m random ⟨randomBytes.toArray⟩).run = .ok (.ok m₁))
    (pushed : (pushStrings envp.reverse random [] m₁).run = .ok (.ok (mid, env, m₂)))
    (pushed' : (pushStrings argv.reverse mid [] m₂).run = .ok (.ok (top, args, m₃))) :
  Topped m₃.byteAt high argv envp args env random top.toNat ∧ Wrote top.toNat high m m₃ ∧ low ≤ top.toNat
  := by
  have hbelow := spans.below
  replace copied := copied_of_copy spans copied
  have hsize : (⟨randomBytes.toArray⟩ : ByteArray).size = 16 := rfl
  have wrote₁ := copied.toWrote
  rw [hsize, place] at wrote₁
  have spans₁ := spans.wrote wrote₁
  obtain ⟨henv, wrote₂, hlow₂⟩ := strung_of_pushStrings spans₁ (by omega) copied.start .nil pushed
  rw [List.reverse_reverse, List.append_nil] at henv
  have hsum := henv.sum_rooms
  obtain ⟨hargs, wrote₃, hlow₃⟩ :=
    strung_of_pushStrings (spans₁.wrote wrote₂) (by omega) hlow₂ .nil pushed'
  rw [List.reverse_reverse, List.append_nil] at hargs
  have hsum' := hargs.sum_rooms
  -- Each string is written below what is there already.
  have wrote : Wrote top.toNat random.toNat m₁ m₃ := by
    apply (wrote₂.mono (by omega) (Nat.le_refl _)).trans
    apply wrote₃.mono (Nat.le_refl _)
    omega
  refine ⟨⟨place, ?_, mid.toNat, hargs, ?_⟩, ?_, hlow₃⟩
  · refine Eq.trans ?_ (copied.gather hbelow)
    apply Memory.gather_congr
    · omega
    · intro a ha _
      apply wrote.kept a (.inr ha)
  · apply henv.congr
    · omega
    · intro a ha _
      apply wrote₃.kept a (.inr ha)
  · apply (wrote₁.mono (by omega) (Nat.le_refl _)).trans
    apply wrote.mono (Nat.le_refl _)
    omega

/-! ### The frame -/

/-- Words are written one behind the other. -/
theorem words_of_putWords (spans : Spans low high m) {words : List Word} (stop_le : addr.toNat ≤ high)
    (put : (putWords words addr m).run = .ok (.ok m')) :
  gather m'.byteAt addr (8 * words.length) = words.flatMap (Bytes.ofWord 8) ∧
    Wrote addr.toNat (addr.toNat + 8 * words.length) m m' ∧
    addr.toNat + 8 * words.length ≤ high ∧ (words ≠ [] → low ≤ addr.toNat)
  := by
  induction words generalizing addr m with
  | nil =>
    cases put
    exact ⟨rfl, .rfl, stop_le, absurd rfl⟩
  | cons w words ih =>
    obtain ⟨m₁, copied, put⟩ := run_bind_eq_ok.mp put
    replace copied := copied_of_copy spans copied
    have hsize : (⟨(Bytes.ofWord 8 w).toArray⟩ : ByteArray).size = 8 := by
      rw [← ByteArray.size_data, List.size_toArray, Bytes.ofWord, Bytes.length_littleEndian]
    have hbelow := spans.below
    have hstop := copied.stop
    rw [hsize] at hstop
    have hnext : (addr + 8).toNat = addr.toNat + 8 := Word.toNat_offset (n := 8) (by omega)
    obtain ⟨hwords, wrote, hle, -⟩ := ih (spans.wrote copied.toWrote) (by omega) put
    rw [hnext] at wrote hle
    have hlength : 8 * (w :: words).length = 8 + 8 * words.length := by
      rw [List.length_cons]
      omega
    rw [hlength, ← Nat.add_assoc]
    refine ⟨?_, ?_, hle, fun _ => copied.start⟩
    · have hkept : gather m'.byteAt addr 8 = gather m₁.byteAt addr 8 := by
        apply Memory.gather_congr
        · omega
        · intro a ha ha'
          apply wrote.kept
          omega
      have hfirst := copied.gather hbelow
      rw [hsize] at hfirst
      rw [Memory.gather_add, hkept, hfirst, List.flatMap_cons]
      congr 1
    · have hwrote := copied.toWrote
      rw [hsize] at hwrote
      apply (hwrote.mono (Nat.le_refl _) (by omega)).trans
      apply wrote.mono
      · omega
      · omega

/-! ### The whole stack -/

variable {p : Program} {sp top : Word}

/-- The words of a stack, from the stack pointer upwards: the number of arguments, the addresses of the
arguments and a zero, the addresses of the environment and a zero, and the facts about the program, each
a number and a value. -/
def stackWords (p : Program) (args env : List Word) (random : Word) : List Word :=
  [BitVec.ofNat 64 args.length] ++ args ++ [0] ++ env ++ [0] ++
    [3, p.headers, 4, 56, 5, BitVec.ofNat 64 p.headerCount, 6, 4096, 9, p.entry, 25, random, 0, 0]

/-- The objects on a stack, from the stack pointer upwards: the words, the strings, and the sixteen bytes,
each with its address and its size. -/
def objects (sp : Word) (argv envp : List String) (args env : List Word) (random : Word) :
    List (Nat × Nat) :=
  (sp.toNat, frameSize argv envp) ::
    (List.zipWith Strung.extent args argv ++ (List.zipWith Strung.extent env envp ++ [(random.toNat, 16)]))

/-- The stack of a program below an address. -/
structure LaidOut (bytes : Word → UInt8) (high : Nat) (p : Program) (argv envp : List String)
    (args env : List Word) (random : Word) : Prop where
  aligned : p.sp.toNat % 16 = 0
  words : gather bytes p.sp (frameSize argv envp) =
    (stackWords p args env random).flatMap (Bytes.ofWord 8)
  arguments : List.Forall₂ (fun addr s => gather bytes addr (roomOf s) = textOf s) args argv
  environment : List.Forall₂ (fun addr s => gather bytes addr (roomOf s) = textOf s) env envp
  sixteen : gather bytes random 16 = randomBytes
  apart : (objects p.sp argv envp args env random).Pairwise fun e e' => e.1 + e.2 ≤ e'.1
  within : ∀ e ∈ objects p.sp argv envp args env random, e.1 + e.2 ≤ high

theorem length_stackWords (p : Program) (args env : List Word) (random : Word) :
  (stackWords p args env random).length = 17 + args.length + env.length
  := by
  simp [stackWords]
  omega

/-- Objects are apart if the words are below the strings. -/
theorem objects_apart (topped : Topped bytes high argv envp args env random pos)
    (frame : sp.toNat + frameSize argv envp ≤ pos) :
  ((objects sp argv envp args env random).Pairwise fun e e' => e.1 + e.2 ≤ e'.1) ∧
    ∀ e ∈ objects sp argv envp args env random, e.1 + e.2 ≤ high
  := by
  have hplace := topped.place
  obtain ⟨mid, arguments, environment⟩ := topped.strings
  have hargs := arguments.sum_rooms
  have henv := environment.sum_rooms
  have hall : ∀ e ∈ List.zipWith Strung.extent args argv ++
      (List.zipWith Strung.extent env envp ++ [(random.toNat, 16)]),
      pos ≤ e.1 ∧ e.1 + e.2 ≤ high := by
    intro e he
    rw [List.mem_append, List.mem_append, List.mem_singleton] at he
    obtain he | he | rfl := he
    · have := arguments.extents_within e he
      omega
    · have := environment.extents_within e he
      omega
    · dsimp only
      omega
  constructor
  · refine List.pairwise_cons.mpr ⟨fun e he => ?_, ?_⟩
    · exact Nat.le_trans frame (hall e he).1
    refine List.pairwise_append.mpr ⟨arguments.extents_apart, ?_, fun e he e' he' => ?_⟩
    · refine List.pairwise_append.mpr ⟨environment.extents_apart, List.pairwise_singleton _ _, ?_⟩
      rintro e he _ (_ | ⟨_, ⟨⟩⟩)
      exact (environment.extents_within e he).2
    · have hle := (arguments.extents_within e he).2
      rw [List.mem_append, List.mem_singleton] at he'
      obtain he' | rfl := he'
      · exact Nat.le_trans hle (environment.extents_within e' he').1
      · dsimp only
        omega
  · refine List.forall_mem_cons.mpr ⟨?_, fun e he => (hall e he).2⟩
    dsimp only
    omega

/-- What building a stack leaves in RAM. -/
structure Built (low high : Nat) (p : Program) (argv envp : List String) (m m' : Machine) : Prop
    extends Wrote p.sp.toNat high m m' where
  start : low ≤ p.sp.toNat
  room : p.sp.toNat + stackRoom argv envp = high
  laidOut : ∃ args env random, LaidOut m'.byteAt high p argv envp args env random

theorem built_of_buildStack (spans : Spans low high m) (htop : top.toNat = high) (whole : high % 16 = 0)
    (built : (buildStack top p argv envp m).run = .ok (.ok (sp, m'))) :
  Built low high { p with sp } argv envp m m'
  := by
  have hbelow := spans.below
  unfold buildStack at built
  obtain ⟨random, hrandom, built⟩ := run_bind_eq_ok.mp built
  obtain ⟨m₁, copied, built⟩ := run_bind_eq_ok.mp built
  obtain ⟨⟨mid, env, m₂⟩, pushed, built⟩ := run_bind_eq_ok.mp built
  obtain ⟨⟨pos, args, m₃⟩, pushed', built⟩ := run_bind_eq_ok.mp built
  have hplace : random.toNat + 16 = high := (Word.toNat_of_diff (run_lift_eq_ok.mp hrandom)).trans htop
  obtain ⟨topped, wrote₃, hpos⟩ := topped_of_pushStrings spans hplace copied pushed pushed'
  have spans₃ := spans.wrote wrote₃
  have hsum := topped.sum_rooms
  obtain ⟨_, hargs, henv⟩ := topped.strings
  dsimp only at built
  generalize hwords : [BitVec.ofNat 64 argv.length] ++ args ++ [0] ++ env ++ [0] ++
    (facts p random).flatMap _ = words at built
  replace hwords : words = stackWords { p with sp } args env random := by
    rw [← hwords, ← hargs.forall₂.length_eq]
    rfl
  have hlength : 8 * words.length = frameSize argv envp := by
    rw [hwords, length_stackWords, frameSize, hargs.forall₂.length_eq, henv.forall₂.length_eq]
  -- The frame is below the strings, after two roundings.
  obtain ⟨room, hroom, built⟩ := run_bind_eq_ok.mp built
  replace hroom := Word.toNat_of_diff (run_lift_eq_ok.mp hroom)
  obtain ⟨m₄, put, built⟩ := run_bind_eq_ok.mp built
  obtain ⟨⟩ := built
  have hround (w : Word) : (w &&& ~~~15).toNat = w.toNat / 16 * 16 := Memory.toNat_and_not_low w 4
  rw [hround] at hroom
  have hsp := hround room
  obtain ⟨hframe, wrote₄, hstop, hstart⟩ := words_of_putWords spans₃ (by omega) put
  generalize room &&& ~~~15 = sp at hsp hframe wrote₄ hstop hstart hwords ⊢
  rw [hlength] at hframe wrote₄ hstop hroom
  have hsmall : frameSize argv envp < Word.count := by omega
  rw [BitVec.toNat_ofNat, Nat.mod_eq_of_lt hsmall] at hroom
  have hend : sp.toNat + frameSize argv envp ≤ pos.toNat := by omega
  have topped' : Topped m'.byteAt high argv envp args env random pos.toNat := by
    apply topped.congr
    · omega
    · intro a ha
      apply wrote₄.kept a (.inr (Nat.le_trans hend ha))
  obtain ⟨_, hargs', henv'⟩ := topped'.strings
  obtain ⟨hapart, hwithin⟩ := objects_apart topped' hend
  have hne : words ≠ [] := by
    rw [hwords]
    exact List.cons_ne_nil _ _
  refine ⟨?_, hstart hne, ?_, args, env, random, ?_⟩
  · change Wrote sp.toNat high m m'
    apply (wrote₃.mono (by omega) (Nat.le_refl _)).trans
    apply wrote₄.mono (Nat.le_refl _)
    omega
  · rw [stackRoom]
    unfold Size.roundUp
    dsimp only
    omega
  · rw [hwords] at hframe
    refine ⟨?_, hframe, hargs'.forall₂, henv'.forall₂, topped'.sixteen, hapart, hwithin⟩
    dsimp only
    omega

end CrossHart.Userland
