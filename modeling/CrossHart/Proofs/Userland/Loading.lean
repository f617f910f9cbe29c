import CrossHart.Proofs.Bytes
import CrossHart.Proofs.Cache.Runs
import CrossHart.Proofs.Memory.Lookaside
import CrossHart.Proofs.Userland.Headers
import CrossHart.Userland.Load

/-!
# Loading programs

Loading ends with a program or with an error, whatever the file and the arguments are, unless an
address that it computes is beyond the last one or below 0.  Of the file, only bytes that are there are
asked for.
-/

namespace CrossHart.Config

/-- The number of bytes of RAM. -/
def ramSize (config : Config) : Nat :=
  Size.roundUp config.memorySize Memory.pageSize

/-- The address behind RAM. -/
def ramEnd (config : Config) : Nat :=
  config.base.toNat + config.ramSize

/-- A machine for programs has the usual code cache, and RAM in whole pages below the last address with
room for a stack. -/
structure Suits (config : Config) : Prop where
  cache : config.cacheSize = ({} : Config).cacheSize
  aligned : Memory.inPage config.base = 0
  stack : Userland.stackSize ≤ config.memorySize
  below : config.ramEnd < Word.count

/-- A platform has memory for the code cache, if the machine compiles. -/
def Affordable (config : Config) (platform : Host.Platform) : Prop :=
  config.mode = .jit → platform.Affords config.cacheSize

variable {config : Config}

/-- There is memory for the usual code cache on the standard platform. -/
theorem Suits.affordable_standard (suits : config.Suits) :
  config.Affordable .standard
  := by
  intro _
  rw [suits.cache]
  decide

/-- The ends of pages are addresses, so there is a page behind RAM. -/
theorem Suits.ramEnd_le (suits : config.Suits) :
  config.ramEnd + Memory.pageSize ≤ Word.count
  := by
  have haligned := Memory.toNat_inPage config.base
  rw [suits.aligned] at haligned
  have hzero : (0 : Word).toNat = 0 := rfl
  have hbelow := suits.below
  unfold ramEnd ramSize Size.roundUp Memory.pageSize Word.count at *
  omega

theorem Suits.ramEnd_mod (suits : config.Suits) :
  config.ramEnd % 16 = 0
  := by
  have haligned := Memory.toNat_inPage config.base
  rw [suits.aligned] at haligned
  have hzero : (0 : Word).toNat = 0 := rfl
  unfold ramEnd ramSize Size.roundUp Memory.pageSize
  omega

theorem Suits.stackSize_le (suits : config.Suits) :
  Userland.stackSize ≤ config.ramSize
  := by
  have := suits.stack
  unfold ramSize Size.roundUp Memory.pageSize
  omega

theorem Suits.toNat_memorySize (suits : config.Suits) :
  (BitVec.ofNat 64 config.memorySize).toNat = config.memorySize
  := by
  have hbelow := suits.below
  refine Nat.mod_eq_of_lt ?_
  unfold ramEnd ramSize Size.roundUp Memory.pageSize Word.count at hbelow
  omega

theorem Suits.pageUp_memorySize (suits : config.Suits) :
  ∃ bytes, Memory.pageUp (BitVec.ofNat 64 config.memorySize) = .ok bytes ∧ bytes.toNat = config.ramSize
  := by
  have hsize := suits.toNat_memorySize
  have hlt : config.ramSize < Word.count := Nat.lt_of_le_of_lt (Nat.le_add_left _ _) suits.below
  unfold ramSize at hlt ⊢
  rw [← hsize] at hlt
  obtain ⟨bytes, hbytes, htoNat⟩ := Memory.pageUp_eq_ok hlt
  rw [hsize] at htoNat
  exact ⟨bytes, hbytes, htoNat⟩

end CrossHart.Config

namespace CrossHart.Userland

open Memory (pageSize pageStart pageUp)

variable {α β : Type}

/-! ### How loading ends -/

namespace Loading

/-- Loading ends with a result, with an error for one reason, or with an overflow for another one. -/
inductive Settles (x : Loading α) (post : α → Prop) (refuses overflows : Prop) : Prop
  | done (a : α) (run : x.run = .ok (.ok a)) (result : post a)
  | refused (e : LoadError) (run : x.run = .ok (.error e)) (reason : refuses)
  | overflowed (run : x.run = .error .overflow) (reason : overflows)

namespace Settles

variable {x : Loading α} {post : α → Prop} {refuses refuses' overflows overflows' : Prop}

theorem bind {f : α → Loading β} {post' : β → Prop} (h : Settles x post refuses' overflows')
    (refused : refuses' → refuses) (overflowed : overflows' → overflows)
    (hf : ∀ a, post a → Settles (f a) post' refuses overflows) :
  Settles (x >>= f) post' refuses overflows
  := by
  cases h with
  | done a run result =>
    have hrun : (x >>= f).run = (f a).run := by
      rw [ExceptT.run_bind, run]
      rfl
    obtain ⟨b, run', result'⟩ | ⟨e, run', reason⟩ | ⟨run', reason⟩ := hf a result
    · exact .done b (hrun.trans run') result'
    · exact .refused e (hrun.trans run') reason
    · exact .overflowed (hrun.trans run') reason
  | refused e run reason =>
    refine .refused e ?_ (refused reason)
    rw [ExceptT.run_bind, run]
    rfl
  | overflowed run reason =>
    refine .overflowed ?_ (overflowed reason)
    rw [ExceptT.run_bind, run]
    rfl

/-- Going on after one of two computations. -/
theorem ite_bind {c : Prop} [Decidable c] {y : Loading α} {f : α → Loading β} {post' : β → Prop}
    (h : Settles (if c then x else y) post refuses' overflows') (refused : refuses' → refuses)
    (overflowed : overflows' → overflows) (hf : ∀ a, post a → Settles (f a) post' refuses overflows) :
  Settles (if c then x >>= f else y >>= f) post' refuses overflows
  := by
  have hbind := h.bind refused overflowed hf
  by_cases hc : c
  · rw [if_pos hc] at hbind ⊢
    exact hbind
  · rw [if_neg hc] at hbind ⊢
    exact hbind

theorem imp {post' : α → Prop} (h : Settles x post refuses overflows) (done : ∀ a, post a → post' a)
    (refused : refuses → refuses') (overflowed : overflows → overflows') :
  Settles x post' refuses' overflows'
  := by
  obtain ⟨a, run, result⟩ | ⟨e, run, reason⟩ | ⟨run, reason⟩ := h
  · exact .done a run (done a result)
  · exact .refused e run (refused reason)
  · exact .overflowed run (overflowed reason)

end Settles

theorem settles_lift {x : Except Crash α} {a : α} (h : x = .ok a) :
  Settles (lift x) (fun b => b = a) False False
  := by
  rw [h]
  exact .done a rfl rfl

theorem settles_sum (a b : Word) :
  Settles (lift (Word.sum a b)) (fun c => c.toNat = a.toNat + b.toNat) False
    (Word.count ≤ a.toNat + b.toNat)
  := by
  by_cases h : a.toNat + b.toNat < Word.count
  · refine .done (a + b) ?_ (BitVec.toNat_add_of_lt h)
    rw [Word.sum, if_pos h]
    rfl
  · refine .overflowed ?_ (Nat.not_lt.mp h)
    rw [Word.sum, if_neg h]
    rfl

theorem settles_diff (a b : Word) :
  Settles (lift (Word.diff a b)) (fun c => b.toNat ≤ a.toNat ∧ c.toNat = a.toNat - b.toNat) False
    (a.toNat < b.toNat)
  := by
  by_cases h : b.toNat ≤ a.toNat
  · refine .done (a - b) ?_ ⟨h, BitVec.toNat_sub_of_le h⟩
    rw [Word.diff, if_pos h]
    rfl
  · refine .overflowed ?_ (Nat.not_le.mp h)
    rw [Word.diff, if_neg h]
    rfl

theorem settles_pageUp {n : Word} (room : Size.roundUp n.toNat pageSize < Word.count) :
  Settles (lift (pageUp n)) (fun c => c.toNat = Size.roundUp n.toNat pageSize) False False
  := by
  obtain ⟨c, h, hc⟩ := Memory.pageUp_eq_ok room
  refine .done c ?_ hc
  rw [h]
  rfl

/-! ### Copying -/

/-- A machine with RAM from one address to another. -/
structure Spans (low high : Nat) (m : Machine) : Prop where
  start : m.base.toNat = low
  stop : low + m.ram.size = high
  below : high < Word.count

/-- A machine with RAM from one address to another, in which bytes can be copied. -/
structure Hosts (low high : Nat) (m : Machine) : Prop extends Spans low high m where
  cache : ∀ c, m.cache = some c → c.Intact fun _ => True

variable {low high : Nat} {m : Machine}

theorem Spans.inRam_iff (spans : Spans low high m) (addr : Word) (n : Nat) :
  Machine.inRam m.guest.memory.space addr n = true ↔ low ≤ addr.toNat ∧ addr.toNat + n ≤ high
  := by
  have hstart : m.guest.memory.space.base.toNat = low := spans.start
  have hstop : low + m.guest.memory.space.ram.size = high := spans.stop
  rw [Machine.inRam, Bool.and_eq_true, BitVec.ule, decide_eq_true_iff, decide_eq_true_iff, hstart]
  refine and_congr_right fun hle => ?_
  rw [BitVec.toNat_sub_of_le (BitVec.le_def.mpr (hstart.trans_le hle)), hstart]
  omega

theorem Hosts.invalidateCode (hosts : Hosts low high m) (start len : Word) :
  ∃ m', m.invalidateCode start len = .ok m' ∧ Hosts low high m'
  := by
  unfold Machine.invalidateCode
  split
  case h_1 => exact ⟨m, rfl, hosts⟩
  case h_2 c hc =>
    obtain ⟨r, hr, hintact⟩ :=
      (CodeCache.invalidate_intact (hosts.cache c hc) start len).exists_ok trivial
    rw [hr]
    refine ⟨_, rfl, ⟨hosts.start, hosts.stop, hosts.below⟩, ?_⟩
    rintro _ ⟨⟩
    exact hintact

theorem Hosts.load (hosts : Hosts low high m) {addr : Word} {data : ByteArray}
    (fits : Machine.inRam m.guest.memory.space addr data.size = true) :
  ∃ m', Machine.load addr data m = .ok (.ok (), m') ∧ Hosts low high m'
  := by
  rw [Machine.load, if_pos fits]
  dsimp only
  generalize hwritten : m.mapMemory _ = m₁
  have hosts₁ : Hosts low high m₁ := by
    subst hwritten
    refine ⟨⟨hosts.start, (congrArg (low + ·) (Bytes.size_blit ?_)).trans hosts.stop, hosts.below⟩,
      hosts.cache⟩
    rw [Machine.inRam, Bool.and_eq_true, decide_eq_true_iff] at fits
    exact fits.2
  obtain ⟨m', hm', hosts'⟩ := hosts₁.invalidateCode addr (BitVec.ofNat 64 data.size)
  refine ⟨m', ?_, hosts'⟩
  rw [hm']
  rfl

/-- Bytes are copied exactly if they are in RAM. -/
theorem settles_copy (hosts : Hosts low high m) (addr : Word) (data : ByteArray) :
  Settles (copy m addr data)
    (fun m' => Hosts low high m' ∧ low ≤ addr.toNat ∧ addr.toNat + data.size ≤ high)
    (¬(low ≤ addr.toNat ∧ addr.toNat + data.size ≤ high)) False
  := by
  have hiff := hosts.toSpans.inRam_iff addr data.size
  by_cases hin : Machine.inRam m.guest.memory.space addr data.size = true
  · obtain ⟨m', hm', hosts'⟩ := hosts.load hin
    refine .done m' ?_ ⟨hosts', hiff.mp hin⟩
    rw [copy, hm']
    rfl
  · refine .refused (.machine (.imageOutOfRange addr data.size)) ?_ fun h => hin (hiff.mpr h)
    rw [copy, Machine.load, if_neg hin]
    rfl

end Loading

open Loading

variable {low high : Nat} {m : Machine}

/-! ### The stack -/

/-- The room of a string on the stack, with the zero byte behind it. -/
def roomOf (s : String) : Nat :=
  s.utf8ByteSize + 1

/-- Of pieces that lie one below the other from a position on, one would be below 0, and all pieces
above it are not below `low`. -/
def Sinks (low pos : Nat) (pieces : List Nat) : Prop :=
  ∃ i < pieces.length, low + (pieces.take i).sum ≤ pos ∧ pos < (pieces.take (i + 1)).sum

instance (low pos : Nat) (pieces : List Nat) : Decidable (Sinks low pos pieces) :=
  inferInstanceAs (Decidable (∃ i < pieces.length, _))

/-- Pieces of a stack come below 0 before they come below `low`, or a frame under all of them, which starts
at a multiple of sixteen, does. -/
def Underruns (low pos : Nat) (pieces : List Nat) (frame : Nat) : Prop :=
  Sinks low pos pieces ∨ low + pieces.sum ≤ pos ∧ (pos - pieces.sum) / 16 * 16 < frame

instance (low pos : Nat) (pieces : List Nat) (frame : Nat) : Decidable (Underruns low pos pieces frame) :=
  inferInstanceAs (Decidable (_ ∨ _))

theorem sinks_cons (low pos n : Nat) (pieces : List Nat) :
  Sinks low pos (n :: pieces) ↔ low ≤ pos ∧ pos < n ∨ n ≤ pos ∧ Sinks low (pos - n) pieces
  := by
  constructor
  · rintro ⟨i, hi, hlow, hpos⟩
    cases i with
    | zero =>
      left
      simpa using And.intro hlow hpos
    | succ i =>
      right
      simp only [List.take_succ_cons, List.sum_cons] at hlow hpos
      exact ⟨by omega, i, Nat.lt_of_succ_lt_succ hi, by omega, by omega⟩
  · rintro (⟨hlow, hpos⟩ | ⟨hn, i, hi, hlow, hpos⟩)
    · exact ⟨0, Nat.zero_lt_succ _, by simpa using hlow, by simpa using hpos⟩
    · refine ⟨i + 1, Nat.succ_lt_succ hi, ?_, ?_⟩
      · simp only [List.take_succ_cons, List.sum_cons]
        omega
      · simp only [List.take_succ_cons, List.sum_cons] at hpos ⊢
        omega

theorem underruns_nil {pos : Nat} (start : low ≤ pos) (frame : Nat) :
  Underruns low pos [] frame ↔ pos / 16 * 16 < frame
  := by
  constructor
  · rintro (⟨i, hi, -⟩ | ⟨-, h⟩)
    · exact absurd hi (Nat.not_lt_zero i)
    · exact h
  · exact fun h => .inr ⟨start, h⟩

/-- A piece comes below 0, or it is not below `low` and what is under it comes below 0. -/
theorem underruns_cons {pos : Nat} (start : low ≤ pos) (n : Nat) (pieces : List Nat) (frame : Nat) :
  Underruns low pos (n :: pieces) frame ↔
    pos < n ∨ low + n ≤ pos ∧ Underruns low (pos - n) pieces frame
  := by
  have hsum : pos - (n + pieces.sum) = pos - n - pieces.sum := by omega
  unfold Underruns
  rw [sinks_cons, List.sum_cons, hsum]
  constructor
  · rintro ((⟨-, h⟩ | ⟨hn, i, hi, hlow, hpos⟩) | ⟨hlow, h⟩)
    · exact .inl h
    · exact .inr ⟨by omega, .inl ⟨i, hi, hlow, hpos⟩⟩
    · exact .inr ⟨by omega, .inr ⟨by omega, h⟩⟩
  · rintro (h | ⟨hn, h | ⟨hlow, h⟩⟩)
    · exact .inl (.inl ⟨start, h⟩)
    · exact .inl (.inr ⟨by omega, h⟩)
    · exact .inr ⟨by omega, h⟩

/-- After strings were put on the stack, what is under them decides whether the stack underruns. -/
theorem settles_pushStrings (hosts : Hosts low high m) {strings : List String}
    (sizes : ∀ s ∈ strings, roomOf s < Word.count) {pos : Word} (start : low ≤ pos.toNat)
    (stop : pos.toNat ≤ high) (addrs : List Word) (pieces : List Nat) (frame : Nat) :
  Settles (pushStrings strings pos addrs m)
    (fun r => Hosts low high r.2.2 ∧ low ≤ r.1.toNat ∧
      r.1.toNat + (strings.map roomOf).sum = pos.toNat ∧
      r.2.1.length = strings.length + addrs.length ∧
      (Underruns low pos.toNat (strings.map roomOf ++ pieces) frame ↔
        Underruns low r.1.toNat pieces frame))
    (¬Underruns low pos.toNat (strings.map roomOf ++ pieces) frame ∧
      pos.toNat < low + (strings.map roomOf).sum)
    (Underruns low pos.toNat (strings.map roomOf ++ pieces) frame)
  := by
  induction strings generalizing pos addrs m with
  | nil => exact .done (pos, addrs, m) rfl ⟨hosts, start, rfl, (Nat.zero_add _).symm, Iff.rfl⟩
  | cons s strings ih =>
    have hsize : s.toUTF8.size + 1 = roomOf s := rfl
    have hroom : (BitVec.ofNat 64 (roomOf s)).toNat = roomOf s :=
      Nat.mod_eq_of_lt (sizes s (.head _))
    rw [List.map_cons, List.cons_append, underruns_cons start, List.sum_cons]
    unfold pushStrings
    dsimp only
    rw [hsize]
    refine (settles_diff pos _).bind False.elim (fun h => ?_) fun pos' hpos' => ?_
    · rw [hroom] at h
      exact .inl h
    rw [hroom] at hpos'
    obtain ⟨hle, hpos'⟩ := hpos'
    -- A string that is not in RAM starts below RAM, but not below 0.
    refine (settles_copy hosts pos' s.toUTF8).bind (fun h => ⟨?_, by omega⟩) False.elim ?_
    · rintro (h' | ⟨h', -⟩) <;> omega
    rintro m₁ ⟨hosts₁, hlow, hhigh⟩
    have hnext : (pos' + BitVec.ofNat 64 s.toUTF8.size).toNat = pos'.toNat + s.toUTF8.size := by
      have hbelow := hosts.below
      rw [BitVec.toNat_add, BitVec.toNat_ofNat]
      omega
    have hzero : (⟨#[0]⟩ : ByteArray).size = 1 := rfl
    refine (settles_copy hosts₁ _ ⟨#[0]⟩).bind (fun h => absurd ?_ h) False.elim ?_
    · rw [hnext, hzero]
      omega
    rintro m₂ ⟨hosts₂, -, -⟩
    have hunder : (pos.toNat < roomOf s ∨ low + roomOf s ≤ pos.toNat ∧
        Underruns low (pos.toNat - roomOf s) (strings.map roomOf ++ pieces) frame) ↔
          Underruns low pos'.toNat (strings.map roomOf ++ pieces) frame := by
      rw [hpos', or_iff_right (Nat.not_lt.mpr hle), and_iff_right (by omega)]
    rw [hunder]
    have hlength : (s :: strings).length + addrs.length = strings.length + (pos' :: addrs).length :=
      Nat.succ_add_eq_add_succ _ _
    rw [hlength]
    refine (ih hosts₂ (fun s hs => sizes s (.tail _ hs)) hlow (by omega) (pos' :: addrs)).imp ?_ ?_ id
    · rintro r ⟨hosts', hlow', hsum, hrest⟩
      exact ⟨hosts', hlow', by omega, hrest⟩
    · rintro ⟨hkept, hroom⟩
      exact ⟨hkept, by omega⟩

/-- Words are put in memory exactly if they are in RAM. -/
theorem settles_putWords (hosts : Hosts low high m) (words : List Word) {addr : Word}
    (stop : addr.toNat ≤ high) :
  Settles (putWords words addr m) (fun _ => True)
    (¬(low ≤ addr.toNat ∧ addr.toNat + 8 * words.length ≤ high)) False
  := by
  induction words generalizing addr m with
  | nil => exact .done m rfl trivial
  | cons w words ih =>
    have hbelow := hosts.below
    have hsize : (⟨(Bytes.ofWord 8 w).toArray⟩ : ByteArray).size = 8 := by
      rw [← ByteArray.size_data, List.size_toArray, Bytes.ofWord, Bytes.length_littleEndian]
    rw [List.length_cons]
    refine (settles_copy hosts addr _).bind (fun h h' => h ?_) id ?_
    · rw [hsize]
      omega
    rintro m' ⟨hosts', hlow, hstop⟩
    rw [hsize] at hstop
    have hnext : (addr + 8).toNat = addr.toNat + 8 :=
      BitVec.toNat_add_of_lt (show addr.toNat + 8 < Word.count by omega)
    refine (ih hosts' (by omega)).imp (fun _ h => h) (fun h h' => h ?_) id
    omega

/-- The stack of a program underruns. -/
def StackUnderruns (low high : Nat) (argv envp : List String) : Prop :=
  Underruns low (high - 16) ((argv ++ envp).reverse.map roomOf) (8 * (17 + argv.length + envp.length))

instance (low high : Nat) (argv envp : List String) : Decidable (StackUnderruns low high argv envp) :=
  inferInstanceAs (Decidable (Underruns _ _ _ _))

/-- The room of the words of a stack. -/
def frameSize (argv envp : List String) : Nat :=
  8 * (17 + argv.length + envp.length)

/-- The room of a whole stack. -/
def stackRoom (argv envp : List String) : Nat :=
  16 + Size.roundUp ((argv ++ envp).map roomOf).sum 16 + Size.roundUp (frameSize argv envp) 16

/-- The stack of a program is built exactly if there is room for it in RAM. -/
theorem settles_buildStack (hosts : Hosts low high m) {top : Word} (htop : top.toNat = high)
    (room : low + 16 ≤ high) (whole : high % 16 = 0) (p : Program) {argv envp : List String}
    (sizes : ∀ s ∈ argv ++ envp, roomOf s < Word.count)
    (count : 8 * (17 + argv.length + envp.length) < Word.count) :
  Settles (buildStack top p argv envp m) (fun _ => ¬StackUnderruns low high argv envp)
    (¬StackUnderruns low high argv envp ∧ high < low + stackRoom argv envp)
    (StackUnderruns low high argv envp)
  := by
  -- The strings of the environment are above those of the arguments.
  have hpieces : (argv ++ envp).reverse.map roomOf =
      envp.reverse.map roomOf ++ (argv.reverse.map roomOf ++ []) := by
    rw [List.reverse_append, List.map_append, List.append_nil]
  have hrooms : stackRoom argv envp =
      16 + Size.roundUp ((argv.reverse.map roomOf).sum + (envp.reverse.map roomOf).sum) 16 +
        Size.roundUp (frameSize argv envp) 16 := by
    rw [stackRoom, List.map_append, List.sum_append, List.map_reverse, List.map_reverse,
      List.sum_reverse, List.sum_reverse]
  rw [StackUnderruns, hpieces, hrooms, frameSize]
  unfold Size.roundUp
  generalize hframe : 8 * (17 + argv.length + envp.length) = frame at count
  unfold buildStack
  have hsixteen : (16 : Word).toNat = 16 := rfl
  refine (settles_diff top 16).bind False.elim (fun h => ?_) ?_
  · rw [hsixteen] at h
    omega
  rintro random ⟨-, hrandom⟩
  rw [hsixteen, htop] at hrandom
  rw [← hrandom]
  have hrandoms : (⟨randomBytes.toArray⟩ : ByteArray).size = 16 := rfl
  refine (settles_copy hosts random _).bind (fun h => absurd ?_ h) False.elim ?_
  · rw [hrandoms]
    omega
  rintro m₁ ⟨hosts₁, -⟩
  have hsizes (s : String) (hs : s ∈ envp.reverse) : roomOf s < Word.count :=
    sizes s (List.mem_append_right _ (List.mem_reverse.mp hs))
  refine (settles_pushStrings hosts₁ hsizes (by omega) (by omega) [] _ frame).bind ?_ id ?_
  · rintro ⟨hkept, hroom⟩
    exact ⟨hkept, by omega⟩
  rintro ⟨pos, envAddrs, m₂⟩ ⟨hosts₂, hstart, hsum, henvAddrs, hunder⟩
  dsimp only at hstart hsum
  rw [hunder]
  have hsizes' (s : String) (hs : s ∈ argv.reverse) : roomOf s < Word.count :=
    sizes s (List.mem_append_left _ (List.mem_reverse.mp hs))
  refine (settles_pushStrings hosts₂ hsizes' hstart (by omega) [] [] frame).bind ?_ id ?_
  · rintro ⟨hkept, hroom⟩
    exact ⟨hkept, by omega⟩
  rintro ⟨pos', argAddrs, m₃⟩ ⟨hosts₃, hstart', hsum', hargAddrs, hunder'⟩
  dsimp only at hstart' hsum'
  rw [hunder', underruns_nil hstart']
  dsimp only at henvAddrs hargAddrs ⊢
  generalize hwords : [BitVec.ofNat 64 argv.length] ++ argAddrs ++ [0] ++ envAddrs ++ [0] ++
    (facts p random).flatMap _ = words
  have hlength : 8 * words.length = frame := by
    rw [← hwords, ← hframe]
    simp [hargAddrs, henvAddrs, facts]
    omega
  have hround (w : Word) : (w &&& ~~~15).toNat = w.toNat / 16 * 16 := Memory.toNat_and_not_low w 4
  have htoNat : (BitVec.ofNat 64 frame).toNat = frame := Nat.mod_eq_of_lt count
  rw [hlength]
  refine (settles_diff (pos' &&& ~~~15) _).bind False.elim (fun h => ?_) fun sp hsp => ?_
  · rw [hround, htoNat] at h
    exact h
  rw [hround, htoNat] at hsp
  have hkept : ¬pos'.toNat / 16 * 16 < frame := Nat.not_lt.mpr hsp.1
  refine (settles_putWords hosts₃ words ?_).bind (fun h => ⟨hkept, ?_⟩) False.elim fun m₄ _ => ?_
  · rw [hround]
    omega
  · rw [hround, hlength] at h
    omega
  · exact .done _ rfl hkept

/-! ### Executable files -/

/-- A part of a file of a size that is in the file and has its place in RAM below the stack. -/
structure InPlace (base stackBase : Word) (size : Nat) (p : Elf.ProgramHeader) : Prop where
  start : base.toNat ≤ p.vaddr.toNat
  stop : p.vaddr.toNat + p.memorySize.toNat ≤ stackBase.toNat
  room : p.fileSize.toNat ≤ p.memorySize.toNat
  file : p.offset.toNat + p.fileSize.toNat ≤ size

variable {base stackBase : Word}

theorem settles_ofElf (x : Except ElfError α) :
  Settles (ofElf x) (fun a => x = .ok a) (∃ e, x = .error e) False
  := by
  cases x with
  | error e => exact .refused (.elf e) rfl ⟨e, rfl⟩
  | ok a => exact .done a rfl rfl

/-- A segment that is in RAM can be added. -/
theorem settles_add (segments : Segments) (vaddr len : Word) (flags : BitVec 32)
    (below : vaddr.toNat + len.toNat < Word.count) :
  Settles (lift (segments.add vaddr len flags)) (fun _ => True) False False
  := by
  rw [Segments.add, Word.sum, if_pos below]
  exact .done _ rfl trivial

theorem settles_checkParts (below : stackBase.toNat + pageSize ≤ Word.count) (size : Nat)
    (ps : List Elf.ProgramHeader) (segments : Segments) (brk : Word) :
  Settles (checkParts base stackBase size ps segments brk)
    (fun _ => ∀ p ∈ ps, InPlace base stackBase size p) (¬∀ p ∈ ps, InPlace base stackBase size p) False
  := by
  induction ps generalizing segments brk with
  | nil => exact .done _ rfl fun _ h => absurd h List.not_mem_nil
  | cons p ps ih =>
    unfold checkParts
    dsimp only
    by_cases hplace : p.vaddr.ult base ∨ stackBase.toNat < p.vaddr.toNat + p.memorySize.toNat
    case pos =>
      rw [if_pos hplace]
      refine .refused _ rfl fun hall => ?_
      obtain ⟨hstart, hstop, -, -⟩ := hall p (.head _)
      rw [BitVec.ult, decide_eq_true_iff] at hplace
      omega
    rw [if_neg hplace]
    by_cases hfile : p.memorySize.ult p.fileSize ∨ size < p.offset.toNat + p.fileSize.toNat
    case pos =>
      rw [if_pos hfile]
      refine .refused _ rfl fun hall => ?_
      obtain ⟨-, -, hroom, hfile'⟩ := hall p (.head _)
      rw [BitVec.ult, decide_eq_true_iff] at hfile
      omega
    rw [if_neg hfile]
    rw [BitVec.ult, decide_eq_true_iff] at hplace hfile
    have hp : InPlace base stackBase size p := by constructor <;> omega
    unfold pageSize at below
    have hend : p.vaddr.toNat + p.memorySize.toNat < Word.count := by omega
    refine (settles_add segments _ _ _ hend).bind False.elim False.elim fun segments' _ => ?_
    refine (settles_pageUp ?_).bind False.elim False.elim fun stop _ => ?_
    · rw [BitVec.toNat_add_of_lt hend]
      unfold Size.roundUp pageSize
      omega
    refine (ih segments' _).imp (fun _ h => ?_) (fun h hall => h fun q hq => hall q (.tail _ hq)) id
    exact List.forall_mem_cons.mpr ⟨hp, h⟩

theorem settles_copyParts (hosts : Hosts low high m) (start : low ≤ base.toNat)
    (stop : stackBase.toNat ≤ high) {data : ByteArray} (addressable : data.size < Word.count)
    {ps : List Elf.ProgramHeader} (inPlace : ∀ p ∈ ps, InPlace base stackBase data.size p) :
  Settles (copyParts data ps m) (Hosts low high) False False
  := by
  induction ps generalizing m with
  | nil => exact .done m rfl hosts
  | cons p ps ih =>
    obtain ⟨hp, hps⟩ := List.forall_mem_cons.mp inPlace
    have hfile := hp.file
    have hsize : (data.extract p.offset.toNat (p.offset.toNat + p.fileSize.toNat)).size =
        p.fileSize.toNat := by
      rw [ByteArray.size_extract]
      omega
    refine (settles_lift (Bytes.partWithin_eq hfile (by omega))).bind False.elim False.elim ?_
    rintro _ rfl
    refine (settles_copy hosts p.vaddr _).bind (fun h => h ?_) id fun m' ⟨hosts', _⟩ => ih hosts' hps
    obtain ⟨hstart, hstop, hroom, -⟩ := hp
    rw [hsize]
    omega

/-- The header and the program headers of an executable file. -/
structure Reads (data : ByteArray) (h : Elf.Header) (ps : List Elf.ProgramHeader) : Prop where
  magic : Elf.hasMagic data = true
  header : Elf.Header.read data = .ok h
  valid : h.validate = .ok ()
  table : h.programHeaders data = .ok ps

theorem Reads.unique {data : ByteArray} {h h' : Elf.Header} {ps ps' : List Elf.ProgramHeader}
    (reads : Reads data h ps) (reads' : Reads data h' ps') :
  h' = h ∧ ps' = ps
  := by
  obtain rfl : h' = h := Except.ok.inj (reads'.header.symm.trans reads.header)
  exact ⟨rfl, Except.ok.inj (reads'.table.symm.trans reads.table)⟩

/-- No program header says where the program headers are, and behind the first part that is loaded they
would be beyond the last address. -/
def HeadersBeyond (h : Elf.Header) (ps : List Elf.ProgramHeader) : Prop :=
  (∀ p ∈ (ps.filter (·.isSelf)).getLast?, p.vaddr = 0) ∧
  ∃ p ∈ ps.find? (·.isLoad), Word.count ≤ (pageStart p.vaddr).toNat + h.tableOffset.toNat

theorem settles_headersAddress (h : Elf.Header) (ps : List Elf.ProgramHeader) :
  Settles (lift (headersAddress h ps)) (fun _ => ¬HeadersBeyond h ps) False (HeadersBeyond h ps)
  := by
  unfold headersAddress HeadersBeyond
  generalize (ps.filter (·.isSelf)).getLast? = said
  generalize ps.find? (·.isLoad) = first
  dsimp only
  split
  case h_1 addr hsaid =>
    obtain ⟨hmap, hne⟩ := Option.filter_eq_some_iff.mp hsaid
    obtain ⟨p, hp, rfl⟩ := Option.map_eq_some_iff.mp hmap
    refine .done p.vaddr rfl fun h => ?_
    rw [h.1 p hp] at hne
    exact absurd hne (by decide)
  case h_2 p hsaid =>
    refine (settles_sum (pageStart p.vaddr) h.tableOffset).imp (fun c hc hbeyond => ?_) id fun hbeyond => ?_
    · obtain ⟨-, _, ⟨⟩, hcount⟩ := hbeyond
      have hlt : c.toNat < Word.count := c.isLt
      omega
    · refine ⟨fun q hq => ?_, p, rfl, hbeyond⟩
      have hzero := Option.filter_eq_none_iff.mp hsaid q.vaddr (Option.map_eq_some_iff.mpr ⟨q, hq, rfl⟩)
      simpa using hzero
  case h_3 =>
    refine .done 0 rfl ?_
    rintro ⟨-, _, ⟨⟩, -⟩

/-! ### Machines for programs -/

variable {config : Config} {services : Host.Services} {platform : Host.Platform} {data : ByteArray}
  {argv envp : List String}

theorem create_eq_ok {space : Memory.Space} (suits : config.Suits) (policy : Memory.Policy)
    (affordable : config.Affordable platform)
    (hspace : Memory.Space.create config.base (BitVec.ofNat 64 config.memorySize) = .ok space) :
  ∃ m, Machine.create config policy services platform = .ok (.ok m) ∧
    m.guest.memory.space = space ∧ ∀ c, m.cache = some c → c.Intact fun _ => True
  := by
  unfold Machine.create
  rw [hspace, Except.ok_bind]
  cases hmode : config.mode with
  | interpret =>
    refine ⟨_, rfl, rfl, ?_⟩
    rintro _ ⟨⟩
  | jit =>
    obtain ⟨c, hc⟩ := CodeCache.exists_create (affordable hmode) config.eviction services
    dsimp only
    rw [hc]
    refine ⟨_, rfl, rfl, ?_⟩
    rintro _ ⟨⟩
    refine (CodeCache.created_of_create hc).intact ?_
    rw [suits.cache]
    decide

/-- Without memory for its code cache, a machine is not created. -/
theorem create_eq_error {space : Memory.Space} (suits : config.Suits) (policy : Memory.Policy)
    (unaffordable : ¬config.Affordable platform)
    (hspace : Memory.Space.create config.base (BitVec.ofNat 64 config.memorySize) = .ok space) :
  Machine.create config policy services platform = .ok (.error .cacheSetup)
  := by
  obtain ⟨hmode, hgrants⟩ := Classical.not_imp.mp unaffordable
  have hsmall : max config.cacheSize 1 + 4095 < Word.count := by
    rw [suits.cache]
    decide
  rw [Machine.create, hspace, Except.ok_bind, hmode]
  dsimp only
  rw [CodeCache.create_eq_none hsmall hgrants]
  rfl

/-- A machine is created unless its RAM is larger than any object of the host, or there is no memory
for its code cache. -/
theorem settles_create (suits : config.Suits) (policy : Memory.Policy) :
  Settles (create config policy services platform)
    (fun m => Hosts config.base.toNat config.ramEnd m ∧ config.ramSize < 0x8000000000000000 ∧
      config.Affordable platform)
    (config.ramSize < 0x8000000000000000 ∧ ¬config.Affordable platform)
    (0x8000000000000000 ≤ config.ramSize)
  := by
  obtain ⟨bytes, hbytes, hsize⟩ := suits.pageUp_memorySize
  by_cases hlarge : config.ramSize < 0x8000000000000000
  · have hspace : Memory.Space.create config.base (BitVec.ofNat 64 config.memorySize) =
        .ok { ram := Bytes.zeros config.ramSize, base := config.base } := by
      rw [Memory.Space.create, if_neg (not_not_intro suits.aligned), hbytes, Except.ok_bind, hsize,
        if_pos hlarge]
      rfl
    by_cases haffordable : config.Affordable platform
    case neg =>
      refine .refused (.machine .cacheSetup) ?_ ⟨hlarge, haffordable⟩
      rw [create, create_eq_error suits policy haffordable hspace]
      rfl
    obtain ⟨m, hm, hmemory, hcache⟩ := create_eq_ok suits policy haffordable hspace
    refine .done m ?_ ⟨⟨⟨?_, ?_, suits.below⟩, hcache⟩, hlarge, haffordable⟩
    · rw [create, hm]
      rfl
    · rw [Machine.base, hmemory]
    · rw [Machine.ram, hmemory, Bytes.size_zeros]
      rfl
  · refine .overflowed ?_ (Nat.not_lt.mp hlarge)
    rw [create, Machine.create, Memory.Space.create, if_neg (not_not_intro suits.aligned), hbytes,
      Except.ok_bind, hsize, if_neg hlarge]
    rfl

/-! ### Programs -/

/-- The lowest address of the stack. -/
def stackStart (config : Config) : Nat :=
  config.ramEnd - stackSize

theorem stackStart_le (config : Config) :
  stackStart config ≤ config.ramEnd
  := Nat.sub_le _ _

theorem toNat_stackStart (suits : config.Suits) :
  (BitVec.ofNat 64 (stackStart config)).toNat = stackStart config
  := by
  rw [BitVec.toNat_ofNat]
  exact Nat.mod_eq_of_lt (Nat.lt_of_le_of_lt (stackStart_le config) suits.below)

/-- An address of the program is beyond the last address. -/
inductive Beyond (config : Config) (data : ByteArray) : Prop
  | headers {h : Elf.Header} {ps : List Elf.ProgramHeader} (reads : Reads data h ps)
    (beyond : HeadersBeyond h ps)
  | image (other : Elf.hasMagic data = false) (beyond : Word.count ≤ config.base.toNat + data.size)

/-- A program has its place below the stack. -/
inductive Accepts (config : Config) (data : ByteArray) : Prop
  | parts {h : Elf.Header} {ps : List Elf.ProgramHeader} (reads : Reads data h ps)
    (some : ∃ p ∈ ps, p.isLoad)
    (inPlace : ∀ p ∈ ps, p.isLoad →
      InPlace config.base (BitVec.ofNat 64 (stackStart config)) data.size p)
  | image (other : Elf.hasMagic data = false)
    (fits : config.base.toNat + data.size ≤ stackStart config)

/-- How making a machine with a program in it ends. -/
def Places (config : Config) (platform : Host.Platform) (data : ByteArray)
    (x : Loading (Machine × Program)) : Prop :=
  Settles x
    (fun r => Hosts config.base.toNat config.ramEnd r.1 ∧ ¬Beyond config data ∧ Accepts config data ∧
      config.ramSize < 0x8000000000000000 ∧ config.Affordable platform)
    (¬Beyond config data ∧ (Accepts config data →
      config.ramSize < 0x8000000000000000 ∧ ¬config.Affordable platform))
    (Beyond config data ∨ Accepts config data ∧ 0x8000000000000000 ≤ config.ramSize)

/-- Loading a program computes an address that there is not.  Nothing is put on the stack of a machine
for whose code cache there is no memory. -/
inductive Overruns (config : Config) (data : ByteArray) (argv envp : List String)
    (platform : Host.Platform := .standard) : Prop
  | program (beyond : Beyond config data)
  | ram (accepts : Accepts config data) (large : 0x8000000000000000 ≤ config.ramSize)
  | stack (accepts : Accepts config data) (affordable : config.Affordable platform)
    (underruns : StackUnderruns config.base.toNat config.ramEnd argv envp)

theorem Reads.beyond_iff {h : Elf.Header} {ps : List Elf.ProgramHeader} (reads : Reads data h ps) :
  Beyond config data ↔ HeadersBeyond h ps
  := by
  refine ⟨?_, .headers reads⟩
  rintro (⟨reads', beyond⟩ | ⟨other, -⟩)
  · obtain ⟨rfl, rfl⟩ := reads.unique reads'
    exact beyond
  · cases reads.magic.symm.trans other

theorem Reads.accepts_iff {h : Elf.Header} {ps : List Elf.ProgramHeader} (reads : Reads data h ps) :
  Accepts config data ↔ ps.filter (·.isLoad) ≠ [] ∧ ∀ p ∈ ps.filter (·.isLoad),
    InPlace config.base (BitVec.ofNat 64 (stackStart config)) data.size p
  := by
  simp only [List.mem_filter, and_imp, ne_eq, List.filter_eq_nil_iff, not_forall, Decidable.not_not]
  constructor
  · rintro (⟨reads', hsome, inPlace⟩ | ⟨other, -⟩)
    · obtain ⟨rfl, rfl⟩ := reads.unique reads'
      obtain ⟨p, hp, hload⟩ := hsome
      exact ⟨⟨p, hp, hload⟩, inPlace⟩
    · cases reads.magic.symm.trans other
  · rintro ⟨⟨p, hp, hload⟩, inPlace⟩
    exact .parts reads ⟨p, hp, hload⟩ inPlace

/-- Of an executable file that cannot be read, nothing has an address. -/
theorem refused_of_not_reads {P : Prop} (magic : Elf.hasMagic data = true)
    (unread : ∀ h ps, ¬Reads data h ps) :
  ¬Beyond config data ∧ (Accepts config data → P)
  := by
  constructor
  · rintro (⟨reads, -⟩ | ⟨other, -⟩)
    · exact unread _ _ reads
    · cases magic.symm.trans other
  · rintro (⟨reads, -, -⟩ | ⟨other, -⟩)
    · exact absurd reads (unread _ _)
    · cases magic.symm.trans other

theorem settles_loadElf (suits : config.Suits) (addressable : data.size < Word.count)
    (magic : Elf.hasMagic data = true) :
  Places config platform data
    (loadElf config data (BitVec.ofNat 64 (stackStart config)) services platform)
  := by
  unfold Places loadElf
  refine (settles_lift (Elf.Header.readWithin_eq data)).bind False.elim False.elim ?_
  rintro _ rfl
  refine (settles_ofElf _).bind ?_ False.elim fun h hheader => ?_
  · rintro ⟨e, he⟩
    exact refused_of_not_reads magic fun _ _ reads => by cases he.symm.trans reads.header
  refine (settles_ofElf _).bind ?_ False.elim fun _ hvalid => ?_
  · rintro ⟨e, he⟩
    refine refused_of_not_reads magic fun _ _ reads => ?_
    obtain ⟨⟩ := hheader.symm.trans reads.header
    cases he.symm.trans reads.valid
  refine (settles_lift (Elf.Header.programHeadersWithin_eq addressable)).bind False.elim False.elim ?_
  rintro _ rfl
  refine (settles_ofElf _).bind ?_ False.elim fun ps htable => ?_
  · rintro ⟨e, he⟩
    refine refused_of_not_reads magic fun _ _ reads => ?_
    obtain ⟨⟩ := hheader.symm.trans reads.header
    cases he.symm.trans reads.table
  have reads : Reads data h ps := ⟨magic, hheader, hvalid, htable⟩
  rw [reads.beyond_iff, reads.accepts_iff]
  refine (settles_headersAddress h ps).bind False.elim .inl fun headers hbeyond => ?_
  dsimp only
  by_cases hempty : ps.filter (·.isLoad) = []
  case pos =>
    rw [if_pos (List.isEmpty_iff.mpr hempty)]
    exact .refused _ rfl ⟨hbeyond, fun h => absurd hempty h.1⟩
  rw [if_neg (hempty ∘ List.isEmpty_iff.mp)]
  have hstack := toNat_stackStart suits
  have hend := suits.ramEnd_le
  have hle := stackStart_le config
  refine (settles_checkParts ?_ _ _ _ _).bind (fun h => ⟨hbeyond, fun h' => absurd h'.2 h⟩) False.elim
    ?_
  · omega
  rintro ⟨segments, brk⟩ inPlace
  refine (settles_create suits _).bind (fun h => ⟨hbeyond, fun _ => h⟩)
    (fun h => .inr ⟨⟨hempty, inPlace⟩, h⟩) ?_
  rintro m ⟨hosts, hsmall⟩
  refine (settles_copyParts hosts (Nat.le_refl _) ?_ addressable inPlace).bind False.elim False.elim
    fun m' hosts' => ?_
  · omega
  exact .done _ rfl ⟨hosts', hbeyond, ⟨hempty, inPlace⟩, hsmall⟩

theorem settles_loadFlat (suits : config.Suits) (other : Elf.hasMagic data = false)
    (addressable : data.size < Word.count) :
  Places config platform data
    (loadFlat config data (BitVec.ofNat 64 (stackStart config)) services platform)
  := by
  have hdata : (BitVec.ofNat 64 data.size).toNat = data.size := Nat.mod_eq_of_lt addressable
  have hbeyond : Beyond config data ↔ Word.count ≤ config.base.toNat + data.size := by
    refine ⟨?_, .image other⟩
    rintro (⟨reads, -⟩ | ⟨-, h⟩)
    · rw [reads.magic] at other
      cases other
    · exact h
  have haccepts : Accepts config data ↔ config.base.toNat + data.size ≤ stackStart config := by
    refine ⟨?_, .image other⟩
    rintro (⟨reads, -, -⟩ | ⟨-, h⟩)
    · rw [reads.magic] at other
      cases other
    · exact h
  rw [Places, hbeyond, haccepts]
  clear hbeyond haccepts
  have hend := suits.ramEnd_le
  unfold pageSize at hend
  have hstack := toNat_stackStart suits
  have hle := stackStart_le config
  unfold loadFlat
  refine (settles_sum config.base _).bind False.elim (fun h => ?_) fun stop hstop => ?_
  · rw [hdata] at h
    exact .inl h
  rw [hdata] at hstop
  have hlt : stop.toNat < Word.count := stop.isLt
  dsimp only
  by_cases hfits : (BitVec.ofNat 64 (stackStart config)).ult stop
  case pos =>
    rw [if_pos hfits]
    rw [BitVec.ult, decide_eq_true_iff, hstack] at hfits
    exact .refused _ rfl ⟨by omega, fun h => by omega⟩
  rw [if_neg hfits]
  rw [BitVec.ult, decide_eq_true_iff, hstack] at hfits
  refine (settles_create suits _).bind (fun h => ⟨by omega, fun _ => h⟩)
    (fun h => .inr ⟨by omega, h⟩) ?_
  rintro m ⟨hosts, hsmall⟩
  have hram : config.base.toNat + data.size ≤ config.ramEnd := by omega
  refine (settles_copy hosts config.base data).bind (absurd ⟨Nat.le_refl _, hram⟩) False.elim ?_
  rintro m' ⟨hosts', -⟩
  refine (settles_pageUp ?_).bind False.elim False.elim fun brk _ => ?_
  · unfold Size.roundUp pageSize
    omega
  exact .done _ rfl ⟨hosts', by omega, by omega, hsmall⟩

/-- Loading a program ends with an error only if the program, its code or its stack has no room. -/
theorem settles_loadProgram_exactly (suits : config.Suits) (addressable : data.size < Word.count)
    (sizes : ∀ s ∈ argv ++ envp, roomOf s < Word.count)
    (count : 8 * (17 + argv.length + envp.length) < Word.count) :
  Settles (loadProgram config data argv envp services platform)
    (fun _ => ¬Overruns config data argv envp platform)
    (¬Overruns config data argv envp platform ∧
      ¬(Accepts config data ∧ config.Affordable platform ∧ stackRoom argv envp ≤ config.ramSize))
    (Overruns config data argv envp platform)
  := by
  obtain ⟨bytes, hbytes, hsize⟩ := suits.pageUp_memorySize
  unfold loadProgram
  rw [hbytes]
  have hram : config.base.toNat + bytes.toNat = config.ramEnd := by rw [hsize, Config.ramEnd]
  refine (settles_sum config.base bytes).bind False.elim (fun h => ?_) fun top htop => ?_
  · rw [hram] at h
    exact absurd suits.below (Nat.not_lt.mpr h)
  rw [hram] at htop
  have hroom := suits.stackSize_le
  have hstack : max (top.toNat - stackSize) config.base.toNat = stackStart config := by
    rw [htop]
    exact Nat.max_eq_left (Nat.le_sub_of_add_le (Nat.add_le_add_left hroom _))
  rw [hstack]
  have hplaces : Places config platform data
      (if Elf.hasMagic data then
        loadElf config data (BitVec.ofNat 64 (stackStart config)) services platform
      else loadFlat config data (BitVec.ofNat 64 (stackStart config)) services platform) := by
    cases hmagic : Elf.hasMagic data with
    | true => exact settles_loadElf suits addressable hmagic
    | false => exact settles_loadFlat suits hmagic addressable
  refine hplaces.ite_bind ?_ ?_ ?_
  · rintro ⟨hbeyond, haccepts⟩
    refine ⟨?_, fun h => (haccepts h.1).2 h.2.1⟩
    rintro (h | ⟨h, hlarge⟩ | ⟨h, haffordable, -⟩)
    · exact hbeyond h
    · exact absurd (haccepts h).1 (Nat.not_lt.mpr hlarge)
    · exact (haccepts h).2 haffordable
  · rintro (h | ⟨h, hlarge⟩)
    · exact .program h
    · exact .ram h hlarge
  rintro ⟨m, p⟩ ⟨hosts, hbeyond, haccepts, hsmall, haffordable⟩
  have hoverruns : Overruns config data argv envp platform ↔
      StackUnderruns config.base.toNat config.ramEnd argv envp := by
    refine ⟨?_, .stack haccepts haffordable⟩
    rintro (h | ⟨-, h⟩ | ⟨-, -, h⟩)
    · exact absurd h hbeyond
    · exact absurd hsmall (Nat.not_lt.mpr h)
    · exact h
  rw [hoverruns]
  have hlow : config.base.toNat + 16 ≤ config.ramEnd := by
    unfold Config.ramEnd
    unfold stackSize at hroom
    omega
  refine (settles_buildStack hosts htop hlow suits.ramEnd_mod p sizes count).bind ?_ id ?_
  · rintro ⟨hkept, hroom⟩
    refine ⟨hkept, fun h => ?_⟩
    have := h.2.2
    unfold Config.ramEnd at hroom
    omega
  rintro ⟨sp, m'⟩ h
  exact .done _ rfl h

theorem settles_loadProgram (suits : config.Suits) (addressable : data.size < Word.count)
    (sizes : ∀ s ∈ argv ++ envp, roomOf s < Word.count)
    (count : 8 * (17 + argv.length + envp.length) < Word.count) :
  Settles (loadProgram config data argv envp services platform)
    (fun _ => ¬Overruns config data argv envp platform) (¬Overruns config data argv envp platform)
    (Overruns config data argv envp platform)
  := (settles_loadProgram_exactly suits addressable sizes count).imp (fun _ h => h) And.left id

/-- A stack for which there is room does not underrun. -/
theorem not_stackUnderruns (whole : high % 16 = 0) (room : low + stackRoom argv envp ≤ high) :
  ¬StackUnderruns low high argv envp
  := by
  have hsum : ((argv ++ envp).reverse.map roomOf).sum = ((argv ++ envp).map roomOf).sum := by
    rw [List.map_reverse, List.sum_reverse]
  unfold stackRoom frameSize Size.roundUp at room
  rintro (⟨i, hi, -, hpos⟩ | ⟨-, hframe⟩)
  · have htake := List.take_append_drop (i + 1) ((argv ++ envp).reverse.map roomOf)
    rw [← htake, List.sum_append] at hsum
    omega
  · omega

/-- A program is loaded if there is room for it, for its code and for its stack. -/
theorem exists_load (suits : config.Suits) (affordable : config.Affordable platform)
    (addressable : data.size < Word.count) (accepts : Accepts config data)
    (notBeyond : ¬Beyond config data) (small : config.ramSize < 0x8000000000000000)
    (room : stackRoom argv envp ≤ config.ramSize) :
  ∃ m p, (loadProgram config data argv envp services platform).run = .ok (.ok (m, p))
  := by
  have hroom := room
  unfold stackRoom frameSize Size.roundUp at hroom
  have hsizes (s : String) (hs : s ∈ argv ++ envp) : roomOf s < Word.count := by
    obtain ⟨before, after, hsplit⟩ := List.append_of_mem hs
    rw [hsplit, List.map_append, List.sum_append, List.map_cons, List.sum_cons] at hroom
    unfold Word.count
    omega
  have hcount : 8 * (17 + argv.length + envp.length) < Word.count := by
    unfold Word.count
    omega
  have hkept : ¬Overruns config data argv envp platform := by
    rintro (h | ⟨-, h⟩ | ⟨-, -, h⟩)
    · exact notBeyond h
    · exact absurd small (Nat.not_lt.mpr h)
    · exact not_stackUnderruns suits.ramEnd_mod (Nat.add_le_add_left room _) h
  obtain ⟨⟨m, p⟩, run, -⟩ | ⟨-, -, -, h⟩ | ⟨-, h⟩ :=
    settles_loadProgram_exactly suits addressable hsizes hcount
  · exact ⟨m, p, run⟩
  · exact absurd ⟨accepts, affordable, room⟩ h
  · exact absurd h hkept

/-- Loading a program never crashes but for an overflow, and that happens exactly if it computes an
address that there is not: the program headers or an image would be beyond the last address, RAM would
be larger than any object, or the stack would come below 0 before it leaves RAM.  Otherwise loading ends
with a program or with an error, whatever the file, the arguments, the environment and the platform are;
the sizes are words, as all sizes are.  In particular no bytes are asked for that the file does not
have. -/
theorem loading_crashes_iff_overruns (suits : config.Suits) (addressable : data.size < Word.count)
    (sizes : ∀ s ∈ argv ++ envp, roomOf s < Word.count)
    (count : 8 * (17 + argv.length + envp.length) < Word.count) :
  (Overruns config data argv envp platform →
    (loadProgram config data argv envp services platform).run = .error .overflow) ∧
  (¬Overruns config data argv envp platform →
    ∃ r, (loadProgram config data argv envp services platform).run = .ok r)
  := by
  obtain ⟨a, run, h⟩ | ⟨e, run, h⟩ | ⟨run, h⟩ := settles_loadProgram suits addressable sizes count
  · exact ⟨fun h' => absurd h' h, fun _ => ⟨_, run⟩⟩
  · exact ⟨fun h' => absurd h' h, fun _ => ⟨_, run⟩⟩
  · exact ⟨fun _ => run, fun h' => absurd h h'⟩

theorem suits_default :
  ({} : Config).Suits
  := ⟨rfl, rfl, by decide, by decide⟩

/-- An image of one instruction, with an argument and an environment. -/
theorem loading_of_image_returns :
  ¬Overruns {} ⟨#[0x73, 0, 0, 0]⟩ ["image"] ["HOME=/"] ∧
    ∃ r, (loadProgram {} ⟨#[0x73, 0, 0, 0]⟩ ["image"] ["HOME=/"]).run = .ok r
  := by
  have hkept : ¬Overruns {} ⟨#[0x73, 0, 0, 0]⟩ ["image"] ["HOME=/"] := by
    rintro ((⟨reads, -⟩ | ⟨-, h⟩) | ⟨-, h⟩ | ⟨-, -, h⟩)
    · exact absurd reads.magic (by decide)
    · exact absurd h (by decide)
    · exact absurd h (by decide)
    · exact absurd h (by decide)
  exact ⟨hkept, (loading_crashes_iff_overruns suits_default (by decide) (by decide) (by decide)).2 hkept⟩

/-- The header of an executable file with one program header behind its first page. -/
def farTable : List UInt8 :=
  [0x7f, 0x45, 0x4c, 0x46, 2, 1, 1, 0, 0, 0, 0, 0, 0, 0, 0, 0, 2, 0, 0xf3, 0, 0, 0, 0, 0,
    0, 0, 0, 0, 0, 0, 0, 0, 0, 0x10, 0, 0, 0, 0, 0, 0, 0, 0, 0, 0, 0, 0, 0, 0,
    0, 0, 0, 0, 0, 0, 56, 0, 1, 0, 0, 0, 0, 0, 0, 0]

/-- The program header of a part of sixteen bytes at the start of the last page. -/
def lastPage : List UInt8 :=
  Bytes.littleEndian 4 1 ++ Bytes.littleEndian 4 5 ++ Bytes.ofWord 8 0 ++
    Bytes.ofWord 8 0xfffffffffffff000 ++ Bytes.ofWord 8 0 ++ Bytes.ofWord 8 0 ++ Bytes.ofWord 8 0x10 ++
    Bytes.ofWord 8 0

def highPart : ByteArray :=
  ⟨(farTable ++ List.replicate 0xfc0 0 ++ lastPage).toArray⟩

/-- The part is outside of RAM, but loading crashes before it is found to be. -/
theorem loading_of_high_part_crashes :
  ∃ h p, ({} : Config).Suits ∧ Reads highPart h [p] ∧ p.type = 1 ∧ p.vaddr = 0xfffffffffffff000 ∧
    (loadProgram {} highPart [] []).run = .error .overflow
  := by
  let h : Elf.Header :=
    { ident := farTable.take 16, type := 2, machine := 243, entry := 0, tableOffset := 0x1000,
      entrySize := 56, count := 1 }
  have hlength : (farTable ++ List.replicate 0xfc0 0).length = 0x1000 := by
    rw [List.length_append, List.length_replicate]
    rfl
  have hsize : highPart.size = 0x1038 := by
    rw [highPart, ← ByteArray.size_data, List.size_toArray, List.length_append, hlength]
    rfl
  have hlast : Bytes.Has highPart 0x1000 lastPage := by
    rw [← hlength]
    exact .of_append _ _
  simp only [lastPage, Bytes.Has.append_iff, and_assoc] at hlast
  obtain ⟨htype, -, -, hvaddr, -⟩ := hlast
  have htable : h.programHeaders highPart = .ok [Elf.programHeaderAt highPart 0x1000] := by
    rw [Elf.Header.programHeaders, if_neg (by decide), hsize, if_neg (by decide)]
    rfl
  replace htype : (Elf.programHeaderAt highPart 0x1000).type = 1 := Bytes.has_littleEndian_iff.mp htype
  replace hvaddr : (Elf.programHeaderAt highPart 0x1000).vaddr = 0xfffffffffffff000 :=
    Bytes.has_ofWord_iff.mp hvaddr
  generalize Elf.programHeaderAt highPart 0x1000 = p at htable htype hvaddr
  have reads : Reads highPart h [p] := ⟨by decide +kernel, by decide +kernel, by decide, htable⟩
  have hbeyond : HeadersBeyond h [p] := by
    refine ⟨?_, p, ?_, ?_⟩
    · simp [Elf.ProgramHeader.isSelf, htype]
    · simp [Elf.ProgramHeader.isLoad, htype]
    · rw [hvaddr]
      decide
  have hoverruns : Overruns {} highPart [] [] := .program (.headers reads hbeyond)
  obtain ⟨-, -, h⟩ | ⟨-, -, h⟩ | ⟨run, -⟩ := settles_loadProgram suits_default (by rw [hsize]; decide)
    (by decide : ∀ s ∈ [] ++ [], roomOf s < Word.count) (by decide)
  · exact absurd hoverruns h
  · exact absurd hoverruns h
  · exact ⟨_, _, suits_default, reads, htype, hvaddr, run⟩

end CrossHart.Userland
