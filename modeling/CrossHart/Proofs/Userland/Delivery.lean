import CrossHart.Proofs.Memory.Flat
import CrossHart.Userland.Kernel
import Mathlib.Algebra.Ring.Int.Defs

/-!
# Delivery of buffers

A list of buffers is written to a file one buffer after the other.  Of each buffer the file accepts some
bytes from its start on, and the result is their number.  What the file has then is the start of all
buffers put together, if it accepted nothing behind a buffer that it did not accept whole.  This needs
bytes that stay as they are, so neither the list nor the buffers may be on a device.  Two cases are not as
one would expect: a buffer of which only a part is accepted does not end the call, and an entry of the
list that cannot be read makes it fail even if bytes were accepted before.
-/

namespace CrossHart

variable {allows : Memory.Query → Bool} {m : Memory}

/-! ### Bytes in guest memory -/

namespace Memory

open CrossHart.Action

theorem offset_add (addr : Word) (i j : Nat) :
  addr + BitVec.ofNat 64 (i + j) = addr + BitVec.ofNat 64 i + BitVec.ofNat 64 j
  := by
  rw [BitVec.ofNat_add, BitVec.add_assoc]

theorem offset_succ (addr : Word) (j : Nat) :
  addr + BitVec.ofNat 64 (j + 1) = addr + 1 + BitVec.ofNat 64 j
  := by
  rw [Nat.add_comm]
  exact offset_add addr 1 j

theorem gather_cons (bytes : Word → UInt8) (addr : Word) (n : Nat) :
  gather bytes addr (n + 1) = bytes addr :: gather bytes (addr + 1) n
  := by
  unfold gather
  rw [List.range_succ_eq_map, List.map_cons, List.map_map, BitVec.add_zero]
  congr 1
  refine List.map_congr_left fun i _ => ?_
  rw [Function.comp, Nat.succ_eq_add_one, offset_succ]

theorem take_gather (bytes : Word → UInt8) (addr : Word) (n limit : Nat) :
  (gather bytes addr n).take limit = gather bytes addr (min n limit)
  := by
  unfold gather
  rw [← List.map_take, List.take_range, Nat.min_comm]

/-- Loading bytes gives those that guest memory has, if all of them may be read. -/
theorem Guarded.loadBytes (guarded : m.Guarded allows) (addr : Word) (n : Nat) (before : ByteArray)
    (apart : ∀ j < n, ¬m.space.OnDevice (addr + BitVec.ofNat 64 j)) :
  ∃ r m', (loadBytes addr n before).on m = .ok (r, m') ∧ Peeks allows m m' ∧
    ((∀ j < n, m.space.Grants allows .read (addr + BitVec.ofNat 64 j)) ∧
        r = .ok ⟨before.data ++ (gather m.space.byteAt addr n).toArray⟩ ∨
      (∃ j < n, ¬m.space.Grants allows .read (addr + BitVec.ofNat 64 j)) ∧ ∃ f, r = .error f)
  := by
  induction n generalizing m addr before with
  | zero =>
    refine ⟨_, m, rfl, .refl guarded, .inl ⟨fun j hj => absurd hj (Nat.not_lt_zero j), ?_⟩⟩
    rw [gather, List.range_zero, List.map_nil, Array.append_empty]
  | succ n ih =>
    obtain ⟨byte, m₁, hread, hpeeks, hreads⟩ :=
      guarded.read addr Nat.one_pos (show 1 ≤ 8 by decide) .read fun j hj => apart j (by omega)
    rw [Memory.loadBytes, on_bind, load, hread]
    cases hreads with
    | fault inside denied =>
      exact ⟨_, m₁, rfl, hpeeks, .inr ⟨⟨_, Nat.lt_of_lt_of_le inside (by omega), denied⟩, _, rfl⟩⟩
    | value granted =>
      have hbyte : UInt8.ofNat (BitVec.ofNat 64
          (Bytes.ofLittleEndian (gather m.space.byteAt addr 1))).toNat = m.space.byteAt addr := by
        have hlt := (m.space.byteAt addr).toNat_lt
        have hlow : Bytes.ofLittleEndian (gather m.space.byteAt addr 1) =
            (m.space.byteAt addr).toNat := by
          rw [gather_cons]
          simp [gather, Bytes.ofLittleEndian]
        rw [hlow, BitVec.toNat_ofNat, Nat.mod_eq_of_lt (by omega), UInt8.ofNat_toNat]
      obtain ⟨r, m', hrest, hpeeks', hr⟩ :=
        ih hpeeks.after (addr + 1) (before.push (m.space.byteAt addr)) (by
          intro j hj
          rw [hpeeks.space, ← offset_succ]
          exact apart (j + 1) (Nat.succ_lt_succ hj))
      rw [hpeeks.space] at hr
      refine ⟨r, m', ?_, hpeeks.trans hpeeks', ?_⟩
      · dsimp only
        rw [hbyte, hrest]
      · obtain ⟨hgranted, rfl⟩ | ⟨⟨j, hj, hdenied⟩, f, rfl⟩ := hr
        · refine .inl ⟨fun j hj => ?_, ?_⟩
          · cases j with
            | zero => exact granted 0 Nat.one_pos
            | succ j =>
              rw [offset_succ]
              exact hgranted j (Nat.lt_of_succ_lt_succ hj)
          · rw [gather_cons, ByteArray.data_push]
            simp
        · refine .inr ⟨⟨j + 1, Nat.succ_lt_succ hj, ?_⟩, f, rfl⟩
          rwa [offset_succ]

end Memory

namespace Userland

open Memory (gather Peeks Space)
open Kernel (maxWrite maxBuffers badAddress badArgument)

/-! ### Files -/

namespace Files

variable {f f' : Files} {fd : BitVec 32} {data : ByteArray} {n : Nat} {result : Int}

/-- A file fails and has what it had, or accepts bytes from the start of those offered. -/
theorem write_cases (h : f.write fd data = (result, f')) :
  (∃ e : Nat, result = -e ∧ f' = f) ∨
    ∃ n ≤ data.size, result = n ∧
      f' = { f with delivered := ⟨fd, data.extract 0 n⟩ :: f.delivered }
  := by
  unfold write at h
  split at h
  case h_1 e _ =>
    obtain ⟨rfl, rfl⟩ := Prod.mk.inj h
    exact .inl ⟨e, rfl, rfl⟩
  case h_2 n _ =>
    obtain ⟨rfl, rfl⟩ := Prod.mk.inj h
    exact .inr ⟨min n data.size, Nat.min_le_right _ _, rfl, rfl⟩

/-- A file accepts no more than it is offered. -/
theorem length_take_of_write {offer : List UInt8}
    (h : f.write fd ⟨offer.toArray⟩ = ((n : Int), f')) :
  (offer.take n).length = n
  := by
  refine List.length_take_of_le ?_
  obtain ⟨e, he, -⟩ | ⟨k, hk, hn, -⟩ := write_cases h
  · omega
  · rw [← ByteArray.size_data, List.size_toArray] at hk
    omega

/-- What a file accepts comes behind what it accepted before. -/
theorem contents_of_write (h : f.write fd data = ((n : Int), f')) (fd' : BitVec 32) :
  (f'.contents fd').data.toList =
    (f.contents fd').data.toList ++ if fd' = fd then data.data.toList.take n else []
  := by
  obtain ⟨e, he, rfl⟩ | ⟨k, -, hn, rfl⟩ := write_cases h
  · have hzero : n = 0 := by omega
    rw [hzero, List.take_zero, ite_self, List.append_nil]
  · obtain rfl := Int.ofNat_inj.mp hn
    unfold contents
    rw [List.reverse_cons, List.foldl_append]
    by_cases hfd : fd' = fd
    · rw [if_pos hfd]
      simp [hfd]
    · rw [if_neg hfd]
      simp [Ne.symm hfd]

/-- A file that fails accepts nothing. -/
theorem eq_of_write_neg (h : f.write fd data = (result, f')) (error : result < 0) :
  f' = f
  := by
  obtain ⟨-, -, rfl⟩ | ⟨n, -, hn, -⟩ := write_cases h
  · rfl
  · omega

end Files

/-! ### Lists of buffers -/

/-- The word at an address. -/
def wordAt (s : Space) (addr : Word) : Word :=
  BitVec.ofNat 64 (Bytes.ofLittleEndian (gather s.byteAt addr 8))

/-- Where RAM holds the bytes of a word, within a page, there is this word. -/
theorem wordAt_of_has {s : Space} {addr v : Word} {position : Nat} (places : s.Places addr position)
    (inside : Memory.straddles addr 8 = false) (has : Bytes.Has s.ram position (Bytes.ofWord 8 v)) :
  wordAt s addr = v
  := by
  have hbytes : Bytes.slice0 s.ram position 8 = Bytes.ofWord 8 v := has
  have htop := v.isLt
  rw [wordAt, ← places.slice0_eq inside, hbytes, Bytes.ofWord, Bytes.ofLittleEndian_littleEndian]
  apply BitVec.eq_of_toNat_eq
  rw [BitVec.toNat_ofNat]
  omega

/-- The address of an entry of a list of buffers: the buffer's address, and behind it its length. -/
def entryAt (list : Word) (i : Nat) : Word :=
  list + BitVec.ofNat 64 (16 * i)

/-- The address of a buffer in a list. -/
def addrAt (s : Space) (list : Word) (i : Nat) : Word :=
  wordAt s (entryAt list i)

/-- The length of a buffer in a list. -/
def lengthAt (s : Space) (list : Word) (i : Nat) : Nat :=
  (wordAt s (entryAt list i + 8)).toNat

/-- The bytes of a buffer in a list. -/
def bufferAt (s : Space) (list : Word) (i : Nat) : List UInt8 :=
  gather s.byteAt (addrAt s list i) (lengthAt s list i)

/-- The bytes of a buffer in a list that are offered to a file. -/
def offerAt (s : Space) (list : Word) (i : Nat) : List UInt8 :=
  (bufferAt s list i).take maxWrite

/-- An entry of a list can be read. -/
def Listed (allows : Memory.Query → Bool) (s : Space) (list : Word) (i : Nat) : Prop :=
  ∀ j < 16, s.Grants allows .read (entryAt list i + BitVec.ofNat 64 j)

/-- What is offered of a buffer in a list can be read. -/
def Readable (allows : Memory.Query → Bool) (s : Space) (list : Word) (i : Nat) : Prop :=
  ∀ j < min (lengthAt s list i) maxWrite,
    s.Grants allows .read (addrAt s list i + BitVec.ofNat 64 j)

/-- No device is where an entry of a list is, or what is offered of its buffer. -/
structure Apart (allows : Memory.Query → Bool) (s : Space) (list : Word) (i : Nat) : Prop where
  entry : ∀ j < 16, ¬s.OnDevice (entryAt list i + BitVec.ofNat 64 j)
  buffer : Listed allows s list i → ∀ j < min (lengthAt s list i) maxWrite,
    ¬s.OnDevice (addrAt s list i + BitVec.ofNat 64 j)

/-- Without devices, every list is apart from them. -/
theorem Apart.of_plain (plain : m.Plain allows) (list : Word) (i : Nat) :
  Apart allows m.space list i
  := ⟨fun _ _ => plain.not_onDevice _, fun _ _ _ => plain.not_onDevice _⟩

/-- How the buffers of a list are delivered to a file, from the `i`-th on, with a number of bytes
accepted of those before: what the file accepts of each buffer, the files then, and the result. -/
inductive Delivers (allows : Memory.Query → Bool) (s : Space) (list : Word) (fd : BitVec 32)
    (count : Nat) : (i total : Nat) → Files → List (List UInt8) → Files → Int → Prop where
  | all (total : Nat) (f : Files) : Delivers allows s list fd count count total f [] f total
  | unlisted {i total : Nat} {f : Files} (more : i < count) (denied : ¬Listed allows s list i) :
      Delivers allows s list fd count i total f [] f (-badAddress)
  | unreadable {i total : Nat} {f : Files} (more : i < count) (listed : Listed allows s list i)
      (denied : ¬Readable allows s list i) :
      Delivers allows s list fd count i total f [] f (if 0 < total then total else -badAddress)
  | refused {i total : Nat} {f : Files} {result : Int} (more : i < count)
      (listed : Listed allows s list i) (readable : Readable allows s list i)
      (write : f.write fd ⟨(offerAt s list i).toArray⟩ = (result, f)) (error : result < 0) :
      Delivers allows s list fd count i total f [] f (if 0 < total then total else result)
  | accepted {i total n : Nat} {f f' f'' : Files} {pieces : List (List UInt8)} {result : Int}
      (more : i < count) (listed : Listed allows s list i) (readable : Readable allows s list i)
      (write : f.write fd ⟨(offerAt s list i).toArray⟩ = ((n : Int), f'))
      (later : Delivers allows s list fd count (i + 1) (total + n) f' pieces f'' result) :
      Delivers allows s list fd count i total f ((offerAt s list i).take n :: pieces) f'' result

/-- Nothing was accepted behind a buffer that was not accepted whole. -/
def Gapless (s : Space) (list : Word) : Nat → List (List UInt8) → Prop
  | _, [] => True
  | i, p :: rest => p = bufferAt s list i ∧ Gapless s list (i + 1) rest ∨ rest.flatten = []

namespace Delivers

variable {s : Space} {list : Word} {fd : BitVec 32} {count i total : Nat} {f f' : Files}
variable {pieces : List (List UInt8)} {result : Int}

/-- The file that is written to has, behind what it had, what was accepted, and no other file
changed. -/
theorem contents (h : Delivers allows s list fd count i total f pieces f' result) (fd' : BitVec 32) :
  (f'.contents fd').data.toList =
    (f.contents fd').data.toList ++ if fd' = fd then pieces.flatten else []
  := by
  induction h with
  | all | unlisted | unreadable | refused => rw [List.flatten_nil, ite_self, List.append_nil]
  | accepted more listed readable write later ih =>
    rw [ih, Files.contents_of_write write, List.append_assoc, List.flatten_cons]
    split
    · dsimp only
    · rw [List.append_nil]

/-- A result that is not negative is the number of bytes that were accepted. -/
theorem eq_of_nonneg (h : Delivers allows s list fd count i total f pieces f' result)
    (nonneg : 0 ≤ result) :
  result = (total + pieces.flatten.length : Nat)
  := by
  induction h with
  | all => rfl
  | unlisted => exact absurd nonneg (by decide)
  | unreadable =>
    split at nonneg
    · rw [if_pos ‹_›]
      rfl
    · exact absurd nonneg (by decide)
  | refused _ _ _ _ error =>
    split at nonneg
    · rw [if_pos ‹_›]
      rfl
    · exact absurd nonneg (Int.not_le.mpr error)
  | accepted more listed readable write later ih =>
    rw [ih nonneg, List.flatten_cons, List.length_append, Files.length_take_of_write write,
      Nat.add_assoc]

/-- With a negative result no byte was accepted, or an entry cannot be read. -/
theorem of_neg (h : Delivers allows s list fd count i total f pieces f' result) (neg : result < 0) :
  total + pieces.flatten.length = 0 ∨
    i + pieces.length < count ∧ ¬Listed allows s list (i + pieces.length)
  := by
  induction h with
  | all => exact absurd neg (by omega)
  | unlisted more denied => exact .inr ⟨more, denied⟩
  | unreadable | refused =>
    split at neg
    · exact absurd neg (by omega)
    · exact .inl (Nat.eq_zero_of_not_pos ‹_›)
  | accepted more listed readable write later ih =>
    rw [List.flatten_cons, List.length_append, Files.length_take_of_write write, ← Nat.add_assoc,
      List.length_cons, Nat.add_comm _ 1, ← Nat.add_assoc]
    exact ih neg

/-- Without gaps, what was accepted is the start of what there was to accept. -/
theorem prefix_of_gapless (h : Delivers allows s list fd count i total f pieces f' result)
    (gapless : Gapless s list i pieces) :
  pieces.flatten <+: (List.range' i (count - i)).flatMap (bufferAt s list)
  := by
  induction h with
  | all | unlisted | unreadable | refused => exact List.nil_prefix
  | @accepted i total n f f' f'' pieces result more listed readable write later ih =>
    have hstart : (offerAt s list i).take n <+: bufferAt s list i :=
      (List.take_prefix n _).trans (List.take_prefix maxWrite _)
    rw [show count - i = count - (i + 1) + 1 by omega, List.range'_succ, List.flatMap_cons,
      List.flatten_cons]
    obtain ⟨hwhole, hrest⟩ | hrest := gapless
    · rw [hwhole, List.prefix_append_right_inj]
      exact ih hrest
    · rw [hrest, List.append_nil]
      exact hstart.trans (List.prefix_append _ _)

end Delivers

/-! ### Writing buffers -/

namespace Kernel

/-- Offering a buffer to a file. -/
theorem write_buffer (guarded : m.Guarded allows) (k : Kernel) (fd list : Word) {i : Nat}
    (apart : Apart allows m.space list i) (listed : Listed allows m.space list i) :
  ∃ m', Peeks allows m m' ∧
    (¬Readable allows m.space list i ∧
        k.write fd (addrAt m.space list i) (wordAt m.space (entryAt list i + 8)) m =
          .ok (-badAddress, k, m') ∨
      Readable allows m.space list i ∧
        k.write fd (addrAt m.space list i) (wordAt m.space (entryAt list i + 8)) m =
          .ok ((k.files.write (fd.setWidth 32) ⟨(offerAt m.space list i).toArray⟩).1,
            { k with files :=
              (k.files.write (fd.setWidth 32) ⟨(offerAt m.space list i).toArray⟩).2 }, m'))
  := by
  obtain ⟨r, m', hload, hpeeks, h⟩ := guarded.loadBytes (addrAt m.space list i)
    (min (lengthAt m.space list i) maxWrite)
    (.emptyWithCapacity (min (lengthAt m.space list i) maxWrite)) (apart.buffer listed)
  refine ⟨m', hpeeks, ?_⟩
  unfold Kernel.write
  dsimp only
  rw [← lengthAt, hload, Except.ok_bind]
  obtain ⟨hgranted, rfl⟩ | ⟨⟨j, hj, hdenied⟩, f, rfl⟩ := h
  · refine .inr ⟨hgranted, ?_⟩
    have hdata : (ByteArray.emptyWithCapacity (min (lengthAt m.space list i) maxWrite)).data ++
        (gather m.space.byteAt (addrAt m.space list i)
          (min (lengthAt m.space list i) maxWrite)).toArray = (offerAt m.space list i).toArray := by
      rw [offerAt, bufferAt, Memory.take_gather]
      exact Array.empty_append
    dsimp only
    rw [hdata]
    rfl
  · exact .inl ⟨fun h => hdenied (h j hj), rfl⟩

/-- Reading an entry of a list, and then offering its buffer. -/
theorem writeBuffers_succ (guarded : m.Guarded allows) (fd list : Word) (n : Nat) {i : Nat}
    (small : i < maxBuffers) (apart : Apart allows m.space list i) (total : Int) (k : Kernel) :
  writeBuffers fd (n + 1) list i total k m = .error .overflow ∧
      Word.count < list.toNat + 16 * (i + 1) ∨
    ∃ m', Peeks allows m m' ∧
      (¬Listed allows m.space list i ∧
          writeBuffers fd (n + 1) list i total k m = .ok (-badAddress, k, m') ∨
        Listed allows m.space list i ∧
          writeBuffers fd (n + 1) list i total k m =
            k.write fd (addrAt m.space list i) (wordAt m.space (entryAt list i + 8)) m' >>=
              fun r => if r.1 < 0 then .ok (if 0 < total then total else r.1, r.2.1, r.2.2)
                else writeBuffers fd n list (i + 1) (total + r.1) r.2.1 r.2.2)
  := by
  have hoffset : (BitVec.ofNat 64 (16 * i)).toNat = 16 * i := by
    unfold maxBuffers at small
    rw [BitVec.toNat_ofNat]
    omega
  have height : (8 : Word).toNat = 8 := rfl
  rw [writeBuffers, Word.sum]
  by_cases hfirst : list.toNat + (BitVec.ofNat 64 (16 * i)).toNat < Word.count
  case neg =>
    rw [if_neg hfirst]
    rw [hoffset] at hfirst
    exact .inl ⟨rfl, by omega⟩
  obtain ⟨base, m₁, hbase, hpeeks, hreads⟩ :=
    guarded.read (entryAt list i) (show 0 < 8 by decide) (Nat.le_refl 8) .read
      fun j hj => apart.entry j (by omega)
  rw [if_pos hfirst, Except.ok_bind, ← entryAt, Memory.load, hbase, Except.ok_bind]
  cases hreads with
  | fault inside denied =>
    exact .inr ⟨m₁, hpeeks, .inl ⟨fun h => denied (h _ (Nat.lt_of_lt_of_le inside (by decide))), rfl⟩⟩
  | value granted =>
    dsimp only
    rw [Word.sum]
    by_cases hsecond : (entryAt list i).toNat + (8 : Word).toNat < Word.count
    case neg =>
      rw [if_neg hsecond]
      rw [entryAt, BitVec.toNat_add_of_lt hfirst, hoffset, height] at hsecond
      exact .inl ⟨rfl, by omega⟩
    have hoffset' (j : Nat) : entryAt list i + 8 + BitVec.ofNat 64 j =
        entryAt list i + BitVec.ofNat 64 (8 + j) := (Memory.offset_add _ 8 j).symm
    obtain ⟨len, m₂, hlen, hpeeks', hreads'⟩ :=
      hpeeks.after.read (entryAt list i + 8) (show 0 < 8 by decide) (Nat.le_refl 8) .read (by
        intro j hj
        rw [hoffset', hpeeks.space]
        exact apart.entry _ (by omega))
    have hpeeked := hpeeks.trans hpeeks'
    rw [hpeeks.space] at hreads'
    rw [if_pos hsecond, Except.ok_bind, Memory.load, hlen, Except.ok_bind]
    refine .inr ⟨m₂, hpeeked, ?_⟩
    cases hreads' with
    | fault inside denied =>
      rw [hoffset'] at denied
      exact .inl ⟨fun h => denied (h _ (by omega)), rfl⟩
    | value granted' =>
      refine .inr ⟨fun j hj => ?_, rfl⟩
      by_cases hj' : j < 8
      · exact granted j hj'
      · have hgranted := granted' (j - 8) (by omega)
        rwa [hoffset', Nat.add_sub_of_le (Nat.le_of_not_lt hj')] at hgranted

/-- Writing buffers delivers them. -/
theorem writeBuffers_delivers (guarded : m.Guarded allows) (fd list : Word) {n i : Nat}
    (small : i + n ≤ maxBuffers) (apart : ∀ j < i + n, Apart allows m.space list j) (total : Nat)
    (k : Kernel) :
  writeBuffers fd n list i total k m = .error .overflow ∧ Word.count < list.toNat + 16 * (i + n) ∨
    ∃ pieces files result m', writeBuffers fd n list i total k m =
        .ok (result, { k with files }, m') ∧ Peeks allows m m' ∧
      Delivers allows m.space list (fd.setWidth 32) (i + n) i total k.files pieces files result
  := by
  induction n generalizing m i total k with
  | zero => exact .inr ⟨[], k.files, total, m, rfl, .refl guarded, .all total k.files⟩
  | succ n ih =>
    have hmore : i < i + (n + 1) := by omega
    obtain ⟨hcrash, hbeyond⟩ | ⟨m₁, hpeeks, ⟨hdenied, heq⟩ | ⟨hlisted, heq⟩⟩ :=
      writeBuffers_succ guarded fd list n (by omega : i < maxBuffers) (apart i hmore) total k
    · exact .inl ⟨hcrash, by omega⟩
    · exact .inr ⟨[], k.files, _, m₁, heq, hpeeks, .unlisted hmore hdenied⟩
    -- What is left works on the memory after the entry was read, which has the same bytes.
    rw [heq, ← hpeeks.space]
    rw [← hpeeks.space] at hlisted apart
    have hresult (e : Int) : (if 0 < (total : Int) then (total : Int) else e) =
        if 0 < total then (total : Int) else e := if_congr Int.natCast_pos rfl rfl
    obtain ⟨m₂, hpeeks', hoffered⟩ := write_buffer hpeeks.after k fd list (apart i hmore) hlisted
    have hpeeked := hpeeks.trans hpeeks'
    obtain ⟨hdenied, hwrite⟩ | ⟨hreadable, hwrite⟩ := hoffered
    · have hneg : -badAddress < 0 := by decide
      rw [hwrite, Except.ok_bind]
      dsimp only
      rw [if_pos hneg, hresult]
      exact .inr ⟨[], k.files, _, m₂, rfl, hpeeked, .unreadable hmore hlisted hdenied⟩
    rw [hwrite, Except.ok_bind]
    dsimp only
    generalize hoffer : k.files.write (fd.setWidth 32) ⟨(offerAt m₁.space list i).toArray⟩ = w
    obtain ⟨written, files⟩ := w
    by_cases hneg : written < 0
    · cases Files.eq_of_write_neg hoffer hneg
      rw [if_pos hneg, hresult]
      exact .inr ⟨[], k.files, _, m₂, rfl, hpeeked, .refused hmore hlisted hreadable hoffer hneg⟩
    · obtain ⟨a, rfl⟩ := Int.eq_ofNat_of_zero_le (Int.not_lt.mp hneg)
      rw [if_neg hneg, ← Int.natCast_add]
      have hcount : i + 1 + n = i + (n + 1) := by omega
      have hapart : ∀ j < i + 1 + n, Apart allows m₂.space list j := by
        rw [hpeeks'.space, hcount]
        exact apart
      obtain ⟨hcrash, hbeyond⟩ | ⟨pieces, files', result, m', hrest, hpeeks'', hdelivers⟩ :=
        ih hpeeks'.after (by omega : i + 1 + n ≤ maxBuffers) hapart (total + a) { k with files }
      · exact .inl ⟨hcrash, by omega⟩
      · rw [hpeeks'.space, hcount] at hdelivers
        exact .inr ⟨_, files', result, m', hrest, hpeeked.trans hpeeks'',
          .accepted hmore hlisted hreadable hoffer hdelivers⟩

/-- If the second entry of a list cannot be read, the call fails, whatever was accepted of the first
buffer. -/
theorem writev_of_not_listed (guarded : m.Guarded allows) (k : Kernel) (fd list : Word)
    (apart : ∀ i < 2, Apart allows m.space list i) (low : list.toNat + 32 ≤ Word.count)
    (listed : Listed allows m.space list 0) (readable : Readable allows m.space list 0) {n : Nat}
    {files : Files}
    (write : k.files.write (fd.setWidth 32) ⟨(offerAt m.space list 0).toArray⟩ = ((n : Int), files))
    (denied : ¬Listed allows m.space list 1) :
  ∃ m', k.writev fd list 2 m = .ok (-badAddress, { k with files }, m')
  := by
  obtain ⟨-, hbeyond⟩ | ⟨pieces, files', result, m', heq, -, h⟩ :=
    writeBuffers_delivers guarded fd list (n := 2) (i := 0) (by decide) apart 0 k
  · omega
  refine ⟨m', ?_⟩
  cases h with
  | unlisted _ denied' => exact absurd listed denied'
  | unreadable _ _ denied' => exact absurd readable denied'
  | refused _ _ _ write' error =>
    rw [write] at write'
    cases write'
    omega
  | accepted _ _ _ write' later =>
    rw [write] at write'
    cases write'
    cases later with
    | unlisted => exact heq
    | unreadable _ listed' => exact absurd listed' denied
    | refused _ listed' => exact absurd listed' denied
    | accepted _ listed' => exact absurd listed' denied

/-- Buffers are delivered in order, whatever devices there are, if neither the buffers nor their list are
on them.  A list of too many is refused, and one that goes beyond the last address can crash the kernel.
Otherwise the file gets, behind what it had, a piece from the start of each buffer.  The pieces together
are the start of all buffers together, if nothing was accepted behind a buffer that was not accepted
whole.  A result that is not negative is the number of bytes accepted.  With a negative result none was,
unless an entry of the list cannot be read. -/
theorem buffers_delivered_in_order (guarded : m.Guarded allows) (k : Kernel) (fd list count : Word)
    (apart : ∀ i < count.toNat, Apart allows m.space list i) :
  maxBuffers < count.toNat ∧ k.writev fd list count m = .ok (-badArgument, k, m) ∨
  k.writev fd list count m = .error .overflow ∧ Word.count < list.toNat + 16 * count.toNat ∨
  ∃ pieces files result m', k.writev fd list count m = .ok (result, { k with files }, m') ∧
    Peeks allows m m' ∧
    Delivers allows m.space list (fd.setWidth 32) count.toNat 0 0 k.files pieces files result ∧
    (∀ fd', (files.contents fd').data.toList =
      (k.files.contents fd').data.toList ++ if fd' = fd.setWidth 32 then pieces.flatten else []) ∧
    (Gapless m.space list 0 pieces →
      pieces.flatten <+: (List.range count.toNat).flatMap (bufferAt m.space list)) ∧
    (0 ≤ result → result = pieces.flatten.length) ∧
    (result < 0 → pieces.flatten = [] ∨
      pieces.length < count.toNat ∧ ¬Listed allows m.space list pieces.length)
  := by
  unfold writev
  by_cases hmany : maxBuffers < count.toNat
  · exact .inl ⟨hmany, if_pos hmany⟩
  rw [if_neg hmany]
  have hsmall : 0 + count.toNat ≤ maxBuffers := by omega
  obtain ⟨hcrash, hbeyond⟩ | ⟨pieces, files, result, m', heq, hpeeks, h⟩ :=
    writeBuffers_delivers guarded fd list hsmall (by rwa [Nat.zero_add]) 0 k
  · rw [Nat.zero_add] at hbeyond
    exact .inr (.inl ⟨hcrash, hbeyond⟩)
  rw [Nat.zero_add] at h
  refine .inr (.inr ⟨pieces, files, result, m', heq, hpeeks, h, h.contents, fun hgapless => ?_,
    fun hnonneg => ?_, fun hneg => ?_⟩)
  · rw [List.range_eq_range']
    exact h.prefix_of_gapless hgapless
  · rw [h.eq_of_nonneg hnonneg, Nat.zero_add]
  · have hnone := h.of_neg hneg
    rwa [Nat.zero_add, Nat.zero_add, List.length_eq_zero_iff] at hnone

/-- An entry of a list of buffers. -/
def lettersEntry (addr length : Word) : List UInt8 :=
  Bytes.ofWord 8 addr ++ Bytes.ofWord 8 length

/-- A page up to its last entry: a list of two buffers, and three letters, the last two of which are the
first buffer. -/
def lettersFront : List UInt8 :=
  lettersEntry 0x21 2 ++ (lettersEntry 0x20 1 ++ ([97, 98, 99] ++ List.replicate 0xfcd 0))

/-- Memory of such a page with a last entry for all three letters, and with a device not far behind. -/
def letters : Memory where
  space := ⟨⟨(lettersFront ++ lettersEntry 0x20 3).toArray⟩, 0, [⟨0x2000, 0x1000, .storage⟩]⟩
  policy := .allowAll

/-- A kernel without a heap. -/
def heapless : Kernel :=
  { start := 0, brk := 0, limit := 0 }

theorem length_lettersFront :
  lettersFront.length = 0xff0
  := by
  simp only [lettersFront, List.length_append, List.length_replicate]
  rfl

theorem size_letters :
  letters.space.ram.size = 4096
  := by
  rw [← ByteArray.size_data, letters, List.size_toArray, List.length_append, length_lettersFront]
  rfl

theorem guarded_letters :
  letters.Guarded (fun _ => true)
  := by
  refine Memory.guarded_unused (s := letters.space) (fun _ _ => rfl) ⟨rfl, fun r hr => ?_⟩ ?_
  · rw [List.mem_singleton.mp hr]
    rfl
  · rw [size_letters]
    rfl

theorem not_onDevice_letters {addr : Word} (low : addr.toNat < 0x2000) :
  ¬letters.space.OnDevice addr
  := by
  rintro ⟨i, offset, hresolve⟩
  have hregions : letters.space.regions = [⟨0x2000, 0x1000, .storage⟩] := rfl
  have hpage : Memory.Region.contains ⟨0x2000, 0x1000, .storage⟩ (Memory.pageStart addr) = false := by
    rw [Memory.Region.contains, Bool.and_eq_false_iff, BitVec.ule, decide_eq_false_iff_not,
      Memory.toNat_pageStart]
    exact .inl (Nat.not_le.mpr (Nat.lt_of_le_of_lt (Nat.div_mul_le_self _ _) low))
  unfold Space.resolve at hresolve
  dsimp only at hresolve
  split at hresolve
  · cases hresolve
  · rw [hregions, List.findIdx?_cons, hpage] at hresolve
    cases hresolve

theorem apart_letters {list : Word} {i : Nat} (entry : (entryAt list i).toNat + 16 ≤ 0x2000)
    (buffer : (addrAt letters.space list i).toNat + lengthAt letters.space list i ≤ 0x2000) :
  Apart (fun _ => true) letters.space list i
  := by
  refine ⟨fun j hj => not_onDevice_letters ?_, fun _ j hj => not_onDevice_letters ?_⟩
  · rw [BitVec.toNat_add, BitVec.toNat_ofNat]
    omega
  · rw [BitVec.toNat_add, BitVec.toNat_ofNat]
    omega

/-- Both buffers are delivered, in the order of the list. -/
theorem letters_delivered :
  letters.Guarded (fun _ => true) ∧ (∀ i < 2, Apart (fun _ => true) letters.space 0 i) ∧
    ∃ pieces files m', heapless.writev 1 0 2 letters = .ok (3, { heapless with files }, m') ∧
      Delivers (fun _ => true) letters.space 0 1 2 0 0 heapless.files pieces files 3 ∧
      (List.range 2).map (bufferAt letters.space 0) = [[98, 99], [97]] ∧
      pieces.flatten = [98, 99, 97]
  := by
  have hresult : (heapless.writev 1 0 2 letters).toOption.map
      (fun r => (r.1, (r.2.1.files.contents 1).data.toList)) = some (3, [98, 99, 97]) := by
    decide +kernel
  have hbuffers : ∀ i < 2,
      (addrAt letters.space 0 i).toNat + lengthAt letters.space 0 i ≤ 0x2000 := by decide +kernel
  have hentries : ∀ i < 2, (entryAt 0 i).toNat + 16 ≤ 0x2000 := by decide
  have hapart (i : Nat) (hi : i < 2) : Apart (fun _ => true) letters.space 0 i :=
    apart_letters (hentries i hi) (hbuffers i hi)
  obtain ⟨hmany, -⟩ | ⟨-, hbeyond⟩ | ⟨pieces, files, result, m', heq, -, hdelivers, hcontents, -⟩ :=
    buffers_delivered_in_order guarded_letters heapless 1 0 2 hapart
  · exact absurd hmany (by decide)
  · exact absurd hbeyond (by decide)
  · rw [heq] at hresult
    obtain ⟨rfl, hfile⟩ := Prod.mk.inj (Option.some.inj hresult)
    refine ⟨guarded_letters, hapart, pieces, files, m', heq, hdelivers, ?_, ?_⟩
    · decide +kernel
    · exact ((hcontents 1).symm.trans hfile : [] ++ pieces.flatten = _)

theorem last_entry_letters :
  addrAt letters.space 0xff0 0 = 0x20 ∧ lengthAt letters.space 0xff0 0 = 3
  := by
  -- The entry is far from the start of the page, so its bytes are found by their place in the list.
  have hlast := Bytes.Has.of_append lettersFront (lettersEntry 0x20 3)
  rw [length_lettersFront] at hlast
  obtain ⟨haddr, hlength⟩ := Bytes.Has.append_iff.mp hlast
  have hplaces (addr : Word) (position : Nat) (h : addr.toNat = position) (low : position < 4096) :
      letters.space.Places addr position := by
    refine ⟨rfl, h.trans (Nat.zero_add _).symm, ?_⟩
    rw [size_letters, Memory.pageSize]
    omega
  have hentry : entryAt 0xff0 0 = 0xff0 := rfl
  have hbehind : (0xff0 : Word) + 8 = 0xff8 := rfl
  rw [addrAt, lengthAt, hentry, hbehind, wordAt_of_has (hplaces 0xff0 0xff0 rfl (by decide)) rfl haddr,
    wordAt_of_has (hplaces 0xff8 0xff8 rfl (by decide)) rfl hlength]
  exact ⟨rfl, rfl⟩

theorem grants_letters {addr : Word} :
  letters.space.Grants (fun _ => true) .read addr ↔ addr.toNat < 4096
  := by
  rw [Space.Grants, Space.ramContains_iff, size_letters]
  exact ⟨fun h => h.1.2, fun h => ⟨⟨Nat.zero_le _, h⟩, rfl⟩⟩

/-- With an entry behind the end of memory, the letters are delivered and the call fails. -/
theorem letters_delivered_in_vain :
  (heapless.writev 1 0xff0 2 letters).toOption.map
      (fun r => (r.1, (r.2.1.files.contents 1).data.toList)) =
    some (-badAddress, [97, 98, 99])
  := by
  obtain ⟨haddr, hlength⟩ := last_entry_letters
  have hoffer : offerAt letters.space 0xff0 0 = [97, 98, 99] := by
    rw [offerAt, bufferAt, haddr, hlength]
    decide +kernel
  have hlisted : Listed (fun _ => true) letters.space 0xff0 0 := by
    have hlow : ∀ j < 16, (entryAt 0xff0 0 + BitVec.ofNat 64 j).toNat < 4096 := by decide
    exact fun j hj => grants_letters.mpr (hlow j hj)
  have hreadable : Readable (fun _ => true) letters.space 0xff0 0 := by
    have hlow : ∀ j < min 3 maxWrite, ((0x20 : Word) + BitVec.ofNat 64 j).toNat < 4096 := by decide
    rw [Readable, haddr, hlength]
    exact fun j hj => grants_letters.mpr (hlow j hj)
  have hdenied : ¬Listed (fun _ => true) letters.space 0xff0 1 := by
    intro h
    exact absurd (grants_letters.mp (h 0 (by decide))) (by decide)
  have hapart : ∀ i < 2, Apart (fun _ => true) letters.space 0xff0 i := by
    intro i hi
    obtain rfl | rfl : i = 0 ∨ i = 1 := by omega
    · apply apart_letters (by decide)
      rw [haddr, hlength]
      decide
    · exact apart_letters (by decide) (by decide +kernel)
  obtain ⟨m', heq⟩ := writev_of_not_listed guarded_letters heapless 1 0xff0 hapart (by decide) hlisted
    hreadable (by rw [hoffer]; rfl) hdenied
  rw [heq]
  rfl

end Kernel

end Userland

end CrossHart
