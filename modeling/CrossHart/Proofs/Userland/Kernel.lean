import CrossHart.Proofs.Machine.Calls
import CrossHart.Userland.Kernel

/-!
# The kernel as a handler

The kernel uses guest memory through loads only, so what it answers does not depend on the lookaside
table, and it keeps memory as it is.
-/

namespace CrossHart

open CrossHart.Action

variable {allows : Memory.Query → Bool}

namespace Memory

theorem stays_loadBytes (addr : Word) (n : Nat) (bytes : ByteArray) :
  Stays (Looks allows) (loadBytes addr n bytes)
  := by
  induction n generalizing addr bytes with
  | zero => exact .pure bytes
  | succ n ih =>
    exact (stays_read addr (by decide) .read).bind (isCourse_looks allows) fun b => ih _ _

theorem respects_loadBytes (addr : Word) (n : Nat) (bytes : ByteArray) :
  Respects (Alike allows) (loadBytes addr n bytes)
  := by
  induction n generalizing addr bytes with
  | zero => exact .pure bytes
  | succ n ih => exact (respects_read addr 1 .read).bind fun b => ih _ _

end Memory

namespace Userland.Kernel

open Handler

variable {m m' before : Memory}

/-- What looks at memory gives the same from memories that cannot be told apart. -/
theorem pairs_on {α : Type} {a : Action Memory Memory.Fault α}
    (respects : Respects (Memory.Alike allows) a) (stays : Stays (Memory.Looks allows) a)
    (alike : Memory.Alike allows m m') (evolves : before.Evolves allows m) :
  Pairs (fun _ => True)
    (fun r r' => r.1 = r'.1 ∧ Memory.Alike allows r.2 r'.2 ∧ before.Evolves allows r.2) (a.on m)
    (a.on m')
  := by
  obtain ⟨⟨r, n⟩, hr, hlooks⟩ := (stays m evolves.after.looks).exists_ok trivial
  have hmatches := respects m m' alike
  rw [hr] at hmatches ⊢
  obtain ⟨c, hc, -⟩ | ⟨_, _, n', ⟨⟩, hr', halike⟩ := hmatches.elim
  · cases hc
  · rw [hr']
    exact .ok ⟨rfl, halike, (Memory.isCourse_evolves allows).trans _ _ _ evolves hlooks.evolves⟩

theorem write_pairs (k : Kernel) (fd addr len : Word) (alike : Memory.Alike allows m m')
    (evolves : before.Evolves allows m) :
  Pairs (fun _ => True) (Answers allows before) (k.write fd addr len m) (k.write fd addr len m')
  := by
  unfold write
  refine (pairs_on (Memory.respects_loadBytes addr _ _) (Memory.stays_loadBytes addr _ _) alike
    evolves).bind ?_
  rintro ⟨data, n⟩ ⟨_, n'⟩ ⟨rfl, halike, hevolves⟩
  cases data with
  | error f => exact .ok ⟨rfl, rfl, halike, hevolves⟩
  | ok data => exact .ok ⟨rfl, rfl, halike, hevolves⟩

theorem pairs_lift {α : Type} (x : Except Crash α) :
  Pairs (fun _ => True) (fun a b => a = b) x x
  := by
  cases x with
  | ok a => exact .ok rfl
  | error c => exact .crash trivial

theorem load_pairs (addr : Word) (alike : Memory.Alike allows m m')
    (evolves : before.Evolves allows m) :
  Pairs (fun _ => True)
    (fun r r' => r.1 = r'.1 ∧ Memory.Alike allows r.2 r'.2 ∧ before.Evolves allows r.2)
    ((Memory.load addr 8).on m) ((Memory.load addr 8).on m')
  := pairs_on (Memory.respects_read addr 8 .read) (Memory.stays_read addr (by decide) .read) alike
    evolves

theorem writeBuffers_pairs (fd : Word) (n : Nat) (list : Word) (i : Nat) (total : Int) (k : Kernel)
    (alike : Memory.Alike allows m m') (evolves : before.Evolves allows m) :
  Pairs (fun _ => True) (Answers allows before) (writeBuffers fd n list i total k m)
    (writeBuffers fd n list i total k m')
  := by
  induction n generalizing i total k m m' with
  | zero => exact .ok ⟨rfl, rfl, alike, evolves⟩
  | succ n ih =>
    refine (pairs_lift _).bind ?_
    rintro entry _ rfl
    refine (load_pairs entry alike evolves).bind ?_
    rintro ⟨base, m₁⟩ ⟨_, m₁'⟩ ⟨rfl, halike, hevolves⟩
    cases base with
    | error f => exact .ok ⟨rfl, rfl, halike, hevolves⟩
    | ok base =>
      refine (pairs_lift _).bind ?_
      rintro entry _ rfl
      refine (load_pairs entry halike hevolves).bind ?_
      rintro ⟨len, m₂⟩ ⟨_, m₂'⟩ ⟨rfl, halike, hevolves⟩
      cases len with
      | error f => exact .ok ⟨rfl, rfl, halike, hevolves⟩
      | ok len =>
        refine (write_pairs k fd base len halike hevolves).bind ?_
        rintro ⟨written, k', m₃⟩ ⟨_, _, m₃'⟩ ⟨rfl, rfl, halike, hevolves⟩
        dsimp only
        split
        · exact .ok ⟨rfl, rfl, halike, hevolves⟩
        · exact ih (i + 1) (total + written) k' halike hevolves

theorem moveBrk_pairs (k : Kernel) (addr : Word) (alike : Memory.Alike allows m m')
    (evolves : before.Evolves allows m) :
  Pairs (fun _ => True) (Answers allows before) (k.moveBrk addr m) (k.moveBrk addr m')
  := by
  unfold moveBrk
  split
  · refine (pairs_lift _).bind ?_
    rintro stop _ rfl
    exact .ok ⟨rfl, rfl, alike, evolves⟩
  · exact .ok ⟨rfl, rfl, alike, evolves⟩

/-- The kernel is a regular handler. -/
theorem isRegular_handle :
  IsRegular allows handle
  := by
  intro call k m m' alike plain
  have evolves := plain.evolves
  have hret {x y : Service} (h : Pairs (fun _ => True) (Answers allows m) x y) :
      Pairs (fun _ => True) (Answers allows m)
        (x >>= fun r => .ok (CallOutcome.ret (BitVec.ofInt 64 r.1), r.2.1, r.2.2))
        (y >>= fun r => .ok (CallOutcome.ret (BitVec.ofInt 64 r.1), r.2.1, r.2.2)) := by
    refine h.bind ?_
    rintro ⟨result, k', n⟩ ⟨_, _, n'⟩ ⟨rfl, rfl, halike, hevolves⟩
    exact .ok ⟨rfl, rfl, halike, hevolves⟩
  have hdone (result : Int) : Pairs (fun _ => True) (Answers allows m)
      (.ok (result, k, m) : Service) (.ok (result, k, m')) := .ok ⟨rfl, rfl, alike, evolves⟩
  unfold handle
  dsimp only
  split
  · exact hret (write_pairs k _ _ _ alike evolves)
  · refine hret ?_
    unfold writev
    split
    · exact hdone _
    · exact writeBuffers_pairs _ _ _ _ _ k alike evolves
  · exact .ok ⟨rfl, rfl, alike, evolves⟩
  · exact .ok ⟨rfl, rfl, alike, evolves⟩
  · exact hret (moveBrk_pairs k _ alike evolves)
  all_goals exact hret (hdone _)

end Userland.Kernel

end CrossHart
