import CrossHart.Proofs.Host.Straight

/-!
# Calls of services

A call gives the reply of a service in `rax` and `rdx`, keeps the registers of slots, and leaves
the guest as the service did.  Code that checks a reply goes on if the service did not fail.
-/

namespace CrossHart.Host

open Processor

variable {env : Environment} {p q : Processor} {g g' : Guest} {a : Assignment}

namespace Compile

/-- The code of a call. -/
def callCode (addr : Word) : List Instr :=
  [.mov true .rdi stateReg, .movImm true .rax addr, .callReg .rax]

/-- The code of a call whose `n`-th way out is taken if the service fails. -/
def checkedItems (addr : Word) (n : Nat) : List Item :=
  (callCode addr).map .instr ++ [.instr (.test true .rdx .rdx), .branch .jne (.fault n)]

theorem on_call (addr : Word) (d : Draft) :
  (call addr).on d = (.ok (), d.push ((callCode addr).map .instr))
  := rfl

end Compile

open Compile

namespace Processor

/-- What a called service leaves. -/
structure Returns (p : Processor) (reply : Hart.Reply) (g : Guest) (q : Processor) : Prop where
  guest : q.guest = g
  value : q.reg .rax = reply.value
  failed : q.reg .rdx = Word.ofBool reply.failed
  base : q.reg stateReg = p.reg stateReg
  slots : ∀ s, q.reg (slotReg s) = p.reg (slotReg s)

theorem reg_setRegs {r : Reg} (f : Reg → Word) {rs : List Reg} (h : r ∉ rs) (p : Processor) :
  (rs.foldl (fun p r => p.setReg r (f r)) p).reg r = p.reg r
  := by
  induction rs generalizing p with
  | nil => rfl
  | cons x rs ih =>
    rw [List.mem_cons, not_or] at h
    rw [List.foldl_cons, ih h.2, p.reg_setReg_of_ne (Ne.symm h.1)]

theorem guest_setRegs (f : Reg → Word) (rs : List Reg) (p : Processor) :
  (rs.foldl (fun p r => p.setReg r (f r)) p).guest = p.guest
  := by
  induction rs generalizing p with
  | nil => rfl
  | cons x rs ih => rw [List.foldl_cons, ih, guest_setReg]

/-- The processor after a service replied and left a guest. -/
def replied (env : Environment) (p : Processor) (reply : Hart.Reply) (g : Guest) : Processor :=
  (((volatile.foldl (fun p r => p.setReg r (env.leftover r)) (p.withGuest g)).setReg .rax
    reply.value).setReg .rdx (Word.ofBool reply.failed)).withFlags none

theorem returns_replied (env : Environment) (p : Processor) (reply : Hart.Reply) (g : Guest) :
  p.Returns reply g (p.replied env reply g)
  := by
  have hkept (r : Reg) (h : r ∉ volatile ∧ r ≠ .rax ∧ r ≠ .rdx) :
      (p.replied env reply g).reg r = p.reg r := by
    rw [replied, reg_withFlags, reg_setReg_of_ne _ h.2.2.symm, reg_setReg_of_ne _ h.2.1.symm,
      reg_setRegs _ h.1, reg_withGuest]
  constructor
  · rw [replied, guest_withFlags, guest_setReg, guest_setReg, guest_setRegs, guest_withGuest]
  · rw [replied, reg_withFlags, reg_setReg_of_ne _ (by decide), reg_setReg_self]
  · rw [replied, reg_withFlags, reg_setReg_self]
  · exact hkept stateReg (by decide)
  · intro s
    apply hkept
    revert s
    decide

/-- A call crashes as the service does, or gives its reply. -/
theorem call_eq (env : Environment) (p : Processor) (addr : Word) (state : p.reg .rdi = env.state) :
  p.call env addr = (service env addr (p.reg .rsi) (p.reg .rdx) (p.reg .rcx) p.guest).map fun r =>
    p.replied env r.1 r.2
  := by
  rw [call, serve_eq, if_neg (not_not_intro state)]
  cases service env addr (p.reg .rsi) (p.reg .rdx) (p.reg .rcx) p.guest <;> rfl

end Processor

/-- The processor at a call, with its argument and the address of the service set. -/
def Processor.calling (env : Environment) (p : Processor) (addr : Word) (f : Option Flags) :
    Processor :=
  ((p.setReg .rdi env.state).setReg .rax addr).withFlags f

theorem Processor.reg_calling {addr : Word} {f : Option Flags} {r : Reg}
    (h : r ≠ .rdi ∧ r ≠ .rax) :
  (p.calling env addr f).reg r = p.reg r
  := by
  rw [calling, reg_withFlags, reg_setReg_of_ne _ h.2.symm, reg_setReg_of_ne _ h.1.symm]

theorem exec_callCode (addr : Word) (base : p.reg stateReg = env.state) :
  ∃ f, Item.exec env ((callCode addr).map .instr) p =
    ((p.calling env addr f).call env addr).map .next
  := by
  obtain ⟨f, hmov⟩ := execute_movImm env (p.setReg .rdi env.state) true .rax addr
  rw [if_pos rfl] at hmov
  have hfirst : execute env (Instr.mov true .rdi stateReg).normal p =
      .ok (p.setReg .rdi env.state) := by
    rw [← base]
    rfl
  have hlast : execute env (Instr.callReg .rax).normal (p.calling env addr f) =
      (p.calling env addr f).call env addr := by
    have hrax : (p.calling env addr f).reg .rax = addr := by
      rw [calling, reg_withFlags, reg_setReg_self]
    exact congrArg (Processor.call env (p.calling env addr f)) hrax
  use f
  rw [callCode, List.map_cons, Item.exec, hfirst, Except.ok_bind, List.map_cons, Item.exec, hmov,
    Except.ok_bind, List.map_cons, Item.exec, ← calling, hlast]
  cases (p.calling env addr f).call env addr <;> rfl

/-- A call crashes as the service does, or gives its reply. -/
theorem exec_call (addr : Word) (base : p.reg stateReg = env.state) :
  match service env addr (p.reg .rsi) (p.reg .rdx) (p.reg .rcx) p.guest with
  | .error c => Item.exec env ((callCode addr).map .instr) p = .error c
  | .ok (reply, g) => ∃ q, Runs env (callCode addr) p q ∧ p.Returns reply g q
  := by
  obtain ⟨f, hexec⟩ := exec_callCode addr base
  have hstate : (p.calling env addr f).reg .rdi = env.state := by
    rw [calling, reg_withFlags, reg_setReg_of_ne _ (by decide), reg_setReg_self]
  have hguest : (p.calling env addr f).guest = p.guest := rfl
  rw [call_eq env _ addr hstate, reg_calling (by decide), reg_calling (by decide),
    reg_calling (by decide), hguest] at hexec
  simp only [Runs, hexec]
  cases service env addr (p.reg .rsi) (p.reg .rdx) (p.reg .rcx) p.guest with
  | error c => rfl
  | ok r =>
    have hret := returns_replied env (p.calling env addr f) r.1 r.2
    refine ⟨_, rfl, hret.guest, hret.value, hret.failed, ?_, ?_⟩
    · rw [hret.base, reg_calling (by decide)]
    · intro s
      rw [hret.slots, reg_calling (by revert s; decide)]

/-- Code that checks a reply goes on unless the service failed. -/
theorem exec_checked (addr : Word) (n : Nat) (base : p.reg stateReg = env.state) :
  match service env addr (p.reg .rsi) (p.reg .rdx) (p.reg .rcx) p.guest with
  | .error c => Item.exec env (checkedItems addr n) p = .error c
  | .ok (reply, g) => ∃ q, p.Returns reply g q ∧
      Item.exec env (checkedItems addr n) p =
        .ok (if reply.failed then .jump (.fault n) q else .next q)
  := by
  have hcall := exec_call addr base
  rw [checkedItems, Item.exec_append]
  revert hcall
  cases service env addr (p.reg .rsi) (p.reg .rdx) (p.reg .rcx) p.guest with
  | error c =>
    intro hcall
    dsimp only at hcall ⊢
    rw [hcall]
  | ok r =>
    rintro ⟨q, hrun, hret⟩
    have hfailed : (q.reg .rdx &&& q.reg .rdx == 0) = !r.1.failed := by
      rw [BitVec.and_self, hret.failed]
      cases r.1.failed <;> rfl
    refine ⟨q.withFlags (some (.ofBits (q.reg .rdx &&& q.reg .rdx))), ?_, ?_⟩
    · exact ⟨hret.guest, hret.value, hret.failed, hret.base, hret.slots⟩
    · rw [hrun]
      have hholds : Cond.jne.holds (.ofBits (q.reg .rdx &&& q.reg .rdx)) = r.1.failed := by
        rw [Cond.holds, Flags.ofBits, Flags.ofResult]
        dsimp only
        rw [hfailed, Bool.not_not]
      show (if Cond.jne.holds (.ofBits (q.reg .rdx &&& q.reg .rdx)) = true then
        (.ok (.jump (.fault n) (q.withFlags _)) : Except Crash Flow) else .ok (.next (q.withFlags _))) = _
      rw [hholds]
      cases r.1.failed <;> rfl

/-! ### What is represented after a call -/

namespace Assignment

/-- A service that does not change the guest does not change what is represented. -/
theorem Represents.returned {reply : Hart.Reply} (h : a.Represents env p g)
    (ret : p.Returns reply p.guest q) :
  a.Represents env q g
  := by
  refine ⟨ret.base.trans h.base, ?_, ?_, ?_⟩
  · rw [ret.guest, h.rest]
  · intro s i hs
    rw [ret.slots, h.held s i hs]
  · intro i hi
    rw [ret.guest, h.filed i hi]

/-- A service that works on the guest that is represented may change all of it but the registers. -/
theorem Represents.served {reply : Hart.Reply} (h : a.Represents env p g)
    (ret : p.Returns reply g' q) (file : g'.file = g.file) :
  a.Represents env q g'
  := by
  refine ⟨ret.base.trans h.base, ?_, ?_, ?_⟩
  · rw [ret.guest, Guest.withFile_file]
  · intro s i hs
    rw [ret.slots, h.held s i hs, file]
  · intro i _
    rw [ret.guest]

end Assignment

/-! ### Services -/

section

variable (distinct : env.services.Distinct) (x y z : Word) (g : Guest)

include distinct

theorem service_store :
  service env env.services.store x y z g = Hart.Service.store x y z g
  := by
  simp only [Services.Distinct, List.nodup_cons, List.mem_cons, not_or] at distinct
  rw [service, if_neg (Ne.symm distinct.1.1), if_pos rfl]

theorem service_arith :
  service env env.services.arith x y z g = Hart.Service.arith x y z g
  := by
  simp only [Services.Distinct, List.nodup_cons, List.mem_cons, not_or] at distinct
  rw [service, if_neg (Ne.symm distinct.1.2.1), if_neg (Ne.symm distinct.2.1.1), if_pos rfl]

theorem service_interpret :
  service env env.services.interpret x y z g = Hart.Service.interpret x y z g
  := by
  simp only [Services.Distinct, List.nodup_cons, List.mem_cons, not_or] at distinct
  rw [service, if_neg (Ne.symm distinct.1.2.2.1), if_neg (Ne.symm distinct.2.1.2.1),
    if_neg (Ne.symm distinct.2.2.1.1), if_pos rfl]

end

theorem service_load (env : Environment) (x y z : Word) (g : Guest) :
  service env env.services.load x y z g = Hart.Service.load x y g
  := if_pos rfl

end CrossHart.Host
