import Xv6Swap.Trap.Machine

/-!
# The address of a page fault

`usertrap` reads `stval` and `scause` for `vmfault` after `intr_on`. An interrupt in between
overwrites both, and `kerneltrap` restores neither; if the handler yields, the registers are those
of whatever trap the hart took last when the process is scheduled again (`stolen_fault`).

As long as no trap is taken between `intr_on` and the two reads, `vmfault` is called with the
address and the kind of access of the process's own fault, on any number of harts and whatever
interrupts and context switches there are elsewhere (`faults_own`). The fault of a process is
recorded by a history variable, from the registers its trap sets.
-/

namespace Xv6Swap.Trap

open Interleave
open Paging (ProcIdx)

/-! ## The history -/

/-- The cause and the address of the last trap each process took in user mode. -/
abbrev Faults := ProcIdx → Option (UInt64 × UInt64)

def recordFault {ι : Type*} (_ : ι) (before after : Hart × Machine) (own : Faults) : Faults :=
  match before.1.code, after.1.code with
  | .user p, .usertrap _ =>
    Function.update own p (some (after.1.regs.scause, after.1.regs.stval))
  | _, _ => own

section System

variable {ι : Type*} [DecidableEq ι]

/-- The harts, with the faults of the processes. -/
def faultSystem (boot : ι) : System ι Action Hart (Machine × Faults) :=
  (trapSystem boot).withGhost recordFault

def faultStart (regs : ι → Regs) (stimecmp : ι → ℕ) (time : ℕ) (procs : ProcTable) :
    Cfg ι Hart (Machine × Faults) :=
  ⟨fun i => ⟨regs i, stimecmp i, .scheduler⟩, ⟨time, 0, 0, procs, fun _ => .forkret⟩, fun _ => none⟩

end System

/-! ## The invariant -/

/-- The arguments of `vmfault` are those of the fault of `p`. -/
def CallOk (own : Faults) (p : ProcIdx) (va : UInt64) (read : Bool) : Prop :=
  ∃ scause, own p = some (scause, va) ∧ (scause = 13 ∨ scause = 15) ∧ read = (scause == 13)

/-- Kernel code that has been interrupted or is asleep: the registers have been read. -/
def KernelOk (own : Faults) (p : ProcIdx) : KernelCode → Prop
  | .readStval => False
  | .readScause _ => False
  | .vmfault va read => CallOk own p va read
  | .syscall => True
  | .kexit => True

def Return.Ok (own : Faults) : Return → Prop
  | .kernel p k _ _ => KernelOk own p k
  | _ => True

def Saved.Ok (own : Faults) (p : ProcIdx) : Saved → Prop
  | .forkret => True
  | .kernel k => KernelOk own p k
  | .clock ret => ret.Ok own ∧ ret.myproc = some p

/-- The registers of a hart that are still to be read are those of the fault. -/
def Hart.Ok (own : Faults) (h : Hart) : Prop :=
  match h.code with
  | .usertrap p => own p = some (h.regs.scause, h.regs.stval)
  | .kernel p .readStval =>
    own p = some (h.regs.scause, h.regs.stval) ∧ (h.regs.scause = 13 ∨ h.regs.scause = 15)
  | .kernel p (.readScause va) =>
    own p = some (h.regs.scause, va) ∧ (h.regs.scause = 13 ∨ h.regs.scause = 15)
  | .kernel p (.vmfault va read) => CallOk own p va read
  | .devintr ret => ret.Ok own
  | .deviceintr ret => ret.Ok own
  | .clockintr _ ret => ret.Ok own
  | _ => True

theorem KernelOk.congr {own own' : Faults} {p : ProcIdx} {k : KernelCode} (h : KernelOk own p k)
    (heq : own' p = own p) : KernelOk own' p k := by
  cases k with
  | vmfault va read =>
    obtain ⟨scause, hown, hrest⟩ := h
    exact ⟨scause, heq.trans hown, hrest⟩
  | readStval => exact h
  | readScause va => exact h
  | syscall => trivial
  | kexit => trivial

theorem Return.Ok.congr {own own' : Faults} {ret : Return} (h : ret.Ok own)
    (heq : ∀ p, ret.myproc = some p → own' p = own p) : ret.Ok own' := by
  cases ret with
  | user p => trivial
  | kernel p k sepc sstatus => exact KernelOk.congr h (heq p rfl)
  | scheduler sepc sstatus => trivial

theorem Saved.Ok.congr {own own' : Faults} {p : ProcIdx} {s : Saved} (h : s.Ok own p)
    (heq : own' p = own p) : s.Ok own' p := by
  cases s with
  | forkret => trivial
  | kernel k => exact KernelOk.congr h heq
  | clock ret =>
    refine ⟨h.1.congr fun q hq => ?_, h.2⟩
    obtain rfl : p = q := Option.some.inj (h.2.symm.trans hq)
    exact heq

/-- What is said about a hart depends on the fault of its process only. -/
theorem Hart.Ok.congr {own own' : Faults} {h : Hart} (hok : h.Ok own)
    (heq : ∀ p, h.code.proc = some p → own' p = own p) : h.Ok own' := by
  unfold Hart.Ok at hok ⊢
  cases hcode : h.code with
  | usertrap p =>
    simp only [hcode] at hok ⊢
    exact (heq p (by rw [hcode]; rfl)).trans hok
  | kernel p k =>
    have hp := heq p (by rw [hcode]; rfl)
    cases k with
    | vmfault va read =>
      simp only [hcode] at hok ⊢
      exact KernelOk.congr (k := .vmfault va read) hok hp
    | readStval =>
      simp only [hcode] at hok ⊢
      exact ⟨hp.trans hok.1, hok.2⟩
    | readScause va =>
      simp only [hcode] at hok ⊢
      exact ⟨hp.trans hok.1, hok.2⟩
    | syscall => trivial
    | kexit => trivial
  | devintr ret | deviceintr ret | clockintr pc ret =>
    simp only [hcode] at hok ⊢
    exact hok.congr fun q hq => heq q (by rw [hcode]; exact hq)
  | user p => trivial
  | scheduler => trivial
  | schedulerOn => trivial
  | scan level p => trivial
  | wfi => trivial
  | panicked => trivial

/-! ## Steps -/

/-- No process starts or stops running. -/
def SameRunning (m m' : Machine) : Prop :=
  ∀ q, (m'.procs q).state = .running ↔ (m.procs q).state = .running

theorem SameRunning.refl (m : Machine) : SameRunning m m := fun _ => Iff.rfl

/-- Changing fields of a process other than its state. -/
theorem SameRunning.modify {m m' : Machine} (h : SameRunning m m') (p : ProcIdx) {f : Proc → Proc}
    (hf : (f (m'.procs p)).state = .running ↔ (m'.procs p).state = .running) :
    SameRunning m (m'.modify p f) := by
  intro q
  rw [← h q]
  by_cases hq : q = p
  · subst hq
    simpa only [Machine.modify, ProcTable.modify, Function.update_self] using hf
  · simp only [Machine.modify, ProcTable.modify, Function.update_of_ne hq]

theorem running_wakeup (t : ProcTable) (self : Option ProcIdx) (chan : Chan) (q : ProcIdx) :
    (t.wakeup self chan q).state = .running ↔ (t q).state = .running := by
  unfold ProcTable.wakeup
  split
  · rename_i h
    simp [h.2.1]
  · rfl

/-- A step of a hart: the process stays on the hart, or leaves it, or a new one is dispatched. -/
inductive FaultStep (own own' : Faults) (h h' : Hart) (m m' : Machine) : Prop
  | stay (hproc : h'.code.proc = h.code.proc ∨ h'.code.proc = none)
      (hown : ∀ q, h.code.proc ≠ some q → own' q = own q) (hhart : h.Ok own → h'.Ok own')
      (hstate : SameRunning m m') (hsaved : ∀ q, m'.saved q = m.saved q ∨ m'.saved q = .forkret)
  | out (p : ProcIdx) (s : Saved) (hproc : h.code.proc = some p) (hproc' : h'.code.proc = none)
      (hown : own' = own) (hstop : (m'.procs p).state ≠ .running)
      (hstate : ∀ q ≠ p, (m'.procs q).state = .running ↔ (m.procs q).state = .running)
      (hs : h.Ok own → s.Ok own p) (hhart : h'.Ok own)
      (hsaved : m'.saved = Function.update m.saved p s)
  | dispatch (p : ProcIdx) (hown : own' = own) (hrunnable : (m.procs p).state = .runnable)
      (hrunning : (m'.procs p).state = .running)
      (hstate : ∀ q ≠ p, (m'.procs q).state = .running ↔ (m.procs q).state = .running)
      (hhart : (m.saved p).Ok own p → h'.code.proc = some p ∧ h'.Ok own)
      (hsaved : m'.saved = m.saved)

/-- A step without a fault, on which the process stays. -/
theorem FaultStep.of_stay {own : Faults} {h h' : Hart} {m m' : Machine}
    (hproc : h'.code.proc = h.code.proc) (hhart : h.Ok own → h'.Ok own)
    (hstate : SameRunning m m') (hsaved : m'.saved = m.saved) :
    FaultStep own own h h' m m' :=
  .stay (.inl hproc) (fun _ _ => rfl) hhart hstate fun q => .inl (congrFun hsaved q)

theorem FaultStep.of_switchOut {own : Faults} {h : Hart} {m : Machine} (p : ProcIdx) {s : Saved}
    {f : Proc → Proc} (hproc : h.code.proc = some p) (hf : (f (m.procs p)).state ≠ .running)
    (hs : h.Ok own → s.Ok own p) :
    FaultStep own own h { h with code := .scheduler } m (m.switchOut p s f) := by
  refine .out p s hproc rfl rfl ?_ (fun q hq => ?_) hs trivial rfl
  · simpa only [Machine.switchOut, ProcTable.modify, Function.update_self] using hf
  · simp only [Machine.switchOut, ProcTable.modify, Function.update_of_ne hq]

theorem usertrapEnd_ok (own : Faults) (p : ProcIdx) (h : Hart) (m : Machine) :
    (usertrapEnd p h m).code.proc = some p ∧ (usertrapEnd p h m).Ok own := by
  unfold usertrapEnd
  split <;> exact ⟨rfl, trivial⟩

theorem hart_ok_of_kernelOk {own : Faults} {h : Hart} {p : ProcIdx} {k : KernelCode}
    (hcode : h.code = .kernel p k) (hk : KernelOk own p k) : h.Ok own := by
  unfold Hart.Ok
  rw [hcode]
  cases k with
  | vmfault va read => exact hk
  | readStval => exact hk.elim
  | readScause va => exact hk.elim
  | syscall => trivial
  | kexit => trivial

/-- Kernel code that has read the registers. -/
theorem kernelOk_of_hart_ok {own : Faults} {h : Hart} {p : ProcIdx} {k : KernelCode}
    (hcode : h.code = .kernel p k) (hok : h.Ok own) (hstval : k ≠ .readStval)
    (hscause : ∀ va, k ≠ .readScause va) : KernelOk own p k := by
  unfold Hart.Ok at hok
  rw [hcode] at hok
  cases k with
  | vmfault va read => exact hok
  | readStval => exact absurd rfl hstval
  | readScause va => exact absurd rfl (hscause va)
  | syscall => trivial
  | kexit => trivial

theorem trapReturn_ok (own : Faults) (ret : Return) (h : Hart) (m : Machine) :
    (trapReturn ret h m).code.proc = ret.myproc ∧
      (ret.Ok own → (trapReturn ret h m).Ok own) := by
  cases ret with
  | user p =>
    obtain ⟨hproc, hok⟩ := usertrapEnd_ok own p h m
    exact ⟨hproc, fun _ => hok⟩
  | kernel p k sepc sstatus => exact ⟨rfl, fun hk => hart_ok_of_kernelOk rfl hk⟩
  | scheduler sepc sstatus => exact ⟨rfl, fun _ => trivial⟩

section Steps

variable {own : Faults} {h : Hart} {m : Machine}

theorem Hart.Ok.ret {ret : Return} (hok : h.Ok own)
    (hcode : h.code = .devintr ret ∨ h.code = .deviceintr ret ∨ ∃ pc, h.code = .clockintr pc ret) :
    ret.Ok own := by
  unfold Hart.Ok at hok
  rcases hcode with hcode | hcode | ⟨pc, hcode⟩ <;> simpa only [hcode] using hok

theorem FaultStep.panicked : FaultStep own own h { h with code := .panicked } m m :=
  .stay (.inr rfl) (fun _ _ => rfl) (fun _ => trivial) (.refl m) fun _ => .inl rfl

theorem faultStep_usertrap {p : ProcIdx} (hcode : h.code = .usertrap p) :
    FaultStep own own h (usertrap p h m).1 m (usertrap p h m).2 := by
  have hproc : h.code.proc = some p := by rw [hcode]; rfl
  have hend : ∀ m' : Machine, SameRunning m m' → m'.saved = m.saved →
      FaultStep own own h (usertrapEnd p h m') m m' := fun m' hstate hsaved =>
    .of_stay ((usertrapEnd_ok own p h m').1.trans hproc.symm)
      (fun _ => (usertrapEnd_ok own p h m').2) hstate hsaved
  have hepc : SameRunning m (m.modify p fun q => { q with epc := h.regs.sepc }) :=
    (SameRunning.refl m).modify p Iff.rfl
  simp only [usertrap]
  split
  · exact .panicked
  split
  · split
    · exact .of_stay hproc.symm (fun _ => trivial) hepc rfl
    · exact .of_stay hproc.symm (fun _ => trivial) (hepc.modify p Iff.rfl) rfl
  split
  · exact .of_stay hproc.symm (fun _ => trivial) hepc rfl
  split
  · exact .of_stay hproc.symm (fun _ => trivial) hepc rfl
  split
  · rename_i hcause
    -- the registers still hold the fault of the process
    refine .of_stay hproc.symm (fun hok => ?_) hepc rfl
    unfold Hart.Ok at hok
    simp only [hcode] at hok
    exact ⟨hok, hcause.symm⟩
  · exact hend _ (hepc.modify p Iff.rfl) rfl

theorem faultStep_devintr {ret : Return} (hcode : h.code = .devintr ret) :
    FaultStep own own h (devintr ret h) m m := by
  have hproc : h.code.proc = ret.myproc := by rw [hcode]; rfl
  unfold devintr
  split
  · exact .panicked
  split
  · exact .of_stay hproc.symm (fun hok => hok.ret (.inl hcode)) (.refl m) rfl
  split
  · exact .of_stay hproc.symm (fun hok => hok.ret (.inl hcode)) (.refl m) rfl
  · exact .panicked

theorem faultStep_clockintr (boot : Bool) {pc : ClockPc} {ret : Return}
    (hcode : h.code = .clockintr pc ret) :
    FaultStep own own h (clockintr boot pc ret h m).1 m (clockintr boot pc ret h m).2 := by
  have hproc : h.code.proc = ret.myproc := by rw [hcode]; rfl
  have hret : h.Ok own → ret.Ok own := fun hok => hok.ret (.inr (.inr ⟨pc, hcode⟩))
  cases pc with
  | tick =>
    refine .of_stay hproc.symm hret ?_ ?_
    · simp only [clockintr]
      split
      · exact running_wakeup m.procs _ _
      · exact .refl m
    · simp only [clockintr]
      split <;> rfl
  | account =>
    simp only [clockintr]
    cases hmyproc : ret.myproc with
    | none => exact .of_stay hproc.symm hret (.refl m) rfl
    | some p =>
      dsimp only
      split
      · split
        · refine .of_switchOut p (hproc.trans hmyproc) (by simp) fun hok => ⟨hret hok, hmyproc⟩
        · exact .of_stay hproc.symm hret ((SameRunning.refl m).modify p Iff.rfl) rfl
      · exact .of_stay hproc.symm hret (.refl m) rfl
  | boost =>
    refine .of_stay hproc.symm hret ?_ ?_
    · simp only [clockintr]
      split
      · intro q
        simp only [ProcTable.boost_state]
      · exact .refl m
    · simp only [clockintr]
      split <;> rfl
  | rearm =>
    obtain ⟨hproc', hok'⟩ := trapReturn_ok own ret { h with stimecmp := m.time + 1000000 } m
    exact .of_stay (hproc'.trans hproc.symm) (fun hok => hok' (hret hok)) (.refl m) rfl

theorem faultStep_scan {level : Fin 4} {p : ProcIdx} (hcode : h.code = .scan level p) :
    FaultStep own own h (scan level p h m).1 m (scan level p h m).2 := by
  have hproc : h.code.proc = none := by rw [hcode]; rfl
  unfold scan
  split
  · rename_i hfound
    have hself : ∀ f : Proc → Proc, ((m.modify p f).procs p) = f (m.procs p) := fun f =>
      Function.update_self p _ _
    have hother : ∀ (f : Proc → Proc), ∀ q ≠ p, (m.modify p f).procs q = m.procs q :=
      fun f q hq => Function.update_of_ne hq _ _
    unfold dispatch
    dsimp only
    split
    · refine .dispatch p rfl hfound.1 ?_ (fun q hq => ?_) (fun _ => ⟨rfl, trivial⟩) rfl
      · rw [hself]
      · rw [hother _ q hq]
    · rename_i k hsaved
      refine .dispatch p rfl hfound.1 ?_ (fun q hq => ?_) (fun hok => ?_) rfl
      · simp [Machine.modify, ProcTable.modify]
      · simp [Machine.modify, ProcTable.modify, hq]
      · have hk : (Saved.kernel k).Ok own p := hsaved ▸ hok
        exact ⟨rfl, hart_ok_of_kernelOk rfl hk⟩
    · rename_i ret hsaved
      refine .dispatch p rfl hfound.1 ?_ (fun q hq => ?_) (fun hok => ?_) rfl
      · rw [hself]
      · rw [hother _ q hq]
      · have hret : (Saved.clock ret).Ok own p := hsaved ▸ hok
        exact ⟨hret.2, hret.1⟩
  · have hnext : (scanNext level p).proc = none ∧
        Hart.Ok own { h with code := scanNext level p } := by
      unfold scanNext
      split
      · exact ⟨rfl, trivial⟩
      · split <;> exact ⟨rfl, trivial⟩
    exact .of_stay (hnext.1.trans hproc.symm) (fun _ => hnext.2) (.refl m) rfl

theorem faultStep_of_runStep {boot : Bool} {h' : Hart} {m' : Machine}
    (hstep : runStep boot h m = some (h', m')) : FaultStep own own h h' m m' := by
  unfold runStep at hstep
  split at hstep
  · rename_i p hcode
    obtain ⟨rfl, rfl⟩ := Prod.mk.inj (Option.some.inj hstep)
    exact faultStep_usertrap hcode
  · rename_i p hcode
    obtain ⟨rfl, rfl⟩ := Prod.mk.inj (Option.some.inj hstep)
    refine .of_stay (by rw [hcode]; rfl) (fun hok => ?_) (.refl m) rfl
    unfold Hart.Ok at hok
    simp only [hcode] at hok
    exact hok
  · rename_i p va hcode
    obtain ⟨rfl, rfl⟩ := Prod.mk.inj (Option.some.inj hstep)
    refine .of_stay (by rw [hcode]; rfl) (fun hok => ?_) (.refl m) rfl
    unfold Hart.Ok at hok
    simp only [hcode] at hok
    exact ⟨h.regs.scause, hok.1, hok.2, rfl⟩
  · rename_i ret hcode
    obtain ⟨rfl, rfl⟩ := Prod.mk.inj (Option.some.inj hstep)
    exact faultStep_devintr hcode
  · rename_i ret hcode
    obtain ⟨rfl, rfl⟩ := Prod.mk.inj (Option.some.inj hstep)
    obtain ⟨hproc, hok'⟩ := trapReturn_ok own ret h m
    exact .of_stay (by rw [hproc, hcode]; rfl) (fun hok => hok' (hok.ret (.inr (.inl hcode))))
      (.refl m) rfl
  · rename_i pc ret hcode
    obtain ⟨rfl, rfl⟩ := Prod.mk.inj (Option.some.inj hstep)
    exact faultStep_clockintr boot hcode
  · rename_i hcode
    obtain ⟨rfl, rfl⟩ := Prod.mk.inj (Option.some.inj hstep)
    exact .of_stay (by rw [hcode]; rfl) (fun _ => trivial) (.refl m) rfl
  · rename_i hcode
    obtain ⟨rfl, rfl⟩ := Prod.mk.inj (Option.some.inj hstep)
    exact .of_stay (by rw [hcode]; rfl) (fun _ => trivial) (.refl m) rfl
  · rename_i level p hcode
    obtain ⟨rfl, rfl⟩ := Prod.mk.inj (Option.some.inj hstep)
    exact faultStep_scan hcode
  · rename_i hcode
    obtain ⟨rfl, rfl⟩ := Prod.mk.inj (Option.some.inj hstep)
    exact .of_stay (by rw [hcode]; rfl) (fun _ => trivial) (.refl m) rfl
  all_goals cases hstep

theorem faultStep_of_finishStep {ret : UInt64} {p : ProcIdx} {k : KernelCode} {h' : Hart}
    {m' : Machine} (hcode : h.code = .kernel p k)
    (hstep : finishStep ret p k h m = some (h', m')) : FaultStep own own h h' m m' := by
  have hproc : h.code.proc = some p := by rw [hcode]; rfl
  have hend : ∀ m' : Machine, SameRunning m m' → m'.saved = m.saved →
      FaultStep own own h (usertrapEnd p h m') m m' := fun m' hstate hsaved =>
    .of_stay ((usertrapEnd_ok own p h m').1.trans hproc.symm)
      (fun _ => (usertrapEnd_ok own p h m').2) hstate hsaved
  unfold finishStep at hstep
  split at hstep
  · obtain ⟨rfl, rfl⟩ := Prod.mk.inj (Option.some.inj hstep)
    exact hend m (.refl m) rfl
  · obtain ⟨rfl, rfl⟩ := Prod.mk.inj (Option.some.inj hstep)
    refine hend _ ?_ ?_
    · split
      · exact (SameRunning.refl m).modify p Iff.rfl
      · exact .refl m
    · split <;> rfl
  · obtain ⟨rfl, rfl⟩ := Prod.mk.inj (Option.some.inj hstep)
    exact .of_switchOut p hproc (by simp) fun _ => trivial
  all_goals cases hstep

theorem faultStep_of_sleepStep {chan : Chan} {p : ProcIdx} {k : KernelCode} {h' : Hart}
    {m' : Machine} (hcode : h.code = .kernel p k)
    (hstep : sleepStep chan p k h m = some (h', m')) : FaultStep own own h h' m m' := by
  unfold sleepStep at hstep
  split at hstep
  · cases hstep
  · cases hstep
  · rename_i hstval hscause
    obtain ⟨rfl, rfl⟩ := Prod.mk.inj (Option.some.inj hstep)
    refine .of_switchOut p (by rw [hcode]; rfl) (by simp) fun hok => ?_
    exact kernelOk_of_hart_ok hcode hok (fun h => hstval h) fun va h => hscause va h

theorem faultStep_of_otherStep {a : Action} {p : ProcIdx} {m' : Machine}
    (hstep : otherStep a p m = some m') : FaultStep own own h h m m' := by
  have hmodify : ∀ (q : ProcIdx) (f : Proc → Proc),
      ((f (m.procs q)).state = .running ↔ (m.procs q).state = .running) →
      FaultStep own own h h m (m.modify q f) := fun q f hf =>
    .of_stay rfl id ((SameRunning.refl m).modify q hf) rfl
  unfold otherStep at hstep
  split at hstep
  · obtain rfl := Option.some.inj hstep
    exact .of_stay rfl id (running_wakeup m.procs _ _) rfl
  · rename_i q
    split at hstep
    · rename_i hunused
      obtain rfl := Option.some.inj hstep
      refine .stay (.inl rfl) (fun _ _ => rfl) id ?_ fun q' => ?_
      · exact (SameRunning.refl m).modify (f := Proc.alloc) q (by simp [hunused, Proc.alloc])
      · by_cases hq : q' = q
        · exact .inr (by simp [Machine.switchOut, hq])
        · exact .inl (by simp [Machine.switchOut, hq])
    · cases hstep
  · rename_i q
    split at hstep
    · rename_i hused
      obtain rfl := Option.some.inj hstep
      exact hmodify q _ (by simp [hused])
    · cases hstep
  · rename_i q
    split at hstep
    · rename_i hgone
      obtain rfl := Option.some.inj hstep
      refine hmodify q _ ?_
      rcases hgone with hgone | hgone <;> simp [hgone]
    · cases hstep
  · rename_i q
    obtain rfl := Option.some.inj hstep
    refine hmodify q _ ?_
    dsimp only
    split
    · rename_i hsleeping
      simp [hsleeping]
    · rfl
  · cases hstep

/-- A trap, but not between `intr_on` and the reads of the registers. -/
theorem faultStep_of_trapStep {ι : Type*} (i : ι) {r : Regs} {h' : Hart} {m' : Machine}
    (hread : ∀ p, h.code ≠ .kernel p .readStval ∧ ∀ va, h.code ≠ .kernel p (.readScause va))
    (hstep : trapStep r h m = some (h', m')) :
    FaultStep own (recordFault i (h, m) (h', m') own) h h' m m' := by
  unfold trapStep at hstep
  dsimp only at hstep
  split at hstep
  · rename_i p hcode
    split at hstep
    · obtain ⟨rfl, rfl⟩ := Prod.mk.inj (Option.some.inj hstep)
      have hrecord : recordFault i (h, m) ({ h with regs := r, code := .usertrap p }, m) own =
          Function.update own p (some (r.scause, r.stval)) := by
        simp only [recordFault, hcode]
      have hproc : h.code.proc = some p := by rw [hcode]; rfl
      rw [hrecord]
      refine .stay (.inl hproc.symm) (fun q hq => ?_) (fun _ => ?_) (.refl m) fun _ => .inl rfl
      · have hne : q ≠ p := by
          rintro rfl
          exact hq hproc
        exact Function.update_of_ne hne _ _
      · exact Function.update_self p _ own
    · cases hstep
  · rename_i p k hcode
    split at hstep
    · obtain ⟨rfl, rfl⟩ := Prod.mk.inj (Option.some.inj hstep)
      have hproc : h.code.proc = some p := by rw [hcode]; rfl
      have hrecord : ∀ code, recordFault i (h, m) ({ h with regs := r, code := code }, m) own =
          own := by
        intro code
        simp only [recordFault, hcode]
      rw [hrecord]
      refine .of_stay hproc.symm (fun hok => ?_) (.refl m) rfl
      obtain ⟨hstval, hscause⟩ := hread p
      exact kernelOk_of_hart_ok hcode hok (fun e => hstval (e ▸ hcode)) fun va e =>
        hscause va (e ▸ hcode)
    · cases hstep
  · rename_i hcode
    split at hstep
    · obtain ⟨rfl, rfl⟩ := Prod.mk.inj (Option.some.inj hstep)
      have hrecord : ∀ code, recordFault i (h, m) ({ h with regs := r, code := code }, m) own =
          own := by
        intro code
        simp only [recordFault, hcode]
      rw [hrecord]
      exact .of_stay (by rw [hcode]; rfl) (fun _ => trivial) (.refl m) rfl
    · cases hstep
  · cases hstep

theorem recordFault_keep {ι : Type*} (i : ι) {h' : Hart} {m' : Machine}
    (hcode : ∀ p q, h.code = .user p → h'.code ≠ .usertrap q) :
    recordFault i (h, m) (h', m') own = own := by
  unfold recordFault
  split
  · rename_i p q hbefore hafter
    exact absurd hafter (hcode p q hbefore)
  · rfl

theorem faultStep_of_next {ι : Type*} [DecidableEq ι] {boot i : ι} {a : Action} {h' : Hart}
    {m' : Machine} (hread : ∀ r p, a = .trap r →
      h.code ≠ .kernel p .readStval ∧ ∀ va, h.code ≠ .kernel p (.readScause va))
    (hstep : (trapSystem boot).next i a h m = some (h', m')) :
    FaultStep own (recordFault i (h, m) (h', m') own) h h' m m' := by
  cases nextStep_of_next hstep with
  | trap ha hs => exact faultStep_of_trapStep i (fun p => hread _ p ha) hs
  | @pass n ha =>
    rw [recordFault_keep i fun p q hbefore hafter => by rw [hbefore] at hafter; cases hafter]
    exact .of_stay rfl id (fun _ => Iff.rfl) rfl
  | run ha hs =>
    rw [recordFault_keep i fun p q hbefore => by simp [runStep, hbefore] at hs]
    exact faultStep_of_runStep hs
  | finish hcode hs =>
    rw [recordFault_keep i fun p q hbefore => by rw [hcode] at hbefore; cases hbefore]
    exact faultStep_of_finishStep hcode hs
  | sleep hcode hs =>
    rw [recordFault_keep i fun p q hbefore => by rw [hcode] at hbefore; cases hbefore]
    exact faultStep_of_sleepStep hcode hs
  | other hcode hs =>
    rw [recordFault_keep i fun p q hbefore => by rw [hcode] at hbefore; cases hbefore]
    exact faultStep_of_otherStep hs
  | device hcode =>
    rw [recordFault_keep i fun p q hbefore => by rw [hcode] at hbefore; cases hbefore]
    exact .of_stay rfl id (running_wakeup m.procs _ _) rfl

end Steps

/-! ## Runs -/

section Runs

variable {ι : Type*} [DecidableEq ι]

/-- No trap is taken between `intr_on` and the two reads of the trap registers. -/
def RegistersKept (c : Cfg ι Hart (Machine × Faults)) (i : ι) (a : Action) : Prop :=
  ∀ r p, a = .trap r → (c.loc i).code ≠ .kernel p .readStval ∧
    ∀ va, (c.loc i).code ≠ .kernel p (.readScause va)

structure FaultInv (c : Cfg ι Hart (Machine × Faults)) : Prop where
  running : ∀ i p, (c.loc i).code.proc = some p → (c.mem.1.procs p).state = .running
  unique : ∀ i j p, (c.loc i).code.proc = some p → (c.loc j).code.proc = some p → i = j
  hart : ∀ i, (c.loc i).Ok c.mem.2
  saved : ∀ p, (c.mem.1.procs p).state ≠ .running → (c.mem.1.saved p).Ok c.mem.2 p

omit [DecidableEq ι] in
theorem faultInv_start (regs : ι → Regs) (stimecmp : ι → ℕ) (time : ℕ) (procs : ProcTable) :
    FaultInv (faultStart regs stimecmp time procs) where
  running i p h := by cases h
  unique i j p h := by cases h
  hart i := trivial
  saved p _ := trivial

theorem FaultInv.step {c : Cfg ι Hart (Machine × Faults)} (hinv : FaultInv c) {i : ι} {h' : Hart}
    {m' : Machine} {own' : Faults}
    (hstep : FaultStep c.mem.2 own' (c.loc i) h' c.mem.1 m') :
    FaultInv ⟨Function.update c.loc i h', m', own'⟩ := by
  cases hstep with
  | stay hproc hown hhart hstate hsaved =>
    -- the hart executes for its process or for none
    have hold : ∀ j p, (Function.update c.loc i h' j).code.proc = some p →
        (c.loc j).code.proc = some p := by
      intro j p hj
      by_cases hji : j = i
      · subst hji
        rw [Function.update_self] at hj
        rcases hproc with heq | hnone
        · rw [← heq]
          exact hj
        · rw [hnone] at hj
          cases hj
      · rwa [Function.update_of_ne hji] at hj
    refine ⟨fun j p hj => (hstate p).2 (hinv.running j p (hold j p hj)),
      fun j k p hj hk => hinv.unique j k p (hold j p hj) (hold k p hk), fun j => ?_, fun p hp => ?_⟩
    · by_cases hji : j = i
      · subst hji
        simp only [Function.update_self]
        exact hhart (hinv.hart j)
      · simp only [Function.update_of_ne hji]
        refine (hinv.hart j).congr fun p hp => hown p fun hp' => hji ?_
        exact hinv.unique j i p hp hp'
    · have hp' : (c.mem.1.procs p).state ≠ .running := fun h => hp ((hstate p).2 h)
      rcases hsaved p with heq | heq
      · rw [heq]
        refine (hinv.saved p hp').congr (hown p fun h => hp' (hinv.running i p h))
      · rw [heq]
        trivial
  | out p s hproc hproc' hown hstop hstate hs hhart hsaved =>
    subst hown
    have hold : ∀ j q, (Function.update c.loc i h' j).code.proc = some q →
        j ≠ i ∧ (c.loc j).code.proc = some q := by
      intro j q hj
      by_cases hji : j = i
      · subst hji
        rw [Function.update_self, hproc'] at hj
        cases hj
      · rw [Function.update_of_ne hji] at hj
        exact ⟨hji, hj⟩
    refine ⟨fun j q hj => ?_, fun j k q hj hk => hinv.unique j k q (hold j q hj).2 (hold k q hk).2,
      fun j => ?_, fun q hq => ?_⟩
    · obtain ⟨hji, hj⟩ := hold j q hj
      refine (hstate q ?_).2 (hinv.running j q hj)
      rintro rfl
      exact hji (hinv.unique j i q hj hproc)
    · by_cases hji : j = i
      · subst hji
        simp only [Function.update_self]
        exact hhart
      · simp only [Function.update_of_ne hji]
        exact hinv.hart j
    · dsimp only
      rw [hsaved]
      by_cases hqp : q = p
      · subst hqp
        rw [Function.update_self]
        exact hs (hinv.hart i)
      · rw [Function.update_of_ne hqp]
        exact hinv.saved q fun h => hq ((hstate q hqp).2 h)
  | dispatch p hown hrunnable hrunning hstate hhart hsaved =>
    subst hown
    obtain ⟨hproc', hok⟩ := hhart (hinv.saved p (by rw [hrunnable]; simp))
    -- nobody executes for a process that is not running
    have hnobody : ∀ j, (c.loc j).code.proc ≠ some p := by
      intro j hj
      have := hinv.running j p hj
      rw [hrunnable] at this
      cases this
    have hold : ∀ j q, (Function.update c.loc i h' j).code.proc = some q →
        j = i ∧ q = p ∨ q ≠ p ∧ (c.loc j).code.proc = some q ∧ j ≠ i := by
      intro j q hj
      by_cases hji : j = i
      · subst hji
        rw [Function.update_self, hproc'] at hj
        exact .inl ⟨rfl, (Option.some.inj hj).symm⟩
      · rw [Function.update_of_ne hji] at hj
        refine .inr ⟨?_, hj, hji⟩
        rintro rfl
        exact hnobody j hj
    refine ⟨fun j q hj => ?_, fun j k q hj hk => ?_, fun j => ?_, fun q hq => ?_⟩
    · rcases hold j q hj with ⟨-, rfl⟩ | ⟨hqp, hj, -⟩
      · exact hrunning
      · exact (hstate q hqp).2 (hinv.running j q hj)
    · rcases hold j q hj with ⟨rfl, rfl⟩ | ⟨hqp, hj, -⟩
      · rcases hold k q hk with ⟨rfl, -⟩ | ⟨hqp, -⟩
        · rfl
        · exact absurd rfl hqp
      · rcases hold k q hk with ⟨-, rfl⟩ | ⟨-, hk, -⟩
        · exact absurd rfl hqp
        · exact hinv.unique j k q hj hk
    · by_cases hji : j = i
      · subst hji
        simp only [Function.update_self]
        exact hok
      · simp only [Function.update_of_ne hji]
        exact hinv.hart j
    · dsimp only at hq ⊢
      rw [hsaved]
      by_cases hqp : q = p
      · subst hqp
        exact absurd hrunning hq
      · exact hinv.saved q fun h => hq ((hstate q hqp).2 h)

/-- **`vmfault` is called for the fault of the process**, on any number of harts, in every run in
which no trap is taken between `intr_on` and the reads of the registers. -/
theorem faults_own (boot : ι) (regs : ι → Regs) (stimecmp : ι → ℕ) (time : ℕ) (procs : ProcTable)
    (c : Cfg ι Hart (Machine × Faults))
    (hrun : (faultSystem boot).Reaches RegistersKept (faultStart regs stimecmp time procs) c)
    (i : ι) (p : ProcIdx) (va : UInt64) (read : Bool)
    (hcode : (c.loc i).code = .kernel p (.vmfault va read)) :
    ∃ scause, c.mem.2 p = some (scause, va) ∧ (scause = 13 ∨ scause = 15) ∧
      read = (scause == 13) := by
  have hinv : FaultInv c := by
    refine hrun.inv (fun c i a l g hok hinv hn => ?_) (faultInv_start regs stimecmp time procs)
    obtain ⟨hnext, hghost⟩ := System.withGhost_next hn
    have hstep := hinv.step (faultStep_of_next hok hnext)
    rw [← hghost] at hstep
    exact hstep
  have hok := hinv.hart i
  unfold Hart.Ok at hok
  rw [hcode] at hok
  exact hok

/-- The code is between `intr_on` and the last read of the registers. -/
def Code.reads : Code → Bool
  | .kernel _ .readStval => true
  | .kernel _ (.readScause _) => true
  | _ => false

instance (c : Cfg ι Hart (Machine × Faults)) (i : ι) (a : Action) :
    Decidable (RegistersKept c i a) :=
  decidable_of_iff ((match a with
    | .trap _ => (c.loc i).code.reads
    | _ => false) = false) <| by
      constructor
      · rintro h r p rfl
        refine ⟨fun hcode => ?_, fun va hcode => ?_⟩ <;> simp [hcode, Code.reads] at h
      · intro h
        cases a with
        | trap r =>
          cases hcode : (c.loc i).code with
          | kernel p k =>
            obtain ⟨hstval, hscause⟩ := h r p rfl
            cases k with
            | readStval => exact absurd hcode hstval
            | readScause va => exact absurd hcode (hscause va)
            | _ => rfl
          | _ => rfl
        | _ => rfl

end Runs

/-- The registers after a page fault in user mode. -/
def pageFault (scause va : UInt64) : Regs := ⟨scause, va, 0, 0⟩

/-- Two runnable processes and one hart. -/
def twoProcsStart : Cfg (Fin 1) Hart (Machine × Faults) :=
  faultStart (fun _ => timerUser) (fun _ => 1000000) 0 (runnableProcs 2 0)

/-- Process 0 stores to an address that is not mapped. -/
def storeFault : List (Fin 1 × Action) :=
  [(0, .run), (0, .run), (0, .run), (0, .trap (pageFault 15 0x1000)), (0, .run), (0, .run),
    (0, .run)]

theorem storeFault_keeps : ((faultSystem (0 : Fin 1)).execWhile RegistersKept storeFault
    twoProcsStart).isSome := by
  decide +kernel

theorem storeFault_own : ∃ c, (faultSystem (0 : Fin 1)).Reaches RegistersKept twoProcsStart c ∧
    (c.loc 0).code = .kernel ⟨0, by decide⟩ (.vmfault 0x1000 false) ∧
    c.mem.2 ⟨0, by decide⟩ = some (15, 0x1000) := by
  have hrun := System.reaches_of_execWhile (Option.some_get storeFault_keeps).symm
  have hcode : ((((faultSystem (0 : Fin 1)).execWhile RegistersKept storeFault
      twoProcsStart).get storeFault_keeps).loc 0).code =
        .kernel ⟨0, by decide⟩ (.vmfault 0x1000 false) := by
    decide +kernel
  obtain ⟨scause, hown, hcause, hread⟩ := faults_own _ _ _ _ _ _ hrun 0 _ _ _ hcode
  refine ⟨_, hrun, hcode, ?_⟩
  rcases hcause with rfl | rfl
  · cases hread
  · exact hown

/-- Process 0 runs for a tick and then stores to `0x1000`. Before `usertrap` reads the registers,
the timer interrupt that uses up its quantum is taken. Process 1 runs, loads from `0xdead000` and
sleeps in `vmfault`; then process 0 goes on. -/
def lateReads : List (Fin 1 × Action) :=
  List.flatten [
    List.replicate 3 (0, .run),
    [(0, .pass 1000000), (0, .trap timerUser)],
    List.replicate 5 (0, .run),
    [(0, .trap (pageFault 15 0x1000)), (0, .run), (0, .pass 1000000), (0, .trap timerKernel)],
    List.replicate 4 (0, .run),
    [(0, .trap timerKernel)],
    List.replicate 8 (0, .run),
    [(0, .trap (pageFault 13 0xdead000)), (0, .run), (0, .run), (0, .run), (0, .sleep (.other 0))],
    List.replicate 71 (0, .run)]

theorem lateReads_runs :
    ((faultSystem (0 : Fin 1)).exec lateReads twoProcsStart).isSome := by
  decide +kernel

/-- Process 0 calls `vmfault` for a load from the address of process 1. -/
theorem stolen_fault : ∃ c, (faultSystem (0 : Fin 1)).Reaches System.any twoProcsStart c ∧
    (c.loc 0).code = .kernel ⟨0, by decide⟩ (.vmfault 0xdead000 true) ∧
    c.mem.2 ⟨0, by decide⟩ = some (15, 0x1000) := by
  refine ⟨_, System.reaches_of_exec (Option.some_get lateReads_runs).symm, ?_, ?_⟩
  · decide +kernel
  · decide +kernel

end Xv6Swap.Trap
