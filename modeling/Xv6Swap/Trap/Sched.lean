import Xv6Swap.Trap.Machine

/-!
# Scheduling steps

`SchedStep` says what a step of a hart can do to the processes as far as the scheduler and its
accounting are concerned: the fields `level`, `ticks_used`, `ticks`, `syscount` and
`last_syscall_count` change when a tick is charged, at the end of a quantum, in the boost's loop, at
a system call, when a process is dispatched and when it is created, and by nothing else
(`schedStep_of_next`).
-/

namespace Xv6Swap.Trap

open Interleave
open Paging (ProcIdx)

/-- The scheduler looks for a process, or has found none. -/
def Code.searching : Code → Bool
  | .scan _ _ => true
  | .wfi => true
  | _ => false

/-- What the scheduler counts for a process stays as it is. -/
structure Proc.SameCounts (p p' : Proc) : Prop where
  level : p'.level = p.level
  ticksUsed : p'.ticksUsed = p.ticksUsed
  ticks : p'.ticks = p.ticks
  syscount : p'.syscount = p.syscount
  lastSyscallCount : p'.lastSyscallCount = p.lastSyscallCount

/-- A process is as it was, or it was neither running nor waiting for a hart and becomes runnable or
unused. -/
structure Proc.Moves (p p' : Proc) : Prop extends Proc.SameCounts p p' where
  state : p'.state = p.state ∨
    (p.state = .sleeping ∨ p.state = .used ∨ p.state = .zombie) ∧
      (p'.state = .runnable ∨ p'.state = .unused)

theorem Proc.Moves.refl (p : Proc) : p.Moves p := ⟨⟨rfl, rfl, rfl, rfl, rfl⟩, .inl rfl⟩

/-- What a step does. -/
inductive SchedStep (h : Hart) (m : Machine) : Hart → Machine → Prop
  | keep {h' : Hart} {m' : Machine}
      (hproc : h'.code.proc = h.code.proc ∨ h'.code.proc = none)
      (hsearch : h'.code.searching = false ∨ h'.code = h.code ∧ m'.procs = m.procs)
      (hcode : h'.code = h.code ∨
        (∀ r, h.code = .usertrap r → ∀ q, h'.code ≠ .kernel q .syscall) ∧
        (∀ ret, h.code ≠ .clockintr .account ret) ∧
        (m.mlfqGlobalTicks % 128 = 0 → ∀ ret, h.code ≠ .clockintr .boost ret))
      (hsaved : m'.saved = m.saved) (hprocs : ∀ q, (m.procs q).Moves (m'.procs q)) :
      SchedStep h m h' m'
  | search (hcode : h.code = .schedulerOn) :
      SchedStep h m { h with code := .scan 0 ⟨0, by decide⟩ } m
  | skip (level : Fin 4) (p : ProcIdx) (hcode : h.code = .scan level p)
      (hnot : ¬ ((m.procs p).state = .runnable ∧ (m.procs p).level = level)) :
      SchedStep h m { h with code := scanNext level p } m
  | dispatch (level : Fin 4) (p : ProcIdx) (hcode : h.code = .scan level p)
      (hstate : (m.procs p).state = .runnable) (hlevel : (m.procs p).level = level) :
      SchedStep h m (dispatch p h m).1 (dispatch p h m).2
  | syscall (p : ProcIdx) {h' : Hart} {m' : Machine} (hcode : h.code = .usertrap p)
      (hcode' : h'.code = .kernel p .syscall) (hsaved : m'.saved = m.saved)
      (hother : ∀ q ≠ p, m'.procs q = m.procs q) (hstate : (m'.procs p).state = (m.procs p).state)
      (hcounts : { m.procs p with syscount := (m.procs p).syscount + 1 }.SameCounts (m'.procs p)) :
      SchedStep h m h' m'
  /-- no process is running on the hart, or it is not `RUNNING` -/
  | uncharged (ret : Return) (hcode : h.code = .clockintr .account ret)
      (hnot : ∀ p, ret.myproc = some p → (m.procs p).state ≠ .running) :
      SchedStep h m { h with code := .clockintr .boost ret } m
  | charge (ret : Return) (p : ProcIdx) (hcode : h.code = .clockintr .account ret)
      (hproc : ret.myproc = some p) (hstate : (m.procs p).state = .running)
      (hexpires : (m.procs p).expires = false) :
      SchedStep h m { h with code := .clockintr .boost ret } (m.modify p Proc.countTick)
  | expire (ret : Return) (p : ProcIdx) (hcode : h.code = .clockintr .account ret)
      (hproc : ret.myproc = some p) (hstate : (m.procs p).state = .running)
      (hexpires : (m.procs p).expires = true) :
      SchedStep h m { h with code := .scheduler } (m.switchOut p (.clock ret) fun q =>
        { q.countTick.demote with state := .runnable })
  | boost (ret : Return) (hcode : h.code = .clockintr .boost ret)
      (hglobal : m.mlfqGlobalTicks % 128 = 0) :
      SchedStep h m { h with code := .clockintr .rearm ret } { m with procs := m.procs.boost }
  /-- the process sleeps or exits -/
  | leave (p : ProcIdx) (k : KernelCode) {h' : Hart} {m' : Machine} (hcode : h.code = .kernel p k)
      (hcode' : h'.code = .scheduler) (hsaved : m'.saved = Function.update m.saved p (.kernel k))
      (hother : ∀ q ≠ p, m'.procs q = m.procs q)
      (hstate : (m'.procs p).state = .sleeping ∨ (m'.procs p).state = .zombie)
      (hcounts : (m.procs p).SameCounts (m'.procs p)) : SchedStep h m h' m'
  | alloc (p q : ProcIdx) (k : KernelCode) (hcode : h.code = .kernel p k)
      (hstate : (m.procs q).state = .unused) :
      SchedStep h m h (m.switchOut q .forkret Proc.alloc)

/-! ## Every step is one of these -/

/-- The hart is neither in `usertrap` nor in `clockintr`. -/
def Code.plain : Code → Bool
  | .usertrap _ => false
  | .clockintr _ _ => false
  | _ => true

theorem moves_modify (m : Machine) (p : ProcIdx) {f : Proc → Proc}
    (hf : (m.procs p).Moves (f (m.procs p))) (q : ProcIdx) :
    (m.procs q).Moves ((m.modify p f).procs q) := by
  by_cases hq : q = p
  · subst hq
    simpa only [Machine.modify, ProcTable.modify, Function.update_self] using hf
  · simp only [Machine.modify, ProcTable.modify, Function.update_of_ne hq]
    exact .refl _

theorem moves_wakeup (t : ProcTable) (self : Option ProcIdx) (chan : Chan) (q : ProcIdx) :
    (t q).Moves (t.wakeup self chan q) := by
  unfold ProcTable.wakeup
  split
  · rename_i hwake
    exact ⟨⟨rfl, rfl, rfl, rfl, rfl⟩, .inr ⟨.inl hwake.2.1, .inl rfl⟩⟩
  · exact .refl _

/-- Outside of the handlers and the search, the code goes on for the same process. -/
theorem SchedStep.plain {h h' : Hart} {m m' : Machine} (hcode : h.code.plain = true)
    (hproc : h'.code.proc = h.code.proc ∨ h'.code.proc = none)
    (hsearch : h'.code.searching = false) (hsaved : m'.saved = m.saved)
    (hprocs : ∀ q, (m.procs q).Moves (m'.procs q)) : SchedStep h m h' m' :=
  .keep hproc (.inl hsearch)
    (.inr ⟨fun r hc => by simp [hc, Code.plain] at hcode,
      fun ret hc => by simp [hc, Code.plain] at hcode,
      fun _ ret hc => by simp [hc, Code.plain] at hcode⟩) hsaved hprocs

/-- In `usertrap`, without a system call. -/
theorem SchedStep.trapped {h h' : Hart} {m m' : Machine} {p : ProcIdx}
    (hcode : h.code = .usertrap p)
    (hproc : h'.code.proc = some p ∨ h'.code.proc = none) (hsearch : h'.code.searching = false)
    (hcall : ∀ q, h'.code ≠ .kernel q .syscall) (hsaved : m'.saved = m.saved)
    (hprocs : ∀ q, (m.procs q).Moves (m'.procs q)) : SchedStep h m h' m' := by
  refine .keep (hproc.imp_left fun hp => ?_) (.inl hsearch)
    (.inr ⟨fun _ _ => hcall, fun ret hc => by simp [hcode] at hc,
      fun _ ret hc => by simp [hcode] at hc⟩) hsaved hprocs
  rw [hp, hcode]
  rfl

theorem usertrapEnd_proc (p : ProcIdx) (h : Hart) (m : Machine) :
    (usertrapEnd p h m).code.proc = some p ∧ (usertrapEnd p h m).code.searching = false := by
  unfold usertrapEnd
  split <;> exact ⟨rfl, rfl⟩

theorem usertrapEnd_no_syscall (p : ProcIdx) (h : Hart) (m : Machine) (q : ProcIdx) :
    (usertrapEnd p h m).code ≠ .kernel q .syscall := by
  unfold usertrapEnd
  split <;> simp [prepareReturn]

theorem trapReturn_proc (ret : Return) (h : Hart) (m : Machine) :
    (trapReturn ret h m).code.proc = ret.myproc ∧
      (trapReturn ret h m).code.searching = false := by
  cases ret with
  | user p => exact usertrapEnd_proc p h m
  | kernel p k sepc sstatus => exact ⟨rfl, rfl⟩
  | scheduler sepc sstatus => exact ⟨rfl, rfl⟩

theorem schedStep_usertrap {h : Hart} {p : ProcIdx} (m : Machine) (hcode : h.code = .usertrap p) :
    SchedStep h m (usertrap p h m).1 (usertrap p h m).2 := by
  have hend : ∀ m' : Machine, m'.saved = m.saved → (∀ q, (m.procs q).Moves (m'.procs q)) →
      SchedStep h m (usertrapEnd p h m') m' := fun m' hsaved hprocs =>
    .trapped hcode (.inl (usertrapEnd_proc p h m').1) (usertrapEnd_proc p h m').2
      (usertrapEnd_no_syscall p h m') hsaved hprocs
  have hepc := moves_modify m p (f := fun q => { q with epc := h.regs.sepc })
    ⟨⟨rfl, rfl, rfl, rfl, rfl⟩, .inl rfl⟩
  simp only [usertrap]
  split
  · exact .trapped hcode (.inr rfl) rfl (by simp) rfl fun _ => .refl _
  split
  · split
    · exact .trapped hcode (.inl rfl) rfl (by simp) rfl hepc
    · refine .syscall p hcode rfl rfl (fun q hq => ?_) ?_ ?_
      · simp only [Machine.modify, ProcTable.modify, Function.update_of_ne hq]
      · simp only [Machine.modify, ProcTable.modify, Function.update_self]
      · simp only [Machine.modify, ProcTable.modify, Function.update_self]
        exact ⟨rfl, rfl, rfl, rfl, rfl⟩
  split
  · exact .trapped hcode (.inl rfl) rfl (by simp) rfl hepc
  split
  · exact .trapped hcode (.inl rfl) rfl (by simp) rfl hepc
  split
  · exact .trapped hcode (.inl rfl) rfl (by simp) rfl hepc
  · refine hend _ rfl fun q => ?_
    by_cases hq : q = p
    · subst hq
      simp only [Machine.modify, ProcTable.modify, Function.update_self]
      exact ⟨⟨rfl, rfl, rfl, rfl, rfl⟩, .inl rfl⟩
    · simp only [Machine.modify, ProcTable.modify, Function.update_of_ne hq]
      exact .refl _

theorem schedStep_devintr {h : Hart} {ret : Return} (m : Machine) (hcode : h.code = .devintr ret) :
    SchedStep h m (devintr ret h) m := by
  have hplain : h.code.plain = true := by rw [hcode]; rfl
  have hproc : h.code.proc = ret.myproc := by rw [hcode]; rfl
  unfold devintr
  split
  · exact .plain hplain (.inr rfl) rfl rfl fun _ => .refl _
  split
  · exact .plain hplain (.inl hproc.symm) rfl rfl fun _ => .refl _
  split
  · exact .plain hplain (.inl hproc.symm) rfl rfl fun _ => .refl _
  · exact .plain hplain (.inr rfl) rfl rfl fun _ => .refl _

theorem schedStep_clockintr (boot : Bool) {h : Hart} {pc : ClockPc} {ret : Return} (m : Machine)
    (hcode : h.code = .clockintr pc ret) :
    SchedStep h m (clockintr boot pc ret h m).1 (clockintr boot pc ret h m).2 := by
  have hproc : h.code.proc = ret.myproc := by rw [hcode]; rfl
  have htrap : ∀ {c : Code} r, h.code = .usertrap r → ∀ q, c ≠ .kernel q .syscall :=
    fun r hc => by simp [hcode] at hc
  cases pc with
  | tick =>
    have hpc : (∀ r, h.code ≠ .clockintr .account r) ∧
        (m.mlfqGlobalTicks % 128 = 0 → ∀ r, h.code ≠ .clockintr .boost r) :=
      ⟨fun r hc => by simp [hcode] at hc, fun _ r hc => by simp [hcode] at hc⟩
    cases boot with
    | true => exact .keep (.inl hproc.symm) (.inl rfl) (.inr ⟨htrap, hpc⟩) rfl (moves_wakeup _ _ _)
    | false => exact .keep (.inl hproc.symm) (.inl rfl) (.inr ⟨htrap, hpc⟩) rfl fun _ => .refl _
  | account =>
    simp only [clockintr]
    cases hp : ret.myproc with
    | none => exact .uncharged ret hcode fun p h => by rw [hp] at h; cases h
    | some p =>
      dsimp only
      split
      · rename_i hstate
        split
        · rename_i hexpires
          exact .expire ret p hcode hp hstate hexpires
        · rename_i hexpires
          exact .charge ret p hcode hp hstate (Bool.eq_false_of_not_eq_true hexpires)
      · rename_i hstate
        refine .uncharged ret hcode fun q h => ?_
        obtain rfl := Option.some.inj (hp.symm.trans h)
        exact hstate
  | boost =>
    simp only [clockintr]
    split
    · rename_i hglobal
      exact .boost ret hcode hglobal
    · rename_i hglobal
      exact .keep (.inl hproc.symm) (.inl rfl)
        (.inr ⟨htrap, fun r hc => by simp [hcode] at hc, fun h => absurd h hglobal⟩) rfl
        fun _ => .refl _
  | rearm =>
    obtain ⟨hp, hs⟩ := trapReturn_proc ret { h with stimecmp := m.time + 1000000 } m
    exact .keep (.inl (hp.trans hproc.symm)) (.inl hs)
      (.inr ⟨htrap, fun r hc => by simp [hcode] at hc, fun _ r hc => by simp [hcode] at hc⟩) rfl
      fun _ => .refl _

theorem schedStep_scan {h : Hart} {level : Fin 4} {p : ProcIdx} (m : Machine)
    (hcode : h.code = .scan level p) :
    SchedStep h m (scan level p h m).1 (scan level p h m).2 := by
  unfold scan
  split
  · rename_i hfound
    exact .dispatch level p hcode hfound.1 hfound.2
  · rename_i hnot
    exact .skip level p hcode hnot

theorem schedStep_of_runStep {boot : Bool} {h h' : Hart} {m m' : Machine}
    (hstep : runStep boot h m = some (h', m')) : SchedStep h m h' m' := by
  unfold runStep at hstep
  split at hstep
  · rename_i p hcode
    obtain ⟨rfl, rfl⟩ := Prod.mk.inj (Option.some.inj hstep)
    exact schedStep_usertrap m hcode
  · rename_i p hcode
    obtain ⟨rfl, rfl⟩ := Prod.mk.inj (Option.some.inj hstep)
    exact .plain (by rw [hcode]; rfl) (.inl (by rw [hcode]; rfl)) rfl rfl fun _ => .refl _
  · rename_i p va hcode
    obtain ⟨rfl, rfl⟩ := Prod.mk.inj (Option.some.inj hstep)
    exact .plain (by rw [hcode]; rfl) (.inl (by rw [hcode]; rfl)) rfl rfl fun _ => .refl _
  · rename_i ret hcode
    obtain ⟨rfl, rfl⟩ := Prod.mk.inj (Option.some.inj hstep)
    exact schedStep_devintr m hcode
  · rename_i ret hcode
    obtain ⟨rfl, rfl⟩ := Prod.mk.inj (Option.some.inj hstep)
    obtain ⟨hp, hs⟩ := trapReturn_proc ret h m
    exact .plain (by rw [hcode]; rfl) (.inl (by rw [hp, hcode]; rfl)) hs rfl fun _ => .refl _
  · rename_i pc ret hcode
    obtain ⟨rfl, rfl⟩ := Prod.mk.inj (Option.some.inj hstep)
    exact schedStep_clockintr boot m hcode
  · rename_i hcode
    obtain ⟨rfl, rfl⟩ := Prod.mk.inj (Option.some.inj hstep)
    exact .plain (by rw [hcode]; rfl) (.inr rfl) rfl rfl fun _ => .refl _
  · rename_i hcode
    obtain ⟨rfl, rfl⟩ := Prod.mk.inj (Option.some.inj hstep)
    exact .search hcode
  · rename_i level p hcode
    obtain ⟨rfl, rfl⟩ := Prod.mk.inj (Option.some.inj hstep)
    exact schedStep_scan m hcode
  · rename_i hcode
    obtain ⟨rfl, rfl⟩ := Prod.mk.inj (Option.some.inj hstep)
    exact .plain (by rw [hcode]; rfl) (.inr rfl) rfl rfl fun _ => .refl _
  all_goals cases hstep

theorem schedStep_of_trapStep {r : Regs} {h h' : Hart} {m m' : Machine}
    (hstep : trapStep r h m = some (h', m')) : SchedStep h m h' m' := by
  unfold trapStep at hstep
  dsimp only at hstep
  split at hstep
  · rename_i p hcode
    split at hstep
    · obtain ⟨rfl, rfl⟩ := Prod.mk.inj (Option.some.inj hstep)
      exact .plain (by rw [hcode]; rfl) (.inl (by rw [hcode]; rfl)) rfl rfl fun _ => .refl _
    · cases hstep
  · rename_i p k hcode
    split at hstep
    · obtain ⟨rfl, rfl⟩ := Prod.mk.inj (Option.some.inj hstep)
      exact .plain (by rw [hcode]; rfl) (.inl (by rw [hcode]; rfl)) rfl rfl fun _ => .refl _
    · cases hstep
  · rename_i hcode
    split at hstep
    · obtain ⟨rfl, rfl⟩ := Prod.mk.inj (Option.some.inj hstep)
      exact .plain (by rw [hcode]; rfl) (.inl (by rw [hcode]; rfl)) rfl rfl fun _ => .refl _
    · cases hstep
  · cases hstep

theorem SchedStep.of_switchOut {h : Hart} {p : ProcIdx} {k : KernelCode}
    (m : Machine) (hcode : h.code = .kernel p k) {f : Proc → Proc}
    (hstate : (f (m.procs p)).state = .sleeping ∨ (f (m.procs p)).state = .zombie)
    (hcounts : (m.procs p).SameCounts (f (m.procs p))) :
    SchedStep h m { h with code := .scheduler } (m.switchOut p (.kernel k) f) := by
  refine .leave p k hcode rfl rfl (fun q hq => ?_) ?_ ?_
  · simp only [Machine.switchOut, ProcTable.modify, Function.update_of_ne hq]
  · simpa only [Machine.switchOut, ProcTable.modify, Function.update_self] using hstate
  · simpa only [Machine.switchOut, ProcTable.modify, Function.update_self] using hcounts

theorem schedStep_of_finishStep {ret : UInt64} {p : ProcIdx} {k : KernelCode} {h h' : Hart}
    {m m' : Machine} (hcode : h.code = .kernel p k)
    (hstep : finishStep ret p k h m = some (h', m')) : SchedStep h m h' m' := by
  have hplain : h.code.plain = true := by rw [hcode]; rfl
  have hproc : h.code.proc = some p := by rw [hcode]; rfl
  unfold finishStep at hstep
  split at hstep
  · obtain ⟨rfl, rfl⟩ := Prod.mk.inj (Option.some.inj hstep)
    obtain ⟨hp, hs⟩ := usertrapEnd_proc p h m
    exact .plain hplain (.inl (hp.trans hproc.symm)) hs rfl fun _ => .refl _
  · obtain ⟨rfl, rfl⟩ := Prod.mk.inj (Option.some.inj hstep)
    split
    · obtain ⟨hp, hs⟩ := usertrapEnd_proc p h (m.modify p fun q => { q with killed := true })
      exact .plain hplain (.inl (hp.trans hproc.symm)) hs rfl
        (moves_modify m p ⟨⟨rfl, rfl, rfl, rfl, rfl⟩, .inl rfl⟩)
    · obtain ⟨hp, hs⟩ := usertrapEnd_proc p h m
      exact .plain hplain (.inl (hp.trans hproc.symm)) hs rfl fun _ => .refl _
  · obtain ⟨rfl, rfl⟩ := Prod.mk.inj (Option.some.inj hstep)
    exact .of_switchOut m hcode (.inr rfl) ⟨rfl, rfl, rfl, rfl, rfl⟩
  all_goals cases hstep

theorem schedStep_of_sleepStep {chan : Chan} {p : ProcIdx} {k : KernelCode} {h h' : Hart}
    {m m' : Machine} (hcode : h.code = .kernel p k)
    (hstep : sleepStep chan p k h m = some (h', m')) : SchedStep h m h' m' := by
  unfold sleepStep at hstep
  split at hstep
  · cases hstep
  · cases hstep
  · obtain ⟨rfl, rfl⟩ := Prod.mk.inj (Option.some.inj hstep)
    exact .of_switchOut m hcode (.inl rfl) ⟨rfl, rfl, rfl, rfl, rfl⟩

theorem schedStep_of_otherStep {a : Action} {p : ProcIdx} {k : KernelCode} {h : Hart}
    {m m' : Machine} (hcode : h.code = .kernel p k) (hstep : otherStep a p m = some m') :
    SchedStep h m h m' := by
  have hplain : h.code.plain = true := by rw [hcode]; rfl
  have hsearch : h.code.searching = false := by rw [hcode]; rfl
  unfold otherStep at hstep
  split at hstep
  · obtain rfl := Option.some.inj hstep
    exact .plain hplain (.inl rfl) hsearch rfl (moves_wakeup _ _ _)
  · split at hstep
    · rename_i hstate
      obtain rfl := Option.some.inj hstep
      exact .alloc p _ k hcode hstate
    · cases hstep
  · split at hstep
    · rename_i hstate
      obtain rfl := Option.some.inj hstep
      exact .plain hplain (.inl rfl) hsearch rfl (moves_modify m _
        ⟨⟨rfl, rfl, rfl, rfl, rfl⟩, .inr ⟨.inr (.inl hstate), .inl rfl⟩⟩)
    · cases hstep
  · split at hstep
    · rename_i hstate
      obtain rfl := Option.some.inj hstep
      exact .plain hplain (.inl rfl) hsearch rfl (moves_modify m _
        ⟨⟨rfl, rfl, rfl, rfl, rfl⟩, .inr ⟨.inr hstate.symm, .inr rfl⟩⟩)
    · cases hstep
  · obtain rfl := Option.some.inj hstep
    refine .plain hplain (.inl rfl) hsearch rfl (moves_modify m _ ⟨⟨rfl, rfl, rfl, rfl, rfl⟩, ?_⟩)
    dsimp only
    split
    · rename_i hstate
      exact .inr ⟨.inl hstate, .inl rfl⟩
    · exact .inl rfl
  · cases hstep

/-- Every step of a hart is a scheduling step. -/
theorem schedStep_of_next {ι : Type*} [DecidableEq ι] {boot i : ι} {a : Action} {h h' : Hart}
    {m m' : Machine} (hstep : (trapSystem boot).next i a h m = some (h', m')) :
    SchedStep h m h' m' := by
  cases nextStep_of_next hstep with
  | trap _ hs => exact schedStep_of_trapStep hs
  | @pass n _ => exact .keep (.inl rfl) (.inr ⟨rfl, rfl⟩) (.inl rfl) rfl fun _ => .refl _
  | run _ hs => exact schedStep_of_runStep hs
  | finish hcode hs => exact schedStep_of_finishStep hcode hs
  | sleep hcode hs => exact schedStep_of_sleepStep hcode hs
  | other hcode hs => exact schedStep_of_otherStep hcode hs
  | device hcode =>
    exact .plain (by rw [hcode]; rfl) (.inl rfl) (by rw [hcode]; rfl) rfl (moves_wakeup _ _ _)

/-! ## Who runs where -/

theorem dispatch_procs (p : ProcIdx) (h : Hart) (m : Machine) :
    (∀ q ≠ p, (dispatch p h m).2.procs q = m.procs q) ∧
      ((dispatch p h m).2.procs p).state = .running ∧
      { m.procs p with lastSyscallCount := (m.procs p).syscount }.SameCounts
        ((dispatch p h m).2.procs p) ∧
      (dispatch p h m).2.saved = m.saved := by
  unfold dispatch
  dsimp only
  split
  all_goals
    refine ⟨fun q hq => ?_, ?_, ?_, rfl⟩
    · simp only [Machine.modify, ProcTable.modify, Function.update_of_ne hq]
    · simp only [Machine.modify, ProcTable.modify, Function.update_self]
    · simp only [Machine.modify, ProcTable.modify, Function.update_self]
      exact ⟨rfl, rfl, rfl, rfl, rfl⟩

/-- The next code is that of the same process or of none, or a process has been dispatched. -/
theorem SchedStep.proc {h h' : Hart} {m m' : Machine} (hstep : SchedStep h m h' m')
    (hsaved : ∀ p ret, m.saved p = .clock ret → ret.myproc = some p) {p : ProcIdx}
    (hp : h'.code.proc = some p) :
    h.code.proc = some p ∨ (m.procs p).state = .runnable ∧ (m'.procs p).state = .running := by
  cases hstep with
  | keep hproc =>
    rcases hproc with heq | hnone
    · exact .inl (heq ▸ hp)
    · rw [hnone] at hp
      cases hp
  | search => cases hp
  | skip level q =>
    have hnone : (scanNext level q).proc = none := by
      unfold scanNext
      split
      · rfl
      · split <;> rfl
    rw [hnone] at hp
    cases hp
  | dispatch level q hcode hstate hlevel =>
    have hq : (Trap.dispatch q h m).1.code.proc = some q := by
      unfold Trap.dispatch
      dsimp only
      split
      · rfl
      · rfl
      · rename_i ret hret
        exact hsaved q ret hret
    obtain rfl := Option.some.inj (hq.symm.trans hp)
    exact .inr ⟨hstate, (dispatch_procs q h m).2.1⟩
  | syscall q hcode hcode' =>
    rw [hcode'] at hp
    rw [hcode]
    exact .inl hp
  | uncharged ret hcode | charge ret q hcode | boost ret hcode =>
    rw [hcode]
    exact .inl hp
  | expire => cases hp
  | leave q k hcode hcode' =>
    rw [hcode'] at hp
    cases hp
  | alloc => exact .inl hp

/-- A running process goes on running, or it was the one on the hart and has left it. -/
theorem SchedStep.running {h h' : Hart} {m m' : Machine} (hstep : SchedStep h m h' m')
    {p : ProcIdx} (hp : (m.procs p).state = .running) :
    (m'.procs p).state = .running ∨ h.code.proc = some p ∧ h'.code.proc = none := by
  cases hstep with
  | keep hproc hsearch hcode hsaved hprocs =>
    rcases (hprocs p).state with heq | ⟨h | h | h, -⟩
    · exact .inl (heq.trans hp)
    all_goals simp [hp] at h
  | search | skip | uncharged => exact .inl hp
  | dispatch level q hcode hstate hlevel =>
    have hpq : p ≠ q := by
      rintro rfl
      simp [hp] at hstate
    rw [(dispatch_procs q h m).1 p hpq]
    exact .inl hp
  | syscall q hcode hcode' hsaved hother hstate =>
    by_cases hpq : p = q
    · subst hpq
      exact .inl (hstate.trans hp)
    · rw [hother p hpq]
      exact .inl hp
  | charge ret q =>
    by_cases hpq : p = q
    · subst hpq
      simpa [Machine.modify, ProcTable.modify, Proc.countTick] using Or.inl hp
    · simpa [Machine.modify, ProcTable.modify, hpq] using Or.inl hp
  | expire ret q hcode hproc =>
    by_cases hpq : p = q
    · subst hpq
      exact .inr ⟨by rw [hcode]; exact hproc, rfl⟩
    · simpa [Machine.switchOut, ProcTable.modify, hpq] using Or.inl hp
  | boost =>
    dsimp only
    rw [ProcTable.boost_state]
    exact .inl hp
  | leave q k hcode hcode' hsaved hother =>
    by_cases hpq : p = q
    · subst hpq
      exact .inr ⟨by rw [hcode]; rfl, by rw [hcode']; rfl⟩
    · rw [hother p hpq]
      exact .inl hp
  | alloc r q k hcode hstate =>
    have hpq : p ≠ q := by
      rintro rfl
      simp [hp] at hstate
    simpa [Machine.switchOut, ProcTable.modify, hpq] using Or.inl hp

/-! ## Histories of processes -/

/-- The search is about to dispatch `p`. -/
def Dispatches (h : Hart) (m : Machine) (p : ProcIdx) : Prop :=
  h.code = .scan (m.procs p).level p ∧ (m.procs p).state = .runnable

/-- What the history of a process records when the scheduler's counters change: at `allocproc`, at a
system call, when a tick is charged and the quantum lasts or ends, and in the boost's loop. -/
structure Events (X : Type*) where
  alloc : X
  syscall : X → X
  charge : Proc → X → X
  expire : Proc → X → X
  boost : X → X

/-- The histories of all processes after a step. -/
def Events.record {X ι : Type*} (E : Events X) (_ : ι) (before after : Hart × Machine)
    (x : ProcIdx → X) : ProcIdx → X := fun p =>
  let q := before.2.procs p
  if q.state = .unused ∧ (after.2.procs p).state = .used then E.alloc
  else if after.1.code = before.1.code then x p
  else
    match before.1.code with
    | .usertrap _ => if after.1.code = .kernel p .syscall then E.syscall (x p) else x p
    | .clockintr .account ret =>
      if ret.myproc = some p ∧ q.state = .running then
        if q.expires then E.expire q (x p) else E.charge q (x p)
      else x p
    | .clockintr .boost _ =>
      if before.2.mlfqGlobalTicks % 128 = 0 ∧ q.state ≠ .unused ∧ q.state ≠ .zombie then
        E.boost (x p)
      else x p
    | _ => x p

/-- What a step does to the process `p`, and to its history. -/
inductive ProcStep {X : Type*} (E : Events X) (h : Hart) (m m' : Machine) (p : ProcIdx) (x : X) :
    X → Prop
  | keep (hmoves : (m.procs p).Moves (m'.procs p)) (hsaved : m'.saved p = m.saved p) :
      ProcStep E h m m' p x x
  | alloc (hstate : (m.procs p).state = .unused) (hm : m'.procs p = (m.procs p).alloc)
      (hsaved : m'.saved p = .forkret) : ProcStep E h m m' p x E.alloc
  | syscall (hcode : h.code = .usertrap p) (hstate : (m'.procs p).state = (m.procs p).state)
      (hcounts : { m.procs p with syscount := (m.procs p).syscount + 1 }.SameCounts (m'.procs p))
      (hsaved : m'.saved p = m.saved p) : ProcStep E h m m' p x (E.syscall x)
  | charge (hstate : (m.procs p).state = .running) (hexpires : (m.procs p).expires = false)
      (hm : m'.procs p = (m.procs p).countTick) (hsaved : m'.saved p = m.saved p) :
      ProcStep E h m m' p x (E.charge (m.procs p) x)
  | expire (ret : Return) (hstate : (m.procs p).state = .running)
      (hexpires : (m.procs p).expires = true)
      (hm : m'.procs p = { (m.procs p).countTick.demote with state := .runnable })
      (hsaved : m'.saved p = .clock ret) : ProcStep E h m m' p x (E.expire (m.procs p) x)
  | boost (ret : Return) (hcode : h.code = .clockintr .boost ret)
      (hglobal : m.mlfqGlobalTicks % 128 = 0) (hlive : (m.procs p).state ≠ .unused)
      (hm : m'.procs p = { m.procs p with level := 0, ticksUsed := 0 })
      (hsaved : m'.saved p = m.saved p) : ProcStep E h m m' p x (E.boost x)
  | dispatch (hd : Dispatches h m p) (hstate : (m'.procs p).state = .running)
      (hcounts : { m.procs p with lastSyscallCount := (m.procs p).syscount }.SameCounts
        (m'.procs p)) (hsaved : m'.saved p = m.saved p) : ProcStep E h m m' p x x
  | leave (k : KernelCode) (hcode : h.code = .kernel p k)
      (hstate : (m'.procs p).state = .sleeping ∨ (m'.procs p).state = .zombie)
      (hcounts : (m.procs p).SameCounts (m'.procs p)) (hsaved : m'.saved p = .kernel k) :
      ProcStep E h m m' p x x

theorem Proc.Moves.live {p p' : Proc} (h : p.Moves p') (hlive : p'.state ≠ .unused) :
    p.state ≠ .unused := by
  intro hp
  rcases h.state with heq | ⟨h | h | h, -⟩
  · exact hlive (heq.trans hp)
  all_goals simp [hp] at h

theorem Proc.Moves.of_eq {p p' : Proc} (h : p' = p) : p.Moves p' := h ▸ .refl p

/-- Where neither a tick is charged nor the boost's loop runs, the history stays. -/
theorem Events.record_keep {X ι : Type*} (E : Events X) (i : ι) {h h' : Hart} {m m' : Machine}
    {x : ProcIdx → X} {p : ProcIdx}
    (halloc : ¬ ((m.procs p).state = .unused ∧ (m'.procs p).state = .used))
    (hcode : h'.code = h.code ∨
      (∀ r, h.code = .usertrap r → h'.code ≠ .kernel p .syscall) ∧
      (∀ ret, h.code = .clockintr .account ret → ret.myproc = some p →
        (m.procs p).state ≠ .running) ∧
      (m.mlfqGlobalTicks % 128 = 0 → (m.procs p).state ≠ .unused → (m.procs p).state ≠ .zombie →
        ∀ ret, h.code ≠ .clockintr .boost ret)) :
    E.record i (h, m) (h', m') x p = x p := by
  unfold Events.record
  dsimp only
  rw [if_neg halloc]
  split
  · rfl
  · rename_i hne
    obtain ⟨hsyscall, haccount, hboost⟩ := hcode.resolve_left hne
    split
    · rename_i r hc
      rw [if_neg (hsyscall r hc)]
    · rename_i ret hc
      rw [if_neg]
      rintro ⟨hproc, hstate⟩
      exact haccount ret hc hproc hstate
    · rename_i ret hc
      rw [if_neg]
      rintro ⟨hglobal, hu, hz⟩
      exact hboost hglobal hu hz ret hc
    · rfl

/-- Outside of the handlers only `allocproc` changes a history. -/
theorem Events.record_plain {X ι : Type*} (E : Events X) (i : ι) {h h' : Hart} {m m' : Machine}
    {x : ProcIdx → X} {p : ProcIdx} (hcode : h.code.plain = true)
    (halloc : ¬ ((m.procs p).state = .unused ∧ (m'.procs p).state = .used)) :
    E.record i (h, m) (h', m') x p = x p :=
  E.record_keep i halloc (.inr ⟨fun r hc => by simp [hc, Code.plain] at hcode,
    fun ret hc => by simp [hc, Code.plain] at hcode,
    fun _ _ _ ret hc => by simp [hc, Code.plain] at hcode⟩)

/-- The history of the process that is charged. -/
theorem Events.record_account {X ι : Type*} (E : Events X) (i : ι) {h h' : Hart} {m m' : Machine}
    {x : ProcIdx → X} {p : ProcIdx} {ret : Return} (hcode : h.code = .clockintr .account ret)
    (hcode' : h'.code ≠ h.code) (hproc : ret.myproc = some p)
    (hstate : (m.procs p).state = .running) :
    E.record i (h, m) (h', m') x p =
      if (m.procs p).expires then E.expire (m.procs p) (x p) else E.charge (m.procs p) (x p) := by
  unfold Events.record
  dsimp only
  rw [if_neg (fun hc => by simp [hstate] at hc), if_neg hcode']
  simp only [hcode]
  rw [if_pos ⟨hproc, hstate⟩]

/-- The histories of the other processes stay when one is charged. -/
theorem Events.record_account_other {X ι : Type*} (E : Events X) (i : ι) {h h' : Hart}
    {m m' : Machine} {x : ProcIdx → X} {p : ProcIdx} {ret : Return}
    (hcode : h.code = .clockintr .account ret)
    (hnot : ret.myproc = some p → (m.procs p).state ≠ .running) (heq : m'.procs p = m.procs p) :
    E.record i (h, m) (h', m') x p = x p := by
  refine E.record_keep i (fun hc => ?_)
    (.inr ⟨fun r hc => by simp [hcode] at hc, fun r hc hr => ?_,
      fun _ _ _ r hc => by simp [hcode] at hc⟩)
  · rw [heq, hc.1] at hc
    exact absurd hc.2 (by decide)
  · obtain ⟨-, rfl⟩ := Code.clockintr.inj (hcode.symm.trans hc)
    exact hnot hr

/-- What a step of a hart does to each process. -/
theorem SchedStep.procStep {X ι : Type*} {h h' : Hart} {m m' : Machine} (E : Events X) (i : ι)
    (p : ProcIdx) (x : ProcIdx → X) (hstep : SchedStep h m h' m') :
    ProcStep E h m m' p (x p) (E.record i (h, m) (h', m') x p) := by
  -- a process that is as it was
  have hsame : ∀ {m' : Machine}, m'.procs p = m.procs p →
      ¬ ((m.procs p).state = .unused ∧ (m'.procs p).state = .used) := by
    intro m' heq hc
    rw [heq, hc.1] at hc
    exact absurd hc.2 (by decide)
  cases hstep with
  | keep hproc hsearch hcode hsaved hprocs =>
    rw [E.record_keep i (fun hc => ?_) (hcode.imp_right fun hc =>
      ⟨fun r hr => hc.1 r hr p, fun ret hret => absurd hret (hc.2.1 ret), fun hg _ _ => hc.2.2 hg⟩)]
    · exact .keep (hprocs p) (congrFun hsaved p)
    · exact (hprocs p).live (by simp [hc.2]) hc.1
  | search hcode | skip level q hcode =>
    rw [E.record_plain i (by rw [hcode]; rfl) (hsame rfl)]
    exact .keep (.refl _) rfl
  | dispatch level q hcode hstate hlevel =>
    obtain ⟨hother, hrunning, hcounts, hsaved⟩ := dispatch_procs q h m
    have hplain : h.code.plain = true := by rw [hcode]; rfl
    by_cases hp : p = q
    · subst hp
      rw [E.record_plain i hplain (fun hc => by simp [hrunning] at hc)]
      subst hlevel
      exact .dispatch ⟨hcode, hstate⟩ hrunning hcounts (congrFun hsaved p)
    · rw [E.record_plain i hplain (hsame (hother p hp))]
      exact .keep (.of_eq (hother p hp)) (congrFun hsaved p)
  | syscall q hcode hcode' hsaved hother hstate hcounts =>
    by_cases hp : p = q
    · subst hp
      have hrec : E.record i (h, m) (h', m') x p = E.syscall (x p) := by
        unfold Events.record
        dsimp only
        rw [if_neg (fun hc => by rw [hstate, hc.1] at hc; exact absurd hc.2 (by decide)),
          if_neg (by rw [hcode, hcode']; simp)]
        simp only [hcode, hcode', if_true]
      rw [hrec]
      exact .syscall hcode hstate hcounts (congrFun hsaved p)
    · have hne : h'.code ≠ .kernel p .syscall := by
        rw [hcode']
        intro hc
        exact hp (Code.kernel.inj hc).1.symm
      rw [E.record_keep i (hsame (hother p hp)) (.inr ⟨fun _ _ => hne,
        fun ret hc => by simp [hcode] at hc, fun _ _ _ ret hc => by simp [hcode] at hc⟩)]
      exact .keep (.of_eq (hother p hp)) (congrFun hsaved p)
  | uncharged ret hcode hnot =>
    rw [E.record_account_other i hcode (hnot p) rfl]
    exact .keep (.refl _) rfl
  | charge ret q hcode hproc hstate hexpires =>
    by_cases hp : p = q
    · subst hp
      rw [E.record_account i hcode (by simp [hcode]) hproc hstate, if_neg (by simp [hexpires])]
      exact .charge hstate hexpires (Function.update_self ..) rfl
    · have heq : (m.modify q Proc.countTick).procs p = m.procs p := Function.update_of_ne hp ..
      rw [E.record_account_other i hcode
        (fun hr => absurd (Option.some.inj (hr.symm.trans hproc)) hp) heq]
      exact .keep (.of_eq heq) rfl
  | expire ret q hcode hproc hstate hexpires =>
    by_cases hp : p = q
    · subst hp
      rw [E.record_account i hcode (by simp [hcode]) hproc hstate, if_pos hexpires]
      exact .expire ret hstate hexpires (Function.update_self ..) (Function.update_self ..)
    · have heq : (m.switchOut q (.clock ret) fun q =>
          { q.countTick.demote with state := .runnable }).procs p = m.procs p :=
        Function.update_of_ne hp ..
      rw [E.record_account_other i hcode
        (fun hr => absurd (Option.some.inj (hr.symm.trans hproc)) hp) heq]
      exact .keep (.of_eq heq) (Function.update_of_ne hp ..)
  | boost ret hcode hglobal =>
    have hboost := ProcTable.boost_apply m.procs p
    generalize m.procs.boost = t at hboost ⊢
    by_cases hlive : (m.procs p).state ≠ .unused ∧ (m.procs p).state ≠ .zombie
    · rw [if_pos hlive] at hboost
      have hrec : E.record i (h, m) ({ h with code := .clockintr .rearm ret },
          { m with procs := t }) x p = E.boost (x p) := by
        unfold Events.record
        dsimp only
        rw [if_neg (fun hc => hlive.1 hc.1), if_neg (by simp [hcode])]
        simp only [hcode]
        rw [if_pos ⟨hglobal, hlive⟩]
      rw [hrec]
      exact .boost ret hcode hglobal hlive.1 hboost rfl
    · rw [if_neg hlive] at hboost
      rw [E.record_keep i (hsame hboost) (.inr ⟨fun r hc => by simp [hcode] at hc,
        fun r hc => by simp [hcode] at hc, fun _ hu hz => absurd ⟨hu, hz⟩ hlive⟩)]
      exact .keep (.of_eq hboost) rfl
  | leave q k hcode hcode' hsaved hother hstate hcounts =>
    have hplain : h.code.plain = true := by rw [hcode]; rfl
    by_cases hp : p = q
    · subst hp
      rw [E.record_plain i hplain (fun hc => by rcases hstate with hs | hs <;> simp [hs] at hc)]
      exact .leave k hcode hstate hcounts (by rw [hsaved, Function.update_self])
    · rw [E.record_plain i hplain (hsame (hother p hp))]
      exact .keep (.of_eq (hother p hp)) (by rw [hsaved, Function.update_of_ne hp])
  | alloc r q k hcode hstate =>
    by_cases hp : p = q
    · subst hp
      have hm : (m.switchOut p .forkret Proc.alloc).procs p = (m.procs p).alloc :=
        Function.update_self ..
      have hrec : E.record i (h, m) (h, m.switchOut p .forkret Proc.alloc) x p = E.alloc := by
        unfold Events.record
        exact if_pos ⟨hstate, by rw [hm]; rfl⟩
      rw [hrec]
      exact .alloc hstate hm (Function.update_self ..)
    · have heq : (m.switchOut q .forkret Proc.alloc).procs p = m.procs p :=
        Function.update_of_ne hp ..
      rw [E.record_plain i (by rw [hcode]; rfl) (hsame heq)]
      exact .keep (.of_eq heq) (Function.update_of_ne hp ..)

/-! ## Mutual exclusion -/

/-- Each process is executed by at most one hart, and is running then. -/
structure Exclusive {ι : Type*} (loc : ι → Hart) (m : Machine) : Prop where
  running : ∀ i p, (loc i).code.proc = some p → (m.procs p).state = .running
  one : ∀ i j p, (loc i).code.proc = some p → (loc j).code.proc = some p → i = j
  saved : ∀ p ret, m.saved p = .clock ret → ret.myproc = some p

/-- The continuations in `clockintr` are those of the processes that yielded there. -/
theorem SchedStep.saved {h h' : Hart} {m m' : Machine} (hstep : SchedStep h m h' m')
    (hsaved : ∀ p ret, m.saved p = .clock ret → ret.myproc = some p) (p : ProcIdx) (ret : Return)
    (hp : m'.saved p = .clock ret) : ret.myproc = some p := by
  cases hstep with
  | keep _ _ _ heq | syscall _ _ _ heq =>
    rw [heq] at hp
    exact hsaved p ret hp
  | search | skip | uncharged | charge | boost => exact hsaved p ret hp
  | dispatch level q =>
    rw [(dispatch_procs q h m).2.2.2] at hp
    exact hsaved p ret hp
  | expire r q hcode hproc =>
    by_cases hpq : p = q
    · subst hpq
      simp only [Machine.switchOut, Function.update_self, Saved.clock.injEq] at hp
      exact hp ▸ hproc
    · simp only [Machine.switchOut, Function.update_of_ne hpq] at hp
      exact hsaved p ret hp
  | leave q k hcode hcode' heq =>
    rw [heq] at hp
    by_cases hpq : p = q
    · simp [hpq] at hp
    · rw [Function.update_of_ne hpq] at hp
      exact hsaved p ret hp
  | alloc r q =>
    by_cases hpq : p = q
    · simp [Machine.switchOut, hpq] at hp
    · simp only [Machine.switchOut, Function.update_of_ne hpq] at hp
      exact hsaved p ret hp

theorem Exclusive.step {ι : Type*} [DecidableEq ι] {loc : ι → Hart} {m m' : Machine} {i : ι}
    {h' : Hart} (hex : Exclusive loc m) (hstep : SchedStep (loc i) m h' m') :
    Exclusive (Function.update loc i h') m' := by
  -- the process of another hart goes on running
  have hother : ∀ j ≠ i, ∀ p, (loc j).code.proc = some p → (m'.procs p).state = .running := by
    intro j hj p hp
    rcases hstep.running (hex.running j p hp) with hrun | ⟨hp', -⟩
    · exact hrun
    · exact absurd (hex.one j i p hp hp') hj
  have hself : ∀ p, h'.code.proc = some p →
      (m'.procs p).state = .running ∧ ∀ j ≠ i, (loc j).code.proc ≠ some p := by
    intro p hp
    rcases hstep.proc hex.saved hp with hold | ⟨hready, hrun⟩
    · rcases hstep.running (hex.running i p hold) with hrun | ⟨-, hnone⟩
      · exact ⟨hrun, fun j hj hp' => hj (hex.one j i p hp' hold)⟩
      · rw [hnone] at hp
        cases hp
    · refine ⟨hrun, fun j hj hp' => ?_⟩
      have := hex.running j p hp'
      simp [hready] at this
  refine ⟨fun j p hp => ?_, fun j k p hj hk => ?_, hstep.saved hex.saved⟩
  · by_cases hji : j = i
    · subst hji
      rw [Function.update_self] at hp
      exact (hself p hp).1
    · rw [Function.update_of_ne hji] at hp
      exact hother j hji p hp
  · by_cases hji : j = i
    · by_cases hki : k = i
      · exact hji.trans hki.symm
      · subst hji
        rw [Function.update_self] at hj
        rw [Function.update_of_ne hki] at hk
        exact absurd hk ((hself p hj).2 k hki)
    · rw [Function.update_of_ne hji] at hj
      by_cases hki : k = i
      · subst hki
        rw [Function.update_self] at hk
        exact absurd hj ((hself p hk).2 j hji)
      · rw [Function.update_of_ne hki] at hk
        exact hex.one j k p hj hk

end Xv6Swap.Trap
