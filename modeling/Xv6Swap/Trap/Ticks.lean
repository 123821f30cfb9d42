import Xv6Swap.Trap.Machine

/-!
# Ticks on a single hart

`clockintr` counts a tick, accounts it to the running process, makes the priority boost and programs
the timer for the next tick, in this order; the accounting may `yield`. `ClockStep` is what a step
can do as far as this is concerned.

A log records the increments of `ticks` and the runs of the boost's loop. Without a `yield` two
increments are a timer period apart (`ticks_spaced`); with one, the interrupt is still pending when
the scheduler enables interrupts, and the tick is counted a second time (`expiry_counted_twice`).
-/

namespace Xv6Swap.Trap

open Interleave
open Paging (ProcIdx)

/-! ## What a step does to the clock -/

/-- The code is `clockintr`. -/
def Code.inClock : Code → Bool
  | .clockintr _ _ => true
  | _ => false

/-- The code decides by `scause` what to do about a trap. -/
def Code.onTrap : Code → Bool
  | .usertrap _ => true
  | .devintr _ => true
  | _ => false

/-- The counters, the time and the continuations in `clockintr` stay. -/
structure SameClock (m m' : Machine) : Prop where
  time : m'.time = m.time
  ticks : m'.ticks = m.ticks
  global : m'.mlfqGlobalTicks = m.mlfqGlobalTicks
  saved : ∀ p, m'.saved p = m.saved p ∨ ∀ ret, m'.saved p ≠ .clock ret

theorem SameClock.refl (m : Machine) : SameClock m m := ⟨rfl, rfl, rfl, fun _ => .inl rfl⟩

theorem SameClock.modify (m : Machine) (p : ProcIdx) (f : Proc → Proc) :
    SameClock m (m.modify p f) :=
  ⟨rfl, rfl, rfl, fun _ => .inl rfl⟩

theorem SameClock.modify_modify (m : Machine) (p : ProcIdx) (f g : Proc → Proc) :
    SameClock m ((m.modify p f).modify p g) :=
  ⟨rfl, rfl, rfl, fun _ => .inl rfl⟩

theorem SameClock.switchOut (m : Machine) (p : ProcIdx) {s : Saved} (hs : ∀ ret, s ≠ .clock ret)
    (f : Proc → Proc) : SameClock m (m.switchOut p s f) := by
  refine ⟨rfl, rfl, rfl, fun q => ?_⟩
  by_cases hq : q = p
  · subst hq
    exact .inr fun ret => by
      simpa only [Machine.switchOut, Function.update_self] using hs ret
  · exact .inl (Function.update_of_ne hq _ _)

/-- A step of the boot hart, as far as the clock is concerned. -/
inductive ClockStep (h : Hart) (m : Machine) : Hart → Machine → Prop
  | pass (n : ℕ) : ClockStep h m h { m with time := m.time + n }
  | trap (r : Regs) (code : Code) (hon : h.code.intrOn = true)
      (htimer : r.scause = scauseTimer → h.stimecmp ≤ m.time) (hcode : code.onTrap = true) :
      ClockStep h m { h with regs := r, code := code } m
  | enter (ret : Return) {m' : Machine} (hon : h.code.onTrap = true)
      (htimer : h.regs.scause = scauseTimer) (hm : SameClock m m') :
      ClockStep h m { h with code := .clockintr .tick ret } m'
  | tick (ret : Return) (hcode : h.code = .clockintr .tick ret) :
      ClockStep h m { h with code := .clockintr .account ret }
        { m with
          ticks := m.ticks + 1
          mlfqGlobalTicks := m.mlfqGlobalTicks + 1
          procs := m.procs.wakeup ret.myproc .ticks }
  | account (ret : Return) {m' : Machine} (hcode : h.code = .clockintr .account ret)
      (hm : SameClock m m') : ClockStep h m { h with code := .clockintr .boost ret } m'
  | yield (ret : Return) (p : ProcIdx) (f : Proc → Proc) (hcode : h.code = .clockintr .account ret)
      (hexpires : m.expires ret = true) :
      ClockStep h m { h with code := .scheduler } (m.switchOut p (.clock ret) f)
  | boost (ret : Return) (hcode : h.code = .clockintr .boost ret) :
      ClockStep h m { h with code := .clockintr .rearm ret }
        (if m.mlfqGlobalTicks % 128 = 0 then { m with procs := m.procs.boost } else m)
  | rearm (ret : Return) {h' : Hart} (hcode : h.code = .clockintr .rearm ret)
      (hcmp : h'.stimecmp = m.time + 1000000) (hon : h'.code.intrOn = true) : ClockStep h m h' m
  | resume (p : ProcIdx) (ret : Return) {m' : Machine} (hsaved : m.saved p = .clock ret)
      (hcode : h.code.inClock = false) (hm : SameClock m m') :
      ClockStep h m { h with code := .clockintr .boost ret } m'
  | other {h' : Hart} {m' : Machine} (hcode : h.code.inClock = false)
      (hcode' : h'.code.inClock = false) (htrap : h'.code.onTrap = false)
      (hcmp : h'.stimecmp = h.stimecmp) (hm : SameClock m m') : ClockStep h m h' m'

theorem usertrapEnd_intrOn (p : ProcIdx) (h : Hart) (m : Machine) :
    (usertrapEnd p h m).code.intrOn = true ∧ (usertrapEnd p h m).stimecmp = h.stimecmp := by
  unfold usertrapEnd
  split <;> exact ⟨rfl, rfl⟩

theorem trapReturn_intrOn (ret : Return) (h : Hart) (m : Machine) :
    (trapReturn ret h m).code.intrOn = true ∧ (trapReturn ret h m).stimecmp = h.stimecmp := by
  cases ret with
  | user p => exact usertrapEnd_intrOn p h m
  | kernel p k sepc sstatus => exact ⟨rfl, rfl⟩
  | scheduler sepc sstatus => exact ⟨rfl, rfl⟩

/-- With interrupts enabled the code is neither in `clockintr` nor about to look at a trap. -/
theorem Code.of_intrOn {c : Code} (h : c.intrOn = true) : c.inClock = false ∧ c.onTrap = false := by
  cases c <;> first | exact ⟨rfl, rfl⟩ | cases h

/-- Code with interrupts enabled is reached, with the timer as it was. -/
theorem ClockStep.of_intrOn {h h' : Hart} {m m' : Machine} (hcode : h.code.inClock = false)
    (hon : h'.code.intrOn = true ∧ h'.stimecmp = h.stimecmp) (hm : SameClock m m') :
    ClockStep h m h' m' := by
  obtain ⟨hclock, htrap⟩ := Code.of_intrOn hon.1
  exact .other hcode hclock htrap hon.2 hm

theorem clockStep_usertrap {h : Hart} {p : ProcIdx} (m : Machine) (hcode : h.code = .usertrap p) :
    ClockStep h m (usertrap p h m).1 (usertrap p h m).2 := by
  have hclock : h.code.inClock = false := by rw [hcode]; rfl
  simp only [usertrap]
  split
  · exact .other hclock rfl rfl rfl (.refl m)
  split
  · split
    · exact .of_intrOn hclock ⟨rfl, rfl⟩ (.modify m p _)
    · exact .of_intrOn hclock ⟨rfl, rfl⟩ (.modify_modify m p _ _)
  split
  · exact .other hclock rfl rfl rfl (.modify m p _)
  split
  · rename_i htimer
    exact .enter (.user p) (by rw [hcode]; rfl) htimer (.modify m p _)
  split
  · exact .of_intrOn hclock ⟨rfl, rfl⟩ (.modify m p _)
  · exact .of_intrOn hclock (usertrapEnd_intrOn _ _ _) (.modify_modify m p _ _)

theorem clockStep_devintr {h : Hart} {ret : Return} (m : Machine) (hcode : h.code = .devintr ret) :
    ClockStep h m (devintr ret h) m := by
  have hclock : h.code.inClock = false := by rw [hcode]; rfl
  unfold devintr
  split
  · exact .other hclock rfl rfl rfl (.refl m)
  split
  · exact .other hclock rfl rfl rfl (.refl m)
  split
  · rename_i htimer
    exact .enter ret (by rw [hcode]; rfl) htimer (.refl m)
  · exact .other hclock rfl rfl rfl (.refl m)

theorem clockStep_clockintr {h : Hart} {pc : ClockPc} {ret : Return} (m : Machine)
    (hcode : h.code = .clockintr pc ret) :
    ClockStep h m (clockintr true pc ret h m).1 (clockintr true pc ret h m).2 := by
  cases pc with
  | tick => exact .tick ret hcode
  | account =>
    simp only [clockintr]
    cases hproc : ret.myproc with
    | none => exact .account ret hcode (.refl m)
    | some p =>
      dsimp only
      split
      · rename_i hrunning
        split
        · rename_i hexpires
          refine .yield ret p _ hcode ?_
          simp [Machine.expires, hproc, hrunning, hexpires]
        · exact .account ret hcode (.modify m p _)
      · exact .account ret hcode (.refl m)
  | boost => exact .boost ret hcode
  | rearm =>
    obtain ⟨hon, hcmp⟩ := trapReturn_intrOn ret { h with stimecmp := m.time + 1000000 } m
    exact .rearm ret hcode hcmp hon

theorem clockStep_scan {h : Hart} {level : Fin 4} {p : ProcIdx} (m : Machine)
    (hcode : h.code = .scan level p) :
    ClockStep h m (scan level p h m).1 (scan level p h m).2 := by
  have hclock : h.code.inClock = false := by rw [hcode]; rfl
  unfold scan
  split
  · unfold dispatch
    dsimp only
    split
    · exact .of_intrOn hclock ⟨rfl, rfl⟩ (.modify m p _)
    · exact .of_intrOn hclock ⟨rfl, rfl⟩ (.modify_modify m p _ _)
    · rename_i ret hsaved
      exact .resume p ret hsaved hclock (.modify m p _)
  · have hnext : (scanNext level p).inClock = false ∧ (scanNext level p).onTrap = false := by
      unfold scanNext
      split
      · exact ⟨rfl, rfl⟩
      · split <;> exact ⟨rfl, rfl⟩
    exact .other hclock hnext.1 hnext.2 rfl (.refl m)

theorem clockStep_of_runStep {h h' : Hart} {m m' : Machine}
    (hstep : runStep true h m = some (h', m')) : ClockStep h m h' m' := by
  unfold runStep at hstep
  split at hstep
  · rename_i p hcode
    obtain ⟨rfl, rfl⟩ := Prod.mk.inj (Option.some.inj hstep)
    exact clockStep_usertrap m hcode
  · rename_i p hcode
    obtain ⟨rfl, rfl⟩ := Prod.mk.inj (Option.some.inj hstep)
    exact .of_intrOn (by rw [hcode]; rfl) ⟨rfl, rfl⟩ (.refl m)
  · rename_i p va hcode
    obtain ⟨rfl, rfl⟩ := Prod.mk.inj (Option.some.inj hstep)
    exact .of_intrOn (by rw [hcode]; rfl) ⟨rfl, rfl⟩ (.refl m)
  · rename_i ret hcode
    obtain ⟨rfl, rfl⟩ := Prod.mk.inj (Option.some.inj hstep)
    exact clockStep_devintr m hcode
  · rename_i ret hcode
    obtain ⟨rfl, rfl⟩ := Prod.mk.inj (Option.some.inj hstep)
    exact .of_intrOn (by rw [hcode]; rfl) (trapReturn_intrOn ret h m) (.refl m)
  · rename_i pc ret hcode
    obtain ⟨rfl, rfl⟩ := Prod.mk.inj (Option.some.inj hstep)
    exact clockStep_clockintr m hcode
  · rename_i hcode
    obtain ⟨rfl, rfl⟩ := Prod.mk.inj (Option.some.inj hstep)
    exact .of_intrOn (by rw [hcode]; rfl) ⟨rfl, rfl⟩ (.refl m)
  · rename_i hcode
    obtain ⟨rfl, rfl⟩ := Prod.mk.inj (Option.some.inj hstep)
    exact .other (by rw [hcode]; rfl) rfl rfl rfl (.refl m)
  · rename_i level p hcode
    obtain ⟨rfl, rfl⟩ := Prod.mk.inj (Option.some.inj hstep)
    exact clockStep_scan m hcode
  · rename_i hcode
    obtain ⟨rfl, rfl⟩ := Prod.mk.inj (Option.some.inj hstep)
    exact .other (by rw [hcode]; rfl) rfl rfl rfl (.refl m)
  all_goals cases hstep

theorem clockStep_of_trapStep {r : Regs} {h h' : Hart} {m m' : Machine}
    (hstep : trapStep r h m = some (h', m')) : ClockStep h m h' m' := by
  have hallowed : decide (r.scause = scauseExternal ∨
      r.scause = scauseTimer ∧ h.stimecmp ≤ m.time) = true →
      r.scause = scauseTimer → h.stimecmp ≤ m.time := by
    intro hdec htimer
    rcases of_decide_eq_true hdec with hext | ⟨-, hle⟩
    · rw [htimer] at hext
      exact absurd hext (by decide)
    · exact hle
  unfold trapStep at hstep
  dsimp only at hstep
  split at hstep
  · rename_i p hcode
    split at hstep
    · rename_i hok
      obtain ⟨rfl, rfl⟩ := Prod.mk.inj (Option.some.inj hstep)
      refine .trap r _ (by rw [hcode]; rfl) (fun htimer => ?_) rfl
      rcases hok.2 with hdec | ⟨hne, -⟩
      · exact hallowed hdec htimer
      · exact absurd htimer hne
    · cases hstep
  · rename_i p k hcode
    split at hstep
    · rename_i hok
      obtain ⟨rfl, rfl⟩ := Prod.mk.inj (Option.some.inj hstep)
      exact .trap r _ (by rw [hcode]; rfl) (hallowed hok.2) rfl
    · cases hstep
  · rename_i hcode
    split at hstep
    · rename_i hok
      obtain ⟨rfl, rfl⟩ := Prod.mk.inj (Option.some.inj hstep)
      exact .trap r _ (by rw [hcode]; rfl) (hallowed hok.2) rfl
    · cases hstep
  · cases hstep

theorem clockStep_of_finishStep {ret : UInt64} {p : ProcIdx} {k : KernelCode} {h h' : Hart}
    {m m' : Machine} (hcode : h.code.inClock = false)
    (hstep : finishStep ret p k h m = some (h', m')) : ClockStep h m h' m' := by
  unfold finishStep at hstep
  split at hstep
  · obtain ⟨rfl, rfl⟩ := Prod.mk.inj (Option.some.inj hstep)
    exact .of_intrOn hcode (usertrapEnd_intrOn _ _ _) (.refl m)
  · obtain ⟨rfl, rfl⟩ := Prod.mk.inj (Option.some.inj hstep)
    refine .of_intrOn hcode (usertrapEnd_intrOn _ _ _) ?_
    split
    · exact .modify m p _
    · exact .refl m
  · obtain ⟨rfl, rfl⟩ := Prod.mk.inj (Option.some.inj hstep)
    exact .other hcode rfl rfl rfl (.switchOut m p (by intro ret h; cases h) _)
  all_goals cases hstep

theorem clockStep_of_sleepStep {chan : Chan} {p : ProcIdx} {k : KernelCode} {h h' : Hart}
    {m m' : Machine} (hcode : h.code.inClock = false)
    (hstep : sleepStep chan p k h m = some (h', m')) : ClockStep h m h' m' := by
  unfold sleepStep at hstep
  split at hstep
  · cases hstep
  · cases hstep
  · obtain ⟨rfl, rfl⟩ := Prod.mk.inj (Option.some.inj hstep)
    exact .other hcode rfl rfl rfl (.switchOut m p (by intro ret h; cases h) _)

theorem sameClock_of_otherStep {a : Action} {p : ProcIdx} {m m' : Machine}
    (hstep : otherStep a p m = some m') : SameClock m m' := by
  unfold otherStep at hstep
  split at hstep
  · obtain rfl := Option.some.inj hstep
    exact ⟨rfl, rfl, rfl, fun _ => .inl rfl⟩
  · split at hstep
    · obtain rfl := Option.some.inj hstep
      exact .switchOut m _ (by intro ret h; cases h) _
    · cases hstep
  · split at hstep
    · obtain rfl := Option.some.inj hstep
      exact .modify m _ _
    · cases hstep
  · split at hstep
    · obtain rfl := Option.some.inj hstep
      exact .modify m _ _
    · cases hstep
  · obtain rfl := Option.some.inj hstep
    exact .modify m _ _
  · cases hstep

theorem clockStep_of_next {a : Action} {h h' : Hart} {m m' : Machine}
    (hstep : (trapSystem ()).next () a h m = some (h', m')) : ClockStep h m h' m' := by
  have hkernel : ∀ {p k}, h.code = .kernel p k → h.code.inClock = false ∧ h.code.intrOn = true := by
    intro p k hcode
    rw [hcode]
    exact ⟨rfl, rfl⟩
  cases nextStep_of_next hstep with
  | trap _ hs => exact clockStep_of_trapStep hs
  | @pass n _ => exact .pass n
  | run _ hs => exact clockStep_of_runStep hs
  | finish hcode hs => exact clockStep_of_finishStep (hkernel hcode).1 hs
  | sleep hcode hs => exact clockStep_of_sleepStep (hkernel hcode).1 hs
  | other hcode hs =>
    exact .of_intrOn (hkernel hcode).1 ⟨(hkernel hcode).2, rfl⟩ (sameClock_of_otherStep hs)
  | device hcode =>
    have hclock : h.code.inClock = false ∧ h.code.onTrap = false := by
      rw [hcode]
      exact ⟨rfl, rfl⟩
    exact .other hclock.1 hclock.1 hclock.2 rfl ⟨rfl, rfl, rfl, fun _ => .inl rfl⟩

/-! ## The log -/

/-- What the log records: `ticks` is incremented, with the value `mlfq_global_ticks` gets and the
time; the loop of the priority boost has run, with the table it leaves. -/
inductive ClockEvent
  | tick (count : ℤ) (time : ℕ)
  | boost (procs : ProcTable)

/-- An increment is a change of `ticks`; the loop runs between the test of the counter and the
programming of the timer. -/
def recordClock (_ : Unit) (before after : Hart × Machine) (log : List ClockEvent) :
    List ClockEvent :=
  if after.2.ticks ≠ before.2.ticks then
    log ++ [.tick after.2.mlfqGlobalTicks.toInt before.2.time]
  else
    match before.1.code, after.1.code with
    | .clockintr .boost _, .clockintr .rearm _ =>
      if before.2.mlfqGlobalTicks % 128 = 0 then log ++ [.boost after.2.procs] else log
    | _, _ => log

/-- One hart, with the log. -/
def clockSystem : System Unit Action Hart (Machine × List ClockEvent) :=
  (trapSystem ()).withGhost recordClock

def clockStart (regs : Regs) (stimecmp time : ℕ) (procs : ProcTable) :
    Cfg Unit Hart (Machine × List ClockEvent) :=
  ⟨fun _ => ⟨regs, stimecmp, .scheduler⟩, ⟨time, 0, 0, procs, fun _ => .forkret⟩, []⟩

theorem recordClock_keep {h h' : Hart} {m m' : Machine} (hticks : m'.ticks = m.ticks)
    (hcode : ∀ ret, h.code = .clockintr .boost ret → h'.code = h.code) (log : List ClockEvent) :
    recordClock () (h, m) (h', m') log = log := by
  unfold recordClock
  rw [if_neg (by simp [hticks])]
  dsimp only
  split
  · rename_i ret _ hbefore hafter
    have heq := hcode ret hbefore
    rw [hbefore, hafter] at heq
    cases heq
  · rfl

theorem recordClock_tick {h h' : Hart} {m m' : Machine} (hticks : m'.ticks = m.ticks + 1)
    (log : List ClockEvent) : recordClock () (h, m) (h', m') log =
      log ++ [.tick m'.mlfqGlobalTicks.toInt m.time] := by
  unfold recordClock
  rw [if_pos]
  rw [hticks]
  intro heq
  simp at heq

/-! ## The time between two ticks -/

/-- The times at which `ticks` was incremented. -/
def tickTimes (log : List ClockEvent) : List ℕ :=
  log.filterMap fun e =>
    match e with
    | .tick _ time => some time
    | .boost _ => none

/-- `clockintr` has counted the tick and not yet programmed the timer. -/
def Code.counted : Code → Bool
  | .clockintr .tick _ => false
  | .clockintr _ _ => true
  | _ => false

/-- The hart has taken a timer interrupt and not yet counted it. -/
def Hart.timerTaken (h : Hart) : Prop :=
  h.code.onTrap = true ∧ h.regs.scause = scauseTimer ∨ ∃ ret, h.code = .clockintr .tick ret

/-- No process uses up its quantum at a tick. -/
def NoYield (c : Cfg Unit Hart (Machine × List ClockEvent)) (_ : Unit) (_ : Action) : Prop :=
  ∀ ret, (c.loc ()).code = .clockintr .account ret → c.mem.1.expires ret = false

structure TickInv (c : Cfg Unit Hart (Machine × List ClockEvent)) : Prop where
  past : ∀ t ∈ tickTimes c.mem.2, t ≤ c.mem.1.time
  armed : (c.loc ()).code.counted = false →
    ∀ t ∈ tickTimes c.mem.2, t + 1000000 ≤ (c.loc ()).stimecmp
  taken : (c.loc ()).timerTaken → (c.loc ()).stimecmp ≤ c.mem.1.time
  saved : ∀ p ret, c.mem.1.saved p ≠ .clock ret
  spaced : (tickTimes c.mem.2).Pairwise fun t t' => t + 1000000 ≤ t'

theorem tickInv_start (regs : Regs) (stimecmp time : ℕ) (procs : ProcTable) :
    TickInv (clockStart regs stimecmp time procs) where
  past t ht := by cases ht
  armed _ t ht := by cases ht
  taken h := by
    rcases h with ⟨h, -⟩ | ⟨ret, h⟩
    · cases h
    · cases h
  saved p ret h := by cases h
  spaced := .nil

/-- A step that counts no tick. -/
theorem TickInv.keep {h h' : Hart} {m m' : Machine} {log log' : List ClockEvent}
    (hinv : TickInv ⟨fun _ => h, m, log⟩) (hlog : tickTimes log' = tickTimes log)
    (htime : m.time ≤ m'.time)
    (harmed : h'.code.counted = false → ∀ t ∈ tickTimes log, t + 1000000 ≤ h'.stimecmp)
    (htaken : h'.timerTaken → h'.stimecmp ≤ m'.time)
    (hsaved : ∀ p, m'.saved p = m.saved p ∨ ∀ ret, m'.saved p ≠ .clock ret) :
    TickInv ⟨fun _ => h', m', log'⟩ := by
  refine ⟨fun t ht => ?_, fun hcode t ht => ?_, htaken, fun p => ?_, ?_⟩
  · rw [hlog] at ht
    exact (hinv.past t ht).trans htime
  · rw [hlog] at ht
    exact harmed hcode t ht
  · rcases hsaved p with heq | hne
    · intro ret
      rw [heq]
      exact hinv.saved p ret
    · exact hne
  · rw [hlog]
    exact hinv.spaced

theorem counted_of_onTrap {c : Code} (h : c.onTrap = true) : c.counted = false := by
  cases c <;> first | rfl | cases h

theorem counted_of_not_inClock {c : Code} (h : c.inClock = false) : c.counted = false := by
  cases c <;> first | rfl | cases h

theorem not_timerTaken {h : Hart} (htrap : h.code.onTrap = false)
    (hcode : ∀ ret, h.code ≠ .clockintr .tick ret) : ¬ h.timerTaken := by
  rintro (⟨h, -⟩ | ⟨ret, h⟩)
  · rw [htrap] at h
    cases h
  · exact hcode ret h

theorem TickInv.step {h h' : Hart} {m m' : Machine} {log : List ClockEvent}
    (hinv : TickInv ⟨fun _ => h, m, log⟩)
    (hok : ∀ ret, h.code = .clockintr .account ret → m.expires ret = false)
    (hstep : ClockStep h m h' m') :
    TickInv ⟨fun _ => h', m', recordClock () (h, m) (h', m') log⟩ := by
  cases hstep with
  | pass n =>
    rw [recordClock_keep (by rfl) (by intro _ _; rfl)]
    exact hinv.keep rfl (Nat.le_add_right _ _) hinv.armed
      (fun ht => (hinv.taken ht).trans (Nat.le_add_right _ _)) fun _ => .inl rfl
  | trap r code hon htimer hcode =>
    rw [recordClock_keep (by rfl) fun ret hc => by rw [hc] at hon; cases hon]
    refine hinv.keep rfl le_rfl (fun _ => ?_) (fun ht => ?_) fun _ => .inl rfl
    · exact hinv.armed (counted_of_not_inClock (Code.of_intrOn hon).1)
    · rcases ht with ⟨-, hcause⟩ | ⟨ret, hc⟩
      · exact htimer hcause
      · dsimp only at hc
        rw [hc] at hcode
        cases hcode
  | enter ret hon htimer hm =>
    rw [recordClock_keep hm.ticks fun ret hc => by rw [hc] at hon; cases hon]
    refine hinv.keep rfl hm.time.ge (fun _ => hinv.armed (counted_of_onTrap hon))
      (fun _ => ?_) hm.saved
    rw [hm.time]
    exact hinv.taken (.inl ⟨hon, htimer⟩)
  | tick ret hcode =>
    -- the timer had expired, so all earlier ticks are far enough in the past
    have harmed := hinv.armed (by dsimp only; rw [hcode]; rfl)
    have htaken := hinv.taken (.inr ⟨ret, hcode⟩)
    have hspace : ∀ t ∈ tickTimes log, t + 1000000 ≤ m.time := fun t ht =>
      (harmed t ht).trans htaken
    rw [recordClock_tick rfl]
    have htimes : tickTimes (log ++ [.tick (m.mlfqGlobalTicks + 1).toInt m.time]) =
        tickTimes log ++ [m.time] := by
      simp [tickTimes]
    refine ⟨fun t ht => ?_, fun h => (by cases h), fun h => ?_, hinv.saved, ?_⟩
    · rw [htimes] at ht
      rcases List.mem_append.1 ht with ht | ht
      · exact hinv.past t ht
      · exact (List.mem_singleton.1 ht).le
    · exact absurd h (not_timerTaken rfl (by intro ret h; cases h))
    · rw [htimes, List.pairwise_append]
      refine ⟨hinv.spaced, List.pairwise_singleton _ _, fun t ht t' ht' => ?_⟩
      rw [List.mem_singleton.1 ht']
      exact hspace t ht
  | account ret hcode hm =>
    rw [recordClock_keep hm.ticks fun ret hc => by rw [hcode] at hc; cases hc]
    exact hinv.keep rfl hm.time.ge (fun h => by cases h)
      (fun h => absurd h (not_timerTaken rfl (by intro ret h; cases h))) hm.saved
  | yield ret p f hcode hexpires =>
    rw [hok ret hcode] at hexpires
    cases hexpires
  | boost ret hcode =>
    have hclock : SameClock m
        (if m.mlfqGlobalTicks % 128 = 0 then { m with procs := m.procs.boost } else m) := by
      split
      · exact ⟨rfl, rfl, rfl, fun _ => .inl rfl⟩
      · exact .refl m
    have hlog : tickTimes (recordClock () (h, m) ({ h with code := .clockintr .rearm ret },
        if m.mlfqGlobalTicks % 128 = 0 then { m with procs := m.procs.boost } else m) log) =
          tickTimes log := by
      simp only [recordClock, hclock.ticks, ne_eq, not_true_eq_false, if_false, hcode]
      split
      · simp [tickTimes]
      · rfl
    exact hinv.keep hlog hclock.time.ge (fun h => by cases h)
      (fun h => absurd h (not_timerTaken rfl (by intro ret h; cases h))) hclock.saved
  | rearm ret hcode hcmp hon =>
    obtain ⟨hclock, htrap⟩ := Code.of_intrOn hon
    rw [recordClock_keep (by rfl) fun ret hc => by rw [hcode] at hc; cases hc]
    refine hinv.keep rfl le_rfl (fun _ t ht => ?_) (fun ht => ?_) fun _ => .inl rfl
    · rw [hcmp]
      exact Nat.add_le_add_right (hinv.past t ht) _
    · exact absurd ht (not_timerTaken htrap fun ret hc => by rw [hc] at hclock; cases hclock)
  | resume p ret hsaved hcode hm => exact absurd hsaved (hinv.saved p ret)
  | other hcode hcode' htrap hcmp hm =>
    rw [recordClock_keep hm.ticks fun ret hc => by rw [hc] at hcode; cases hcode]
    refine hinv.keep rfl hm.time.ge (fun _ => ?_) (fun ht => ?_) hm.saved
    · rw [hcmp]
      exact hinv.armed (counted_of_not_inClock hcode)
    · exact absurd ht (not_timerTaken htrap fun ret hc => by rw [hc] at hcode'; cases hcode')

/-- **Each expiry of the timer is counted once**, in every run in which no process uses up its
quantum at a tick: two increments of `ticks` are at least 1000000 time units apart. -/
theorem ticks_spaced (regs : Regs) (stimecmp time : ℕ) (procs : ProcTable)
    (c : Cfg Unit Hart (Machine × List ClockEvent))
    (hrun : clockSystem.Reaches NoYield (clockStart regs stimecmp time procs) c) :
    (tickTimes c.mem.2).Pairwise fun t t' => t + 1000000 ≤ t' := by
  have hinv : TickInv c := by
    refine hrun.inv (fun c i a l g hok hinv hn => ?_) (tickInv_start regs stimecmp time procs)
    obtain ⟨hnext, hghost⟩ := System.withGhost_next hn
    have hstep := hinv.step hok (clockStep_of_next hnext)
    rw [← hghost] at hstep
    exact hstep
  exact hinv.spaced

instance (c : Cfg Unit Hart (Machine × List ClockEvent)) (i : Unit) (a : Action) :
    Decidable (NoYield c i a) :=
  decidable_of_iff ((match (c.loc ()).code with
    | .clockintr .account ret => c.mem.1.expires ret
    | _ => false) = false) <| by
      refine ⟨fun h ret hcode => ?_, fun h => ?_⟩
      · simpa only [hcode] using h
      · split
        · rename_i ret hcode
          exact h ret hcode
        · rfl

/-- A process is found in `n` steps and runs in user mode for two timer periods, up to the second
increment of `ticks`. -/
def twoPeriods (n : ℕ) : List (Unit × Action) :=
  List.replicate n ((), .run) ++
    [((), .pass 1000000), ((), .trap timerUser), ((), .run), ((), .run), ((), .run), ((), .run),
      ((), .run), ((), .pass 1000000), ((), .trap timerUser), ((), .run), ((), .run)]

theorem twoPeriods_noYield : (clockSystem.execWhile NoYield (twoPeriods 67)
    (clockStart timerUser 1000000 0 (runnableProcs 1 1))).isSome := by
  decide +kernel

/-- A process of level 1, whose quantum is four ticks. -/
theorem ticks_spaced_twoPeriods :
    ∃ c, clockSystem.Reaches NoYield (clockStart timerUser 1000000 0 (runnableProcs 1 1)) c ∧
      tickTimes c.mem.2 = [1000000, 2000000] ∧
      (tickTimes c.mem.2).Pairwise fun t t' => t + 1000000 ≤ t' := by
  have hrun := System.reaches_of_execWhile (Option.some_get twoPeriods_noYield).symm
  refine ⟨_, hrun, ?_, ticks_spaced _ _ _ _ _ hrun⟩
  decide +kernel

/-- At level 0 the second tick uses up the quantum. The process yields before the timer is
programmed, and the scheduler's `intr_on` takes the same interrupt once more. -/
def expiringPeriod : List (Unit × Action) :=
  twoPeriods 3 ++ [((), .run), ((), .run), ((), .trap timerKernel), ((), .run), ((), .run)]

theorem expiringPeriod_runs : (clockSystem.exec expiringPeriod
    (clockStart timerUser 1000000 0 (runnableProcs 1 0))).isSome := by
  decide +kernel

theorem expiry_counted_twice :
    ∃ c, clockSystem.Reaches System.any (clockStart timerUser 1000000 0 (runnableProcs 1 0)) c ∧
      tickTimes c.mem.2 = [1000000, 2000000, 2000000] ∧
      ¬ (tickTimes c.mem.2).Pairwise fun t t' => t + 1000000 ≤ t' := by
  refine ⟨_, System.reaches_of_exec (Option.some_get expiringPeriod_runs).symm, ?_, ?_⟩
  · decide +kernel
  · decide +kernel

end Xv6Swap.Trap
