import Xv6Swap.Foundations.Interleave
import Xv6Swap.Paging.Tables

/-!
# Traps, the timer and the scheduler

The harts of the machine, executing user code, `usertrap`, `kerneltrap`, `devintr` and `clockintr`
of `kernel/trap.c` and `scheduler`, `yield`, `sleep` and `wakeup` of `kernel/proc.c`. Each hart has
its own trap registers and timer; the process table is shared. An atomic step is a section under the
lock of a process or under `tickslock`, or a stretch of code local to the hart.

A trap overwrites all trap registers of its hart. It is taken in user mode, or in the kernel while
interrupts are enabled: in the kernel code of a process, and in the scheduler between `intr_on` and
`intr_off`. The timer interrupt is pending while `time ≥ stimecmp`, and then a hart with interrupts
enabled does nothing but take an interrupt. The handler of an external interrupt (`uartintr` or
`virtio_disk_intr`) may wake up the sleepers on any channels before it returns. What the kernel does
for a process with interrupts enabled (a system call, `vmfault`, `kexit`) is left open: it may
sleep, wake others up, create and reap processes, and return when it likes.

`yield` inside `clockintr` leaves the rest of the handler on the kernel stack of the process
(`Saved.clock`), to be executed when the process is next scheduled, on whatever hart.
-/

namespace Xv6Swap.Trap

open Interleave
open Paging (ProcIdx nProc_pos)

/-! ## Processes -/

inductive ProcState
  | unused
  | used
  | sleeping
  | runnable
  | running
  | zombie
  deriving DecidableEq

/-- What a process sleeps on: the address of `ticks`, or another. -/
inductive Chan
  | ticks
  | other (a : UInt64)
  deriving DecidableEq

-- The numerals of the scheduling levels.
instance neZero_four : NeZero 4 := ⟨by decide⟩

/-- The fields of `struct proc` that traps and scheduling use. The level is below 4. -/
structure Proc where
  state : ProcState
  chan : Option Chan
  killed : Bool
  level : Fin 4
  ticksUsed : Int32
  ticks : Fin 4 → Int32
  timesScheduled : Int32
  syscount : UInt64
  lastSyscallCount : UInt64
  /-- `trapframe->epc` -/
  epc : UInt64

abbrev ProcTable := ProcIdx → Proc

/-- Change the fields of one process. -/
def ProcTable.modify (t : ProcTable) (p : ProcIdx) (f : Proc → Proc) : ProcTable :=
  Function.update t p (f (t p))

/-- `wakeup(chan)` with `myproc() = self` -/
def ProcTable.wakeup (t : ProcTable) (self : Option ProcIdx) (chan : Chan) : ProcTable := fun p =>
  if some p ≠ self ∧ (t p).state = .sleeping ∧ (t p).chan = some chan then
    { t p with state := .runnable }
  else t p

/-- `allocproc`: what it does to an unused entry. -/
def Proc.alloc (p : Proc) : Proc :=
  { p with
    state := .used, level := 0, ticksUsed := 0, ticks := fun _ => 0, timesScheduled := 0
    syscount := 0, lastSyscallCount := 0 }

/-! ## Harts -/

/-- The trap registers of a hart. -/
structure Regs where
  scause : UInt64
  stval : UInt64
  sepc : UInt64
  sstatus : UInt64
  deriving DecidableEq

def scauseExternal : UInt64 := 0x8000000000000009

def scauseTimer : UInt64 := 0x8000000000000005

/-- `SSTATUS_SPP`: the trap came from supervisor mode. -/
def sstatusSpp : UInt64 := 0x100

/-- The kernel code of a process after `intr_on`. -/
inductive KernelCode
  | syscall
  /-- the arguments of `vmfault`: about to read `stval` -/
  | readStval
  /-- about to read `scause` -/
  | readScause (stval : UInt64)
  /-- in `vmfault(p->pagetable, va, read)` -/
  | vmfault (va : UInt64) (read : Bool)
  | kexit
  deriving DecidableEq

/-- Where an interrupt handler returns to: by `usertrap` to user mode, or by `kerneltrap`, which has
saved `sepc` and `sstatus`. -/
inductive Return
  | user (p : ProcIdx)
  | kernel (p : ProcIdx) (k : KernelCode) (sepc sstatus : UInt64)
  | scheduler (sepc sstatus : UInt64)
  deriving DecidableEq

/-- `myproc()` -/
def Return.myproc : Return → Option ProcIdx
  | .user p => some p
  | .kernel p _ _ _ => some p
  | .scheduler _ _ => none

/-- The parts of `clockintr`. -/
inductive ClockPc
  | tick
  | account
  | boost
  | rearm
  deriving DecidableEq

/-- What a hart executes. -/
inductive Code
  | user (p : ProcIdx)
  | usertrap (p : ProcIdx)
  | kernel (p : ProcIdx) (k : KernelCode)
  /-- in `kerneltrap`, before `devintr` -/
  | devintr (ret : Return)
  /-- in the handler of a device, called by `devintr` -/
  | deviceintr (ret : Return)
  | clockintr (pc : ClockPc) (ret : Return)
  /-- the top of the scheduler's loop -/
  | scheduler
  /-- between `intr_on` and `intr_off` -/
  | schedulerOn
  /-- looking for a process of the level, at the entry `p` -/
  | scan (level : Fin 4) (p : ProcIdx)
  | wfi
  | panicked
  deriving DecidableEq

/-- The process a hart executes for. -/
def Code.proc : Code → Option ProcIdx
  | .user p => some p
  | .usertrap p => some p
  | .kernel p _ => some p
  | .devintr ret => ret.myproc
  | .deviceintr ret => ret.myproc
  | .clockintr _ ret => ret.myproc
  | _ => none

/-- Interrupts are enabled. -/
def Code.intrOn : Code → Bool
  | .user _ => true
  | .kernel _ _ => true
  | .schedulerOn => true
  | _ => false

structure Hart where
  regs : Regs
  stimecmp : ℕ
  code : Code

/-- Where a process that is not running continues. -/
inductive Saved
  | forkret
  /-- in `sleep`, called by kernel code -/
  | kernel (k : KernelCode)
  /-- in the `yield` of `clockintr` -/
  | clock (ret : Return)
  deriving DecidableEq

/-- The state the harts share. -/
structure Machine where
  time : ℕ
  ticks : UInt32
  mlfqGlobalTicks : Int32
  procs : ProcTable
  saved : ProcIdx → Saved

def Machine.modify (m : Machine) (p : ProcIdx) (f : Proc → Proc) : Machine :=
  { m with procs := m.procs.modify p f }

/-- The process leaves the hart in the given state, to continue at `s`. -/
def Machine.switchOut (m : Machine) (p : ProcIdx) (s : Saved) (f : Proc → Proc) : Machine :=
  { m with procs := m.procs.modify p f, saved := Function.update m.saved p s }

/-! ## Returning from traps -/

/-- `prepare_return` and the return to user mode -/
def prepareReturn (p : ProcIdx) (h : Hart) (m : Machine) : Hart :=
  { h with regs := { h.regs with sepc := (m.procs p).epc }, code := .user p }

/-- The end of `usertrap`: `if(killed(p)) kexit(-1)`, then back to user mode. -/
def usertrapEnd (p : ProcIdx) (h : Hart) (m : Machine) : Hart :=
  if (m.procs p).killed then { h with code := .kernel p .kexit } else prepareReturn p h m

/-- The handler of an interrupt returns. `kerneltrap` restores `sepc` and `sstatus`. -/
def trapReturn (ret : Return) (h : Hart) (m : Machine) : Hart :=
  match ret with
  | .user p => usertrapEnd p h m
  | .kernel p k sepc sstatus =>
    { h with regs := { h.regs with sepc := sepc, sstatus := sstatus }, code := .kernel p k }
  | .scheduler sepc sstatus =>
    { h with regs := { h.regs with sepc := sepc, sstatus := sstatus }, code := .schedulerOn }

/-! ## The handlers -/

/-- `usertrap` up to the point where interrupts are enabled, `devintr` calls a handler or `usertrap`
returns -/
def usertrap (p : ProcIdx) (h : Hart) (m : Machine) : Hart × Machine :=
  if h.regs.sstatus &&& sstatusSpp ≠ 0 then ({ h with code := .panicked }, m)
  else
    let m := m.modify p fun q => { q with epc := h.regs.sepc }
    if h.regs.scause = 8 then
      if (m.procs p).killed then ({ h with code := .kernel p .kexit }, m)
      else ({ h with code := .kernel p .syscall },
        m.modify p fun q => { q with epc := q.epc + 4, syscount := q.syscount + 1 })
    else if h.regs.scause = scauseExternal then ({ h with code := .deviceintr (.user p) }, m)
    else if h.regs.scause = scauseTimer then ({ h with code := .clockintr .tick (.user p) }, m)
    else if h.regs.scause = 15 ∨ h.regs.scause = 13 then
      ({ h with code := .kernel p .readStval }, m)
    else
      let m := m.modify p fun q => { q with killed := true }
      (usertrapEnd p h m, m)

/-- `devintr`, called by `kerneltrap`, up to the call of a handler -/
def devintr (ret : Return) (h : Hart) : Hart :=
  if h.regs.sstatus &&& sstatusSpp = 0 then { h with code := .panicked }
  else if h.regs.scause = scauseExternal then { h with code := .deviceintr ret }
  else if h.regs.scause = scauseTimer then { h with code := .clockintr .tick ret }
  else { h with code := .panicked }

/-- `int quantum[4] = {2, 4, 8, 16}` -/
def quantum : Fin 4 → Int32
  | 0 => 2
  | 1 => 4
  | 2 => 8
  | 3 => 16

/-- The tick counted to the running process. -/
def Proc.countTick (p : Proc) : Proc :=
  { p with
    ticksUsed := p.ticksUsed + 1
    ticks := Function.update p.ticks p.level (p.ticks p.level + 1) }

/-- The tick uses up the quantum of the process. -/
def Proc.expires (p : Proc) : Bool := p.ticksUsed + 1 ≥ quantum p.level

/-- The process at the end of its quantum: one level down unless it made enough system calls. -/
def Proc.demote (p : Proc) : Proc :=
  let deltaS := p.syscount - p.lastSyscallCount
  let deltaT := p.ticksUsed.toInt64.toUInt64
  { p with
    level := if deltaS < deltaT ∧ p.level < 3 then p.level + 1 else p.level
    ticksUsed := 0 }

/-- The handler yields: the interrupted process is running and its quantum is used up. -/
def Machine.expires (m : Machine) (ret : Return) : Bool :=
  match ret.myproc with
  | some p => (m.procs p).state = .running && (m.procs p).expires
  | none => false

/-- The loop of the priority boost. -/
def ProcTable.boost (t : ProcTable) : ProcTable :=
  (List.finRange Paging.nProc).foldl (fun t p =>
    if (t p).state ≠ .unused ∧ (t p).state ≠ .zombie then
      t.modify p fun q => { q with level := 0, ticksUsed := 0 }
    else t) t

/-- The loop of the boost visits every process once. -/
theorem boost_foldl_apply {l : List ProcIdx} (hl : l.Nodup) (t : ProcTable) (p : ProcIdx) :
    l.foldl (fun t p =>
      if (t p).state ≠ .unused ∧ (t p).state ≠ .zombie then
        t.modify p fun q => { q with level := 0, ticksUsed := 0 }
      else t) t p =
    if p ∈ l ∧ (t p).state ≠ .unused ∧ (t p).state ≠ .zombie then
      { t p with level := 0, ticksUsed := 0 }
    else t p := by
  induction l generalizing t with
  | nil => simp
  | cons q l ih =>
    obtain ⟨hq, hl⟩ := List.nodup_cons.1 hl
    rw [List.foldl_cons, ih hl]
    by_cases hpq : p = q
    · subst hpq
      by_cases hlive : (t p).state ≠ .unused ∧ (t p).state ≠ .zombie
      · simp [hq, hlive, ProcTable.modify]
      · simp [hq, hlive]
    · have hsame : (if (t q).state ≠ .unused ∧ (t q).state ≠ .zombie then
          t.modify q fun q => { q with level := 0, ticksUsed := 0 } else t) p = t p := by
        split
        · simp [ProcTable.modify, hpq]
        · rfl
      simp only [hsame, List.mem_cons, hpq, false_or]

theorem ProcTable.boost_apply (t : ProcTable) (p : ProcIdx) : t.boost p =
    if (t p).state ≠ .unused ∧ (t p).state ≠ .zombie then { t p with level := 0, ticksUsed := 0 }
    else t p := by
  unfold ProcTable.boost
  rw [boost_foldl_apply (List.nodup_finRange _)]
  simp

theorem ProcTable.boost_state (t : ProcTable) (p : ProcIdx) : (t.boost p).state = (t p).state := by
  rw [boost_apply]
  split <;> rfl

/-- The next part of `clockintr`, on the hart with `cpuid() == 0` if `boot`. -/
def clockintr (boot : Bool) (pc : ClockPc) (ret : Return) (h : Hart) (m : Machine) :
    Hart × Machine :=
  match pc with
  | .tick =>
    ({ h with code := .clockintr .account ret },
      if boot then
        { m with
          ticks := m.ticks + 1
          mlfqGlobalTicks := m.mlfqGlobalTicks + 1
          procs := m.procs.wakeup ret.myproc .ticks }
      else m)
  | .account =>
    match ret.myproc with
    | none => ({ h with code := .clockintr .boost ret }, m)
    | some p =>
      if (m.procs p).state = .running then
        if (m.procs p).expires then
          -- `yield`
          ({ h with code := .scheduler }, m.switchOut p (.clock ret) fun q =>
            { q.countTick.demote with state := .runnable })
        else ({ h with code := .clockintr .boost ret }, m.modify p Proc.countTick)
      else ({ h with code := .clockintr .boost ret }, m)
  | .boost =>
    ({ h with code := .clockintr .rearm ret },
      if m.mlfqGlobalTicks % 128 = 0 then { m with procs := m.procs.boost } else m)
  | .rearm => (trapReturn ret { h with stimecmp := m.time + 1000000 } m, m)

/-! ## The scheduler -/

/-- `swtch` to the process `p`. A new process returns to user mode through `forkret`; that the first
one executes `fsinit` and `kexec("/init")` there, and may sleep in them, is left out. -/
def dispatch (p : ProcIdx) (h : Hart) (m : Machine) : Hart × Machine :=
  let m := m.modify p fun q =>
    { q with
      timesScheduled := q.timesScheduled + 1
      lastSyscallCount := q.syscount
      state := .running }
  match m.saved p with
  | .forkret => (prepareReturn p h m, m)
  | .kernel k => ({ h with code := .kernel p k }, m.modify p fun q => { q with chan := none })
  | .clock ret => ({ h with code := .clockintr .boost ret }, m)

/-- The search goes on behind the entry `p`. -/
def scanNext (level : Fin 4) (p : ProcIdx) : Code :=
  if hp : (p : ℕ) + 1 < Paging.nProc then .scan level ⟨p + 1, hp⟩
  else if hl : (level : ℕ) + 1 < 4 then .scan ⟨level + 1, hl⟩ ⟨0, nProc_pos⟩
  else .wfi

/-- One entry of the search. -/
def scan (level : Fin 4) (p : ProcIdx) (h : Hart) (m : Machine) : Hart × Machine :=
  if (m.procs p).state = .runnable ∧ (m.procs p).level = level then dispatch p h m
  else ({ h with code := scanNext level p }, m)

/-! ## Steps -/

/-- What may happen on a hart. -/
inductive Action
  /-- time passes -/
  | pass (n : ℕ)
  /-- a trap is taken, and the hardware sets the registers -/
  | trap (r : Regs)
  /-- the code goes on -/
  | run
  /-- kernel code returns, `vmfault` with the value `ret` -/
  | finish (ret : UInt64)
  | sleep (chan : Chan)
  | wakeup (chan : Chan)
  /-- `allocproc`, and the end of `kfork` -/
  | alloc (q : ProcIdx)
  | ready (q : ProcIdx)
  /-- `freeproc`, of a child that has exited or of one that could not be made -/
  | reap (q : ProcIdx)
  | kill (q : ProcIdx)

/-- The code of a hart goes on. -/
def runStep (boot : Bool) (h : Hart) (m : Machine) : Option (Hart × Machine) :=
  match h.code with
  | .usertrap p => some (usertrap p h m)
  | .kernel p .readStval => some ({ h with code := .kernel p (.readScause h.regs.stval) }, m)
  | .kernel p (.readScause va) =>
    some ({ h with code := .kernel p (.vmfault va (h.regs.scause == 13)) }, m)
  | .devintr ret => some (devintr ret h, m)
  | .deviceintr ret => some (trapReturn ret h m, m)
  | .clockintr pc ret => some (clockintr boot pc ret h m)
  | .scheduler => some ({ h with code := .schedulerOn }, m)
  | .schedulerOn => some ({ h with code := .scan 0 ⟨0, nProc_pos⟩ }, m)
  | .scan level p => some (scan level p h m)
  | .wfi => some ({ h with code := .scheduler }, m)
  | .user _ | .kernel _ _ | .panicked => none

/-- A trap is taken. In the kernel it is an interrupt; a timer interrupt is taken while pending. -/
def trapStep (r : Regs) (h : Hart) (m : Machine) : Option (Hart × Machine) :=
  let h' : Hart := { h with regs := r }
  let allowed : Bool := r.scause = scauseExternal ∨ r.scause = scauseTimer ∧ h.stimecmp ≤ m.time
  match h.code with
  | .user p =>
    if r.sstatus &&& sstatusSpp = 0 ∧
        (allowed ∨ r.scause ≠ scauseTimer ∧ m.time < h.stimecmp) then
      some ({ h' with code := .usertrap p }, m)
    else none
  | .kernel p k =>
    if r.sstatus &&& sstatusSpp ≠ 0 ∧ allowed then
      some ({ h' with code := .devintr (.kernel p k r.sepc r.sstatus) }, m)
    else none
  | .schedulerOn =>
    if r.sstatus &&& sstatusSpp ≠ 0 ∧ allowed then
      some ({ h' with code := .devintr (.scheduler r.sepc r.sstatus) }, m)
    else none
  | _ => none

/-- The kernel code `k` of `p` returns. -/
def finishStep (ret : UInt64) (p : ProcIdx) (k : KernelCode) (h : Hart) (m : Machine) :
    Option (Hart × Machine) :=
  match k with
  | .syscall => some (usertrapEnd p h m, m)
  | .vmfault _ _ =>
    let m := if ret = 0 then m.modify p fun q => { q with killed := true } else m
    some (usertrapEnd p h m, m)
  | .kexit =>
    some ({ h with code := .scheduler }, m.switchOut p (.kernel .kexit) fun q =>
      { q with state := .zombie })
  | .readStval | .readScause _ => none

/-- `sleep(chan, lk)` in the kernel code `k` of `p` -/
def sleepStep (chan : Chan) (p : ProcIdx) (k : KernelCode) (h : Hart) (m : Machine) :
    Option (Hart × Machine) :=
  match k with
  | .readStval | .readScause _ => none
  | k => some ({ h with code := .scheduler }, m.switchOut p (.kernel k) fun q =>
      { q with chan := some chan, state := .sleeping })

/-- What kernel code does to other processes. -/
def otherStep (a : Action) (p : ProcIdx) (m : Machine) : Option Machine :=
  match a with
  | .wakeup chan => some { m with procs := m.procs.wakeup (some p) chan }
  | .alloc q =>
    if (m.procs q).state = .unused then some (m.switchOut q .forkret Proc.alloc) else none
  | .ready q =>
    if (m.procs q).state = .used then some (m.modify q fun x => { x with state := .runnable })
    else none
  | .reap q =>
    if (m.procs q).state = .zombie ∨ (m.procs q).state = .used then
      some (m.modify q fun x => { x with state := .unused, chan := none, killed := false })
    else none
  | .kill q =>
    some (m.modify q fun x =>
      { x with
        killed := true
        state := if x.state = .sleeping then .runnable else x.state })
  | _ => none

/-- The harts `ι`, of which `boot` has `cpuid() == 0`. -/
def trapSystem {ι : Type*} [DecidableEq ι] (boot : ι) : System ι Action Hart Machine where
  next i a h m :=
    match a with
    | .trap r => trapStep r h m
    | .pass n =>
      -- a pending interrupt is taken as soon as interrupts are enabled
      if h.code.intrOn ∧ h.stimecmp < m.time + n then none
      else some (h, { m with time := m.time + n })
    | a =>
      if h.code.intrOn ∧ h.stimecmp ≤ m.time then none
      else
        match a, h.code with
        | .run, _ => runStep (decide (i = boot)) h m
        | .finish ret, .kernel p k => finishStep ret p k h m
        | .sleep chan, .kernel p k => sleepStep chan p k h m
        | .wakeup chan, .deviceintr ret =>
          some (h, { m with procs := m.procs.wakeup ret.myproc chan })
        | a, .kernel p _ => (otherStep a p m).map fun m => (h, m)
        | _, _ => none

/-- The kinds of steps. -/
inductive NextStep (boot : Bool) (a : Action) (h : Hart) (m : Machine) : Hart → Machine → Prop
  | trap {r : Regs} {h' : Hart} {m' : Machine} (ha : a = .trap r)
      (hstep : trapStep r h m = some (h', m')) : NextStep boot a h m h' m'
  | pass {n : ℕ} (ha : a = .pass n) : NextStep boot a h m h { m with time := m.time + n }
  | run {h' : Hart} {m' : Machine} (ha : a = .run) (hstep : runStep boot h m = some (h', m')) :
      NextStep boot a h m h' m'
  | finish {ret : UInt64} {p : ProcIdx} {k : KernelCode} {h' : Hart} {m' : Machine}
      (hcode : h.code = .kernel p k) (hstep : finishStep ret p k h m = some (h', m')) :
      NextStep boot a h m h' m'
  | sleep {chan : Chan} {p : ProcIdx} {k : KernelCode} {h' : Hart} {m' : Machine}
      (hcode : h.code = .kernel p k) (hstep : sleepStep chan p k h m = some (h', m')) :
      NextStep boot a h m h' m'
  | other {p : ProcIdx} {k : KernelCode} {m' : Machine} (hcode : h.code = .kernel p k)
      (hstep : otherStep a p m = some m') : NextStep boot a h m h m'
  | device {ret : Return} {chan : Chan} (hcode : h.code = .deviceintr ret) :
      NextStep boot a h m h { m with procs := m.procs.wakeup ret.myproc chan }

theorem nextStep_of_next {ι : Type*} [DecidableEq ι] {boot i : ι} {a : Action} {h h' : Hart}
    {m m' : Machine} (hstep : (trapSystem boot).next i a h m = some (h', m')) :
    NextStep (decide (i = boot)) a h m h' m' := by
  have hother : ∀ {p k}, h.code = .kernel p k →
      ((otherStep a p m).map fun m => (h, m)) = some (h', m') →
      NextStep (decide (i = boot)) a h m h' m' := by
    intro p k hcode hstep
    obtain ⟨m₁, hm, heq⟩ := Option.map_eq_some_iff.1 hstep
    obtain ⟨rfl, rfl⟩ := Prod.mk.inj heq
    exact .other hcode hm
  cases a with
  | trap r => exact .trap rfl hstep
  | pass n =>
    simp only [trapSystem] at hstep
    split at hstep
    · cases hstep
    · obtain ⟨rfl, rfl⟩ := Prod.mk.inj (Option.some.inj hstep)
      exact .pass rfl
  | run =>
    simp only [trapSystem] at hstep
    split at hstep
    · cases hstep
    · exact .run rfl hstep
  | wakeup chan =>
    simp only [trapSystem] at hstep
    split at hstep
    · cases hstep
    cases hcode : h.code <;> simp only [hcode, reduceCtorEq] at hstep
    · exact hother hcode hstep
    · obtain ⟨rfl, rfl⟩ := Prod.mk.inj (Option.some.inj hstep)
      exact .device hcode
  | _ =>
    -- only the kernel code of a process does the rest
    simp only [trapSystem] at hstep
    split at hstep
    · cases hstep
    cases hcode : h.code <;> simp only [hcode, reduceCtorEq] at hstep
    first
      | exact .finish hcode hstep
      | exact .sleep hcode hstep
      | exact hother hcode hstep

/-! ## Small tables and schedules -/

/-- A process table whose first `n` processes are runnable at the given level. -/
def runnableProcs (n : ℕ) (level : Fin 4) : ProcTable := fun p =>
  { state := if p.val < n then .runnable else .unused
    chan := none
    killed := false
    level := level
    ticksUsed := 0
    ticks := fun _ => 0
    timesScheduled := 0
    syscount := 0
    lastSyscallCount := 0
    epc := 0 }

/-- The registers after a timer interrupt in user mode and in the kernel. -/
def timerUser : Regs := ⟨scauseTimer, 0, 0, 0⟩

def timerKernel : Regs := ⟨scauseTimer, 0, 0, sstatusSpp⟩

end Xv6Swap.Trap
