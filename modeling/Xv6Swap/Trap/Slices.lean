import Xv6Swap.Trap.Mlfq

/-!
# System calls in a time slice

At the end of a quantum `clockintr` compares `deltaS`, the system calls since `last_syscall_count`
was set, with `deltaT`, the ticks since `ticks_used` was set to 0. The scheduler sets the former
whenever it dispatches the process, `clockintr` and the boost's loop set the latter. `Slice` counts
both from the points where `ticks_used` is set to 0.

The two windows are the same in every run in which a process that is dispatched has used up its
quantum, is new, or has made no system call since its last dispatch, and in which the boost finds no
running process that has (`demotion_compares`). A process that sleeps in a system call loses the
calls it made before (`sleeper_demoted`).
-/

namespace Xv6Swap.Trap

open Interleave
open Paging (ProcIdx)

/-! ## The slices -/

/-- The system calls a process made, and the ticks charged to it, since its `ticks_used` was last
set to 0. -/
structure Slice where
  calls : ℕ
  ticks : ℕ

/-- `ticks_used` is set to 0 by `allocproc`, at the end of a quantum and by the boost's loop. -/
def sliceEvents : Events Slice where
  alloc := ⟨0, 0⟩
  syscall s := { s with calls := s.calls + 1 }
  charge _ s := { s with ticks := s.ticks + 1 }
  expire _ _ := ⟨0, 0⟩
  boost _ := ⟨0, 0⟩

section System

variable {ι : Type*} [DecidableEq ι]

/-- The harts, with the slices of the processes. -/
def sliceSystem (boot : ι) : System ι Action Hart (Machine × (ProcIdx → Slice)) :=
  (trapSystem boot).withGhost sliceEvents.record

def sliceStart (regs : ι → Regs) (stimecmp : ι → ℕ) (time : ℕ) (procs : ProcTable) :
    Cfg ι Hart (Machine × (ProcIdx → Slice)) :=
  ⟨fun i => ⟨regs i, stimecmp i, .scheduler⟩, ⟨time, 0, 0, procs, fun _ => .forkret⟩,
    fun _ => ⟨0, 0⟩⟩

end System

/-- What `clockintr` compares at the end of the quantum are the system calls and the ticks of the
slice, this tick included, and the process is demoted if it made fewer calls than it used ticks. The
counters of the source have 64 bits. -/
structure RuleOk (p : Proc) (s : Slice) : Prop where
  deltaS : (p.syscount - p.lastSyscallCount).toNat = s.calls % 2 ^ 64
  deltaT : (p.ticksUsed + 1).toInt64.toUInt64.toNat = s.ticks + 1
  level : s.calls < 2 ^ 64 → p.countTick.demote.level =
    if s.calls < s.ticks + 1 ∧ p.level < 3 then p.level + 1 else p.level

/-- `clockintr` evaluates the rule for `p`. -/
def Evaluates (h : Hart) (m : Machine) (p : ProcIdx) : Prop :=
  ∃ ret, h.code = .clockintr .account ret ∧ ret.myproc = some p ∧
    (m.procs p).state = .running ∧ (m.procs p).expires = true

/-! ## The condition -/

/-- The process has made no system call since it was last dispatched. -/
def Proc.noCalls (p : Proc) : Bool := p.syscount = p.lastSyscallCount

/-- Where the process continues is behind the end of a quantum, or it has not run yet. -/
def Saved.atSliceStart : Saved → Bool
  | .forkret => true
  | .clock _ => true
  | .kernel _ => false

/-- A process that is dispatched comes from the end of a quantum, is new, or has made no system call
since its last dispatch; and the boost's loop runs while no running process has made one. -/
structure WindowOk (h : Hart) (m : Machine) : Prop where
  dispatch : ∀ p, Dispatches h m p →
    (m.saved p).atSliceStart = true ∨ (m.procs p).noCalls = true
  boost : ∀ ret, h.code = .clockintr .boost ret → m.mlfqGlobalTicks % 128 = 0 →
    ∀ p, (m.procs p).state = .running → (m.procs p).noCalls = true

def WindowsKept {ι : Type*} (c : Cfg ι Hart (Machine × (ProcIdx → Slice))) (i : ι) (_ : Action) :
    Prop :=
  WindowOk (c.loc i) c.mem.1

/-! ## The invariant -/

/-- A process and its slice: while it runs, the calls of the slice are those since it was
dispatched; behind the end of a quantum there are none. -/
structure Sliced (p : Proc) (saved : Saved) (s : Slice) : Prop where
  ticks : p.ticksUsed.toInt = s.ticks
  lt : p.ticksUsed.toInt < (quantum p.level).toInt
  running : p.state = .running → p.syscount - p.lastSyscallCount = UInt64.ofNat s.calls
  start : p.state ≠ .running → saved.atSliceStart = true → UInt64.ofNat s.calls = 0
  kernel : p.state ≠ .running → saved.atSliceStart = false →
    p.syscount - p.lastSyscallCount = UInt64.ofNat s.calls ∨ UInt64.ofNat s.calls = 0

theorem toNat_toUInt64 {x : Int64} (h : 0 ≤ x.toInt) : (x.toUInt64.toNat : ℤ) = x.toInt := by
  have hlt : x.toUInt64.toNat < 2 ^ 64 := x.toUInt64.toNat_lt
  have heq : x.toInt = if 2 * x.toUInt64.toNat < 2 ^ 64 then (x.toUInt64.toNat : ℤ)
      else (x.toUInt64.toNat : ℤ) - 2 ^ 64 := BitVec.toInt_eq_toNat_cond x.toBitVec
  split at heq <;> omega

/-- The ticks of the slice, this one included. -/
theorem Sliced.toInt_succ {p : Proc} {saved : Saved} {s : Slice} (h : Sliced p saved s) :
    (p.ticksUsed + 1).toInt = s.ticks + 1 := by
  have hq := quantum_toInt p.level
  have hlt := h.lt
  rw [toInt_add_one (by omega), h.ticks]

theorem Sliced.rule {p : Proc} {saved : Saved} {s : Slice} (h : Sliced p saved s)
    (hstate : p.state = .running) : RuleOk p s := by
  have hcalls := h.running hstate
  have hdeltaS : (p.syscount - p.lastSyscallCount).toNat = s.calls % 2 ^ 64 := by
    rw [hcalls, UInt64.toNat_ofNat']
  have hdeltaT : (p.ticksUsed + 1).toInt64.toUInt64.toNat = s.ticks + 1 := by
    have hsucc := h.toInt_succ
    have := toNat_toUInt64 (x := (p.ticksUsed + 1).toInt64) (by rw [Int32.toInt_toInt64]; omega)
    rw [Int32.toInt_toInt64] at this
    omega
  refine ⟨hdeltaS, hdeltaT, fun hlt => ?_⟩
  rw [Nat.mod_eq_of_lt hlt] at hdeltaS
  have hiff : p.syscount - p.lastSyscallCount < (p.ticksUsed + 1).toInt64.toUInt64 ↔
      s.calls < s.ticks + 1 := by
    rw [UInt64.lt_iff_toNat_lt, hdeltaS, hdeltaT]
  simp only [Proc.demote, Proc.countTick, hiff]

/-- A process that has just been created, or whose `ticks_used` has been set to 0. -/
theorem sliced_zero {p : Proc} {saved : Saved} (hused : p.ticksUsed = 0)
    (hrun : p.state = .running → p.noCalls = true) : Sliced p saved ⟨0, 0⟩ := by
  refine ⟨by rw [hused]; rfl, ?_, fun h => ?_, fun _ _ => rfl, fun _ _ => .inr rfl⟩
  · rw [hused]
    exact lt_of_lt_of_le (show (0 : ℤ) < 2 by decide) (quantum_toInt p.level).1
  · rw [of_decide_eq_true (hrun h), UInt64.sub_self]
    rfl

/-- Every process in use has its slice. -/
def SlicesOk (m : Machine) (sl : ProcIdx → Slice) : Prop :=
  ∀ p, (m.procs p).state ≠ .unused → Sliced (m.procs p) (m.saved p) (sl p)

/-- A process is dispatched with an empty slice, as far as calls are concerned. -/
theorem Sliced.calls_of_dispatch {p : Proc} {saved : Saved} {s : Slice} (h : Sliced p saved s)
    (hstate : p.state ≠ .running) (hok : saved.atSliceStart = true ∨ p.noCalls = true) :
    UInt64.ofNat s.calls = 0 := by
  cases hs : saved.atSliceStart with
  | true => exact h.start hstate hs
  | false =>
    have hcalls : p.syscount = p.lastSyscallCount :=
      of_decide_eq_true (hok.resolve_left (by simp [hs]))
    rcases h.kernel hstate hs with heq | hzero
    · rw [← heq, hcalls, UInt64.sub_self]
    · exact hzero

theorem SlicesOk.step {ι : Type*} {i : ι} {h h' : Hart} {m m' : Machine} {sl : ProcIdx → Slice}
    (hsl : SlicesOk m sl) (hrun : ∀ p, h.code.proc = some p → (m.procs p).state = .running)
    (hok : WindowOk h m) (hstep : SchedStep h m h' m') :
    SlicesOk m' (sliceEvents.record i (h, m) (h', m') sl) := by
  intro p hlive
  have hp := hstep.procStep sliceEvents i p sl
  generalize sliceEvents.record i (h, m) (h', m') sl p = s at hp ⊢
  cases hp with
  | keep hmoves hsaved =>
    have hs := hsl p (hmoves.live hlive)
    have hstate : (m'.procs p).state = .running ↔ (m.procs p).state = .running := by
      rcases hmoves.state with heq | ⟨hb, ha⟩
      · rw [heq]
      · constructor
        · intro h
          rcases ha with ha | ha <;> simp [h] at ha
        · intro h
          rcases hb with hb | hb | hb <;> simp [h] at hb
    refine ⟨?_, ?_, ?_, ?_, ?_⟩
    · rw [hmoves.ticksUsed]
      exact hs.ticks
    · rw [hmoves.ticksUsed, hmoves.level]
      exact hs.lt
    · rw [hmoves.syscount, hmoves.lastSyscallCount, hstate]
      exact hs.running
    · rw [hsaved, ne_eq, hstate]
      exact hs.start
    · rw [hsaved, hmoves.syscount, hmoves.lastSyscallCount, ne_eq, hstate]
      exact hs.kernel
  | alloc hstate hm =>
    rw [hm]
    exact sliced_zero rfl fun h => by cases h
  | syscall hcode hstate hcounts hsaved =>
    have hrunning := hrun p (by rw [hcode]; rfl)
    have hs := hsl p (by simp [hrunning])
    have hcalls := hs.running hrunning
    rw [hrunning] at hstate
    refine ⟨?_, ?_, fun _ => ?_, fun h => absurd hstate h, fun h => absurd hstate h⟩
    · rw [hcounts.ticksUsed]
      exact hs.ticks
    · rw [hcounts.ticksUsed, hcounts.level]
      exact hs.lt
    · rw [hcounts.syscount, hcounts.lastSyscallCount]
      change _ = UInt64.ofNat ((sl p).calls + 1)
      rw [UInt64.ofNat_add, ← hcalls]
      grind
  | charge hstate hexpires hm hsaved =>
    have hs := hsl p (by simp [hstate])
    have hnot : ¬ (m.procs p).ticksUsed + 1 ≥ quantum (m.procs p).level :=
      of_decide_eq_false hexpires
    rw [ge_iff_le, Int32.le_iff_toInt_le, not_le] at hnot
    rw [hm]
    refine ⟨?_, hnot, fun _ => hs.running hstate, fun h => absurd hstate h,
      fun h => absurd hstate h⟩
    change ((m.procs p).ticksUsed + 1).toInt = (((sl p).ticks + 1 : ℕ) : ℤ)
    rw [hs.toInt_succ]
    push_cast
    rfl
  | expire ret hstate hexpires hm =>
    rw [hm]
    exact sliced_zero rfl fun h => by cases h
  | boost ret hcode hglobal hbefore hm =>
    rw [hm]
    exact sliced_zero rfl fun h => hok.boost ret hcode hglobal p h
  | dispatch hd hstate hcounts hsaved =>
    have hs := hsl p (by simp [hd.2])
    refine ⟨?_, ?_, fun _ => ?_, fun h => absurd hstate h, fun h => absurd hstate h⟩
    · rw [hcounts.ticksUsed]
      exact hs.ticks
    · rw [hcounts.ticksUsed, hcounts.level]
      exact hs.lt
    · rw [hcounts.syscount, hcounts.lastSyscallCount]
      dsimp only
      rw [UInt64.sub_self, hs.calls_of_dispatch (by simp [hd.2]) (hok.dispatch p hd)]
  | leave k hcode hstate hcounts hsaved =>
    have hrunning := hrun p (by rw [hcode]; rfl)
    have hs := hsl p (by simp [hrunning])
    refine ⟨?_, ?_, fun h => ?_, fun _ h => ?_, fun _ _ => .inl ?_⟩
    · rw [hcounts.ticksUsed]
      exact hs.ticks
    · rw [hcounts.ticksUsed, hcounts.level]
      exact hs.lt
    · rcases hstate with hstate | hstate <;> simp [h] at hstate
    · rw [hsaved] at h
      cases h
    · rw [hcounts.syscount, hcounts.lastSyscallCount]
      exact hs.running hrunning

/-! ## Whole runs -/

section Runs

variable {ι : Type*} [DecidableEq ι]

/-- **The rule compares like with like**, on any number of harts, in every run whose steps keep the
two windows the same: whenever `clockintr` evaluates it, `deltaS` is the number of system calls of
the slice over which `deltaT` counts the ticks. -/
theorem demotion_compares (boot : ι) (regs : ι → Regs) (stimecmp : ι → ℕ) (time : ℕ)
    (procs : ProcTable) (hboot : procs.Booted) (c : Cfg ι Hart (Machine × (ProcIdx → Slice)))
    (hrun : (sliceSystem boot).Reaches WindowsKept (sliceStart regs stimecmp time procs) c) (i : ι)
    (p : ProcIdx) (hp : Evaluates (c.loc i) c.mem.1 p) : RuleOk (c.mem.1.procs p) (c.mem.2 p) := by
  have hinv : Exclusive c.loc c.mem.1 ∧ SlicesOk c.mem.1 c.mem.2 := by
    refine hrun.inv (P := fun c => Exclusive c.loc c.mem.1 ∧ SlicesOk c.mem.1 c.mem.2)
      (fun c i a l g hok hinv hn => ?_) ⟨?_, fun p hlive => ?_⟩
    · obtain ⟨hnext, hghost⟩ := System.withGhost_next hn
      have hstep := schedStep_of_next hnext
      refine ⟨hinv.1.step hstep, ?_⟩
      dsimp only
      rw [hghost]
      exact hinv.2.step (fun p hp => hinv.1.running i p hp) hok hstep
    · exact ⟨fun i p h => (by cases h), fun i j p h => (by cases h), fun p ret h => (by cases h)⟩
    · obtain ⟨hidle, -, hused, -⟩ := hboot p hlive
      exact sliced_zero hused fun h => absurd h hidle
  obtain ⟨ret, hcode, hproc, hstate, -⟩ := hp
  exact (hinv.2 p (by simp [hstate])).rule hstate

end Runs

instance (h : Hart) (m : Machine) : Decidable (WindowOk h m) :=
  decidable_of_iff
    ((match h.code with
      | .scan level p => decide ((m.procs p).state = .runnable → (m.procs p).level = level →
          (m.saved p).atSliceStart = true ∨ (m.procs p).noCalls = true)
      | .clockintr .boost _ => decide (m.mlfqGlobalTicks % 128 = 0 →
          ∀ p, (m.procs p).state = .running → (m.procs p).noCalls = true)
      | _ => true) = true) <| by
    refine ⟨fun h => ⟨fun p hp => ?_, fun ret hcode => ?_⟩, fun h => ?_⟩
    · simp only [hp.1, decide_eq_true_eq] at h
      exact h hp.2 trivial
    · simpa only [hcode, decide_eq_true_eq] using h
    · split
      · rename_i level p hcode
        refine decide_eq_true fun hstate hlevel => h.dispatch p ⟨?_, hstate⟩
        rw [hcode, hlevel]
      · rename_i ret hcode
        exact decide_eq_true (h.boost ret hcode)
      · rfl

instance {ι : Type*} (c : Cfg ι Hart (Machine × (ProcIdx → Slice))) (i : ι) (a : Action) :
    Decidable (WindowsKept c i a) :=
  inferInstanceAs (Decidable (WindowOk (c.loc i) c.mem.1))

/-- A process makes two system calls in a quantum of two ticks, up to the evaluation of the rule. -/
def twoCalls : List (Unit × Action) :=
  [((), .run), ((), .run), ((), .run), ((), .trap ecall), ((), .run), ((), .finish 0),
    ((), .trap ecall), ((), .run), ((), .finish 0), ((), .pass 1000000), ((), .trap timerUser),
    ((), .run), ((), .run), ((), .run), ((), .run), ((), .run), ((), .pass 1000000),
    ((), .trap timerUser), ((), .run), ((), .run)]

def callsStart : Cfg Unit Hart (Machine × (ProcIdx → Slice)) :=
  sliceStart (fun _ => timerUser) (fun _ => 1000000) 0 (runnableProcs 2 0)

theorem twoCalls_kept : ((sliceSystem ()).execWhile WindowsKept twoCalls callsStart).isSome := by
  decide +kernel

/-- The process is not demoted. -/
theorem demotion_compares_twoCalls : ∃ c p, (sliceSystem ()).Reaches WindowsKept callsStart c ∧
    Evaluates (c.loc ()) c.mem.1 p ∧ (c.mem.2 p).calls = 2 ∧ (c.mem.2 p).ticks = 1 ∧
    RuleOk (c.mem.1.procs p) (c.mem.2 p) := by
  have hrun := System.reaches_of_execWhile (Option.some_get twoCalls_kept).symm
  have hp : Evaluates ((((sliceSystem ()).execWhile WindowsKept twoCalls callsStart).get
      twoCalls_kept).loc ()) (((sliceSystem ()).execWhile WindowsKept twoCalls callsStart).get
      twoCalls_kept).mem.1 ⟨0, by decide⟩ := by
    refine ⟨.user ⟨0, by decide⟩, ?_, ?_, ?_, ?_⟩
    all_goals decide +kernel
  refine ⟨_, _, hrun, hp, ?_, ?_,
    demotion_compares _ _ _ _ _ (runnableProcs_booted 2) _ hrun _ _ hp⟩
  all_goals decide +kernel

/-- A process makes two system calls in its first tick and sleeps in a third one. Another process
wakes it up and sleeps, and the quantum of the first one ends with its second tick. -/
def sleepingCall : List (Unit × Action) :=
  [((), .run), ((), .run), ((), .run), ((), .trap ecall), ((), .run), ((), .finish 0),
    ((), .trap ecall), ((), .run), ((), .finish 0), ((), .pass 1000000), ((), .trap timerUser),
    ((), .run), ((), .run), ((), .run), ((), .run), ((), .run),
    ((), .trap ecall), ((), .run), ((), .sleep (.other 0)),
    ((), .run), ((), .run), ((), .run), ((), .run),
    ((), .trap ecall), ((), .run), ((), .wakeup (.other 0)), ((), .sleep .ticks),
    ((), .run), ((), .run), ((), .run), ((), .finish 0),
    ((), .pass 1000000), ((), .trap timerUser), ((), .run), ((), .run)]

theorem sleepingCall_runs : ((sliceSystem ()).exec sleepingCall callsStart).isSome := by
  decide +kernel

/-- The process has made three system calls in two ticks, but `deltaS` is 0 and it is demoted. -/
theorem sleeper_demoted : ∃ c p, (sliceSystem ()).Reaches System.any callsStart c ∧
    Evaluates (c.loc ()) c.mem.1 p ∧ (c.mem.2 p).calls = 3 ∧ (c.mem.2 p).ticks = 1 ∧
    (c.mem.1.procs p).syscount - (c.mem.1.procs p).lastSyscallCount = 0 ∧
    (c.mem.1.procs p).level = 0 ∧ (c.mem.1.procs p).countTick.demote.level = 1 ∧
    ¬ RuleOk (c.mem.1.procs p) (c.mem.2 p) := by
  refine ⟨_, ⟨0, by decide⟩, System.reaches_of_exec (Option.some_get sleepingCall_runs).symm,
    ⟨.user ⟨0, by decide⟩, ?_, ?_, ?_, ?_⟩, ?_, ?_, ?_, ?_, ?_, fun h => ?_⟩
  iterate 9 decide +kernel
  exact absurd h.deltaS (by decide +kernel)

end Xv6Swap.Trap
