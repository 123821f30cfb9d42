import Xv6Swap.Trap.Ticks

/-!
# The priority boost on a single hart

`clockintr` tests `mlfq_global_ticks % 128 == 0` behind the `yield` of a process that has used up
its quantum. Unless that happens at the very tick which makes the counter a multiple of 128, the
loop of the boost runs before the counter moves on (`boost_not_skipped`). If it does happen, the
scheduler takes the timer interrupt again, and the counter is past the multiple when the test is
made (`boost_skipped`).
-/

namespace Xv6Swap.Trap

open Interleave
open Paging (ProcIdx nProc_pos)

/-! ## The loop -/

/-- The processes in use are at level 0 with a full quantum. -/
def ProcTable.Reset (t : ProcTable) : Prop :=
  ∀ p, (t p).state ≠ .unused → (t p).state ≠ .zombie → (t p).level = 0 ∧ (t p).ticksUsed = 0

theorem ProcTable.boost_reset (t : ProcTable) : t.boost.Reset := by
  intro p hu hz
  rw [boost_state] at hu hz
  rw [boost_apply, if_pos ⟨hu, hz⟩]
  exact ⟨rfl, rfl⟩

/-! ## The log -/

def ClockEvent.isTick : ClockEvent → Bool
  | .tick _ _ => true
  | .boost _ => false

/-- The log ends with the tick that made the counter `128 * k`, and no tick since; `mid` is what
happened since. -/
def AtMultiple (k : ℕ) (log mid : List ClockEvent) : Prop :=
  ∃ pre time, log = pre ++ .tick (128 * k) time :: mid ∧ ∀ e ∈ mid, e.isTick = false

/-- The loop has run and has reset the processes. -/
def Boosted (mid : List ClockEvent) : Prop := ∃ t, .boost t ∈ mid ∧ t.Reset

/-- Whenever the counter became `128 * k + 1`, it had become `128 * k` before, and the loop of the
boost ran in between. -/
def BoostsKept (log : List ClockEvent) : Prop :=
  ∀ k ≥ 1, ∀ pre time post, log = pre ++ .tick (128 * (k : ℕ) + 1) time :: post →
    ∃ mid, AtMultiple k pre mid ∧ Boosted mid

theorem AtMultiple.append {k : ℕ} {log mid : List ClockEvent} (h : AtMultiple k log mid)
    {e : ClockEvent} (he : e.isTick = false) : AtMultiple k (log ++ [e]) (mid ++ [e]) := by
  obtain ⟨pre, time, rfl, hmid⟩ := h
  refine ⟨pre, time, by simp, fun x hx => ?_⟩
  rcases List.mem_append.1 hx with hx | hx
  · exact hmid x hx
  · rw [List.mem_singleton.1 hx]
    exact he

/-- An event can only break `BoostsKept` if it is a tick. -/
theorem BoostsKept.append {log : List ClockEvent} (h : BoostsKept log) {e : ClockEvent}
    (he : ∀ k ≥ 1, ∀ time, e = .tick (128 * (k : ℕ) + 1) time →
      ∃ mid, AtMultiple k log mid ∧ Boosted mid) : BoostsKept (log ++ [e]) := by
  intro k hk pre time post heq
  rcases List.eq_nil_or_concat post with rfl | ⟨post', x, rfl⟩
  · obtain ⟨rfl, hx⟩ := List.append_inj' heq rfl
    exact he k hk time (List.singleton_inj.1 hx)
  · have hcut : log ++ [e] = (pre ++ .tick (128 * (k : ℕ) + 1) time :: post') ++ [x] := by
      rw [heq]
      simp
    obtain ⟨hlog, -⟩ := List.append_inj' hcut rfl
    exact h k hk pre time post' hlog

/-! ## The invariant -/

/-- At a tick that makes the counter a multiple of 128, no process uses up its quantum. -/
def NoYieldAtBoost (c : Cfg Unit Hart (Machine × List ClockEvent)) (_ : Unit) (_ : Action) : Prop :=
  ∀ ret, (c.loc ()).code = .clockintr .account ret → c.mem.1.mlfqGlobalTicks % 128 = 0 →
    c.mem.1.expires ret = false

/-- The test of the counter is still to come in the handler that counted the tick. -/
def Code.boostDue (c : Code) : Prop :=
  ∃ ret, c = .clockintr .account ret ∨ c = .clockintr .boost ret

structure BoostInv (c : Cfg Unit Hart (Machine × List ClockEvent)) : Prop where
  kept : BoostsKept c.mem.2
  current : ∀ k ≥ 1, c.mem.1.mlfqGlobalTicks.toInt = 128 * (k : ℕ) →
    ∃ mid, AtMultiple k c.mem.2 mid ∧ (Boosted mid ∨ (c.loc ()).code.boostDue)

theorem boostInv_start (regs : Regs) (stimecmp time : ℕ) (procs : ProcTable) :
    BoostInv (clockStart regs stimecmp time procs) where
  kept k hk pre time post h := by simp [clockStart] at h
  current k hk h := by
    have hzero : ((0 : Int32).toInt : ℤ) = 0 := rfl
    simp only [clockStart] at h
    omega

theorem mod_of_toInt {x : Int32} {k : ℕ} (h : x.toInt = 128 * k) : x % 128 = 0 := by
  apply Int32.toInt_inj.1
  rw [Int32.toInt_mod, h]
  exact Int.tmod_eq_zero_of_dvd ⟨k, rfl⟩

/-- The counter before it became `128 * k + 1`. -/
theorem toInt_of_succ {x : Int32} {k : ℕ} (h : (x + 1).toInt = 128 * k + 1) :
    x.toInt = 128 * k := by
  have hlt := x.toInt_lt
  have hle := x.le_toInt
  have hone : (1 : Int32).toInt = 1 := rfl
  rw [Int32.toInt_add, hone] at h
  by_cases hmax : x.toInt + 1 < 2 ^ 31
  · rw [Int.bmod_eq_of_le (by omega) (by omega)] at h
    omega
  · -- the counter wraps to a negative number
    have hx : x.toInt = 2 ^ 31 - 1 := by omega
    rw [hx] at h
    have : Int.bmod (2 ^ 31 - 1 + 1) (2 ^ 32) = -2 ^ 31 := by decide
    omega

/-- A step that leaves the counter and the log. -/
theorem BoostInv.keep {h h' : Hart} {m m' : Machine} {log : List ClockEvent}
    (hinv : BoostInv ⟨fun _ => h, m, log⟩) (hglobal : m'.mlfqGlobalTicks = m.mlfqGlobalTicks)
    (hdue : m.mlfqGlobalTicks % 128 = 0 → h.code.boostDue → h'.code.boostDue) :
    BoostInv ⟨fun _ => h', m', log⟩ := by
  refine ⟨hinv.kept, fun k hk h => ?_⟩
  dsimp only at h
  rw [hglobal] at h
  obtain ⟨mid, hmid, hboost⟩ := hinv.current k hk h
  exact ⟨mid, hmid, hboost.imp_right (hdue (mod_of_toInt h))⟩

theorem not_boostDue {c : Code} (h : c.inClock = false) : ¬ c.boostDue := by
  rintro ⟨ret, rfl | rfl⟩ <;> cases h

theorem BoostInv.step {h h' : Hart} {m m' : Machine} {log : List ClockEvent}
    (hinv : BoostInv ⟨fun _ => h, m, log⟩)
    (hok : ∀ ret, h.code = .clockintr .account ret → m.mlfqGlobalTicks % 128 = 0 →
      m.expires ret = false)
    (hstep : ClockStep h m h' m') :
    BoostInv ⟨fun _ => h', m', recordClock () (h, m) (h', m') log⟩ := by
  cases hstep with
  | pass n =>
    rw [recordClock_keep (by rfl) (by intro _ _; rfl)]
    exact hinv.keep rfl fun _ hdue => hdue
  | trap r code hon htimer hcode =>
    rw [recordClock_keep (by rfl) fun ret hc => by rw [hc] at hon; cases hon]
    exact hinv.keep rfl fun _ hdue => absurd hdue (not_boostDue (Code.of_intrOn hon).1)
  | enter ret hon htimer hm =>
    rw [recordClock_keep hm.ticks fun ret hc => by rw [hc] at hon; cases hon]
    refine hinv.keep hm.global fun _ hdue => ?_
    obtain ⟨ret, hc | hc⟩ := hdue <;> rw [hc] at hon <;> cases hon
  | tick ret hcode =>
    -- nothing is due at this point, so the boost for the old value of the counter has been made
    rw [recordClock_tick rfl]
    refine ⟨hinv.kept.append fun k hk time heq => ?_, fun k hk hk' => ?_⟩
    · obtain ⟨hcount, -⟩ := ClockEvent.tick.inj heq
      obtain ⟨mid, hmid, hboost | ⟨ret', hc | hc⟩⟩ := hinv.current k hk (toInt_of_succ hcount)
      · exact ⟨mid, hmid, hboost⟩
      · exact absurd (hcode.symm.trans hc) (by intro h; cases h)
      · exact absurd (hcode.symm.trans hc) (by intro h; cases h)
    · refine ⟨[], ⟨log, m.time, ?_, by simp⟩, .inr ⟨ret, .inl rfl⟩⟩
      rw [← hk']
  | account ret hcode hm =>
    rw [recordClock_keep hm.ticks fun ret hc => by rw [hcode] at hc; cases hc]
    exact hinv.keep hm.global fun _ _ => ⟨ret, .inr rfl⟩
  | yield ret p f hcode hexpires =>
    rw [recordClock_keep (by rfl) fun ret hc => by rw [hcode] at hc; cases hc]
    refine hinv.keep rfl fun hmod _ => ?_
    rw [hok ret hcode hmod] at hexpires
    cases hexpires
  | boost ret hcode =>
    by_cases hmod : m.mlfqGlobalTicks % 128 = 0
    · have hlog : recordClock () (h, m) ({ h with code := .clockintr .rearm ret },
          { m with procs := m.procs.boost }) log = log ++ [.boost m.procs.boost] := by
        simp [recordClock, hcode, hmod]
      rw [if_pos hmod, hlog]
      refine ⟨hinv.kept.append fun k hk time heq => (by cases heq), fun k hk hk' => ?_⟩
      obtain ⟨mid, hmid, -⟩ := hinv.current k hk hk'
      exact ⟨_, hmid.append rfl, .inl ⟨_, List.mem_append_right _ List.mem_cons_self,
        m.procs.boost_reset⟩⟩
    · have hlog : recordClock () (h, m) ({ h with code := .clockintr .rearm ret }, m) log =
          log := by
        simp [recordClock, hcode, hmod]
      rw [if_neg hmod, hlog]
      exact hinv.keep rfl fun hmod' _ => absurd hmod' hmod
  | rearm ret hcode hcmp hon =>
    rw [recordClock_keep (by rfl) fun ret hc => by rw [hcode] at hc; cases hc]
    refine hinv.keep rfl fun _ hdue => ?_
    obtain ⟨ret, hc | hc⟩ := hdue <;> rw [hcode] at hc <;> cases hc
  | resume p ret hsaved hcode hm =>
    rw [recordClock_keep hm.ticks fun ret hc => by rw [hc] at hcode; cases hcode]
    exact hinv.keep hm.global fun _ hdue => absurd hdue (not_boostDue hcode)
  | other hcode hcode' htrap hcmp hm =>
    rw [recordClock_keep hm.ticks fun ret hc => by rw [hc] at hcode; cases hcode]
    exact hinv.keep hm.global fun _ hdue => absurd hdue (not_boostDue hcode)

/-- **The priority boost is not skipped**, in every run in which no process uses up its quantum at a
tick that makes the counter a multiple of 128. -/
theorem boost_not_skipped (regs : Regs) (stimecmp time : ℕ) (procs : ProcTable)
    (c : Cfg Unit Hart (Machine × List ClockEvent))
    (hrun : clockSystem.Reaches NoYieldAtBoost (clockStart regs stimecmp time procs) c) :
    BoostsKept c.mem.2 := by
  have hinv : BoostInv c := by
    refine hrun.inv (fun c i a l g hok hinv hn => ?_) (boostInv_start regs stimecmp time procs)
    obtain ⟨hnext, hghost⟩ := System.withGhost_next hn
    have hstep := hinv.step hok (clockStep_of_next hnext)
    rw [← hghost] at hstep
    exact hstep
  exact hinv.kept

instance (c : Cfg Unit Hart (Machine × List ClockEvent)) (i : Unit) (a : Action) :
    Decidable (NoYieldAtBoost c i a) :=
  decidable_of_iff ((match (c.loc ()).code with
    | .clockintr .account ret => decide (c.mem.1.mlfqGlobalTicks % 128 = 0) && c.mem.1.expires ret
    | _ => false) = false) <| by
      refine ⟨fun h ret hcode hmod => ?_, fun h => ?_⟩
      · simpa only [hcode, hmod, decide_true, Bool.true_and] using h
      · split
        · rename_i ret hcode
          by_cases hmod : c.mem.1.mlfqGlobalTicks % 128 = 0
          · simp [hmod, h ret hcode hmod]
          · simp [hmod]
        · rfl

/-- The value the counter got, if the event is a tick. -/
def ClockEvent.count : ClockEvent → Option ℤ
  | .tick count _ => some count
  | .boost _ => none

/-- A timer period in the scheduler, while interrupts are enabled. -/
def idlePeriod : List (Unit × Action) :=
  [((), .pass 1000000), ((), .trap timerKernel), ((), .run), ((), .run), ((), .run), ((), .run),
    ((), .run)]

/-- A timer period in user mode that does not use up the quantum. -/
def userPeriod : List (Unit × Action) :=
  ((), .pass 1000000) :: ((), .trap timerUser) :: List.replicate 5 ((), .run)

/-- A timer period in user mode that uses up the quantum. The scheduler takes the interrupt again
and then searches the table up to the process, which is the first one of the given level. -/
def lastPeriod (level : ℕ) : List (Unit × Action) :=
  List.flatten [((), .pass 1000000) :: ((), .trap timerUser) :: List.replicate 4 ((), .run),
    ((), .trap timerKernel) :: List.replicate (Paging.nProc * level + 9) ((), .run)]

/-- A process sleeps in a system call, and the interrupt of a device wakes it up. -/
def sleepForDevice (chan : Chan) : List (Unit × Action) :=
  [((), .trap ⟨8, 0, 0, 0⟩), ((), .run), ((), .sleep chan), ((), .run),
    ((), .trap ⟨scauseExternal, 0, 0, sstatusSpp⟩), ((), .run), ((), .wakeup chan), ((), .run),
    ((), .run), ((), .run), ((), .finish 0)]

/-- The process runs from tick 120 on and is at level 2 by tick 128, which it does not yield at. -/
def demotions : List (Unit × Action) :=
  List.flatten [((), .run) :: (List.replicate 119 idlePeriod).flatten,
    List.replicate 2 ((), .run), sleepForDevice (.other 0x1000), userPeriod, lastPeriod 1,
    (List.replicate 3 userPeriod).flatten, lastPeriod 2, userPeriod, userPeriod]

/-- A process is demoted twice, charged for a tick at level 2 and boosted before tick 129. -/
theorem boost_not_skipped_demotions :
    ∃ c, clockSystem.Reaches NoYieldAtBoost (clockStart timerUser 1000000 0 (runnableProcs 1 0)) c ∧
      (c.mem.2.map ClockEvent.count).getLast? = some (some 129) ∧
      (c.mem.1.procs ⟨0, nProc_pos⟩).ticks 2 = 1 ∧ (c.mem.1.procs ⟨0, nProc_pos⟩).level = 0 ∧
      BoostsKept c.mem.2 := by
  have hrun : ((clockSystem.execWhile NoYieldAtBoost demotions
      (clockStart timerUser 1000000 0 (runnableProcs 1 0))).map fun c =>
        ((c.mem.2.map ClockEvent.count).getLast?, (c.mem.1.procs ⟨0, nProc_pos⟩).ticks 2,
          (c.mem.1.procs ⟨0, nProc_pos⟩).level)) = some (some (some 129), 1, 0) := by
    decide +kernel
  obtain ⟨c, hc, hobs⟩ := Option.map_eq_some_iff.1 hrun
  obtain ⟨hlast, hobs⟩ := Prod.mk.inj hobs
  obtain ⟨hticks, hlevel⟩ := Prod.mk.inj hobs
  have hreach := System.reaches_of_execWhile hc
  exact ⟨c, hreach, hlast, hticks, hlevel, boost_not_skipped _ _ _ _ c hreach⟩

/-- A process of level 0 makes two system calls and runs for its quantum of two ticks; it yields,
the scheduler takes the timer interrupt again, and then returns to the process. The system calls
keep the process at level 0. -/
def slice : List (Unit × Action) :=
  [((), .trap ⟨8, 0, 0, 0⟩), ((), .run), ((), .finish 0),
    ((), .trap ⟨8, 0, 0, 0⟩), ((), .run), ((), .finish 0),
    ((), .pass 1000000), ((), .trap timerUser), ((), .run), ((), .run), ((), .run), ((), .run),
    ((), .run),
    ((), .pass 1000000), ((), .trap timerUser), ((), .run), ((), .run), ((), .run),
    ((), .run), ((), .trap timerKernel), ((), .run), ((), .run), ((), .run), ((), .run),
    ((), .run),
    ((), .run), ((), .run), ((), .run), ((), .run)]

/-- Each slice has three ticks, and the second one uses up the quantum: in the last slice this is
tick 128. -/
def expiryAtBoost : List (Unit × Action) :=
  List.replicate 3 ((), .run) ++ (List.replicate 43 slice).flatten

theorem expiryAtBoost_runs : (clockSystem.exec expiryAtBoost
    (clockStart timerUser 1000000 0 (runnableProcs 1 0))).isSome := by
  decide +kernel

/-- Tick 129 right after tick 128. -/
theorem not_boostsKept {log : List ClockEvent} {l : List (Option ℤ)}
    (h : log.map ClockEvent.count = l ++ [some 128, some 129]) : ¬ BoostsKept log := by
  intro hkept
  obtain ⟨pre, post, rfl, -, hpost⟩ := List.map_eq_append_iff.1 h
  obtain ⟨e, post, rfl, he, hpost⟩ := List.map_eq_cons_iff.1 hpost
  obtain ⟨e', post, rfl, he', hpost⟩ := List.map_eq_cons_iff.1 hpost
  cases e with
  | boost t => cases he
  | tick n time =>
    cases e' with
    | boost t => cases he'
    | tick n' time' =>
      obtain rfl := Option.some.inj he'
      obtain ⟨mid, ⟨pre', time₁, heq, hmid⟩, t, ht, -⟩ :=
        hkept 1 le_rfl (pre ++ [.tick n time]) time' post (by simp)
      rcases List.eq_nil_or_concat mid with rfl | ⟨mid', x, rfl⟩
      · cases ht
      · have hcut : pre ++ [.tick n time] =
            (pre' ++ .tick (128 * (1 : ℕ)) time₁ :: mid') ++ [x] := by
          rw [heq]
          simp
        obtain ⟨-, hx⟩ := List.append_inj' hcut rfl
        have hfalse := hmid x (by simp)
        rw [← List.singleton_inj.1 hx] at hfalse
        cases hfalse

theorem boost_skipped :
    ∃ c, clockSystem.Reaches System.any (clockStart timerUser 1000000 0 (runnableProcs 1 0)) c ∧
      ¬ BoostsKept c.mem.2 := by
  refine ⟨_, System.reaches_of_exec (Option.some_get expiryAtBoost_runs).symm, ?_⟩
  refine not_boostsKept (l := (List.range 127).map fun n => some (n + 1 : ℤ)) ?_
  decide +kernel

end Xv6Swap.Trap
