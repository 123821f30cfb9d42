import Xv6Swap.Trap.Sched
import Mathlib.Algebra.BigOperators.Fin

/-!
# The multi-level feedback queue on a single hart

The scheduler's accounting over whole runs. `Account` is kept beside the machine: `p->level` as the
`int` that the source assigns to, and the number of ticks charged to the process since `allocproc`.
In every run the level stays within `0 … 3`, a process has not used up its quantum outside of
`clockintr`, and its four tick counters add up to the ticks charged (`Accounted`). A pass of the
scheduler takes the first runnable process of the smallest level (`scan_finds`), and idles only if
there is none (`mlfq_wellFormed`).
-/

namespace Xv6Swap.Trap

open Interleave
open Paging (ProcIdx)

/-! ## The accounts -/

/-- `p->level` after the end of a quantum, as the source computes it on an `int` -/
def intLevel (level : Int32) (deltaS deltaT : UInt64) : Int32 :=
  if deltaS < deltaT then if level < 3 then level + 1 else level else level

/-- The level as the source's `int`, and the number of ticks charged since `allocproc`. -/
structure Account where
  level : Int32
  charged : ℕ

/-- `allocproc` and the boost's loop set the level to 0, the end of a quantum may increase it, and
every tick counted to the process is charged to it. -/
def accountEvents : Events Account where
  alloc := ⟨0, 0⟩
  syscall a := a
  charge _ a := { a with charged := a.charged + 1 }
  expire p a :=
    { level := intLevel a.level (p.syscount - p.lastSyscallCount)
        (p.ticksUsed + 1).toInt64.toUInt64
      charged := a.charged + 1 }
  boost a := { a with level := 0 }

/-- One hart, with the accounts. -/
def mlfqSystem : System Unit Action Hart (Machine × (ProcIdx → Account)) :=
  (trapSystem ()).withGhost accountEvents.record

def mlfqStart (regs : Regs) (stimecmp time : ℕ) (procs : ProcTable) :
    Cfg Unit Hart (Machine × (ProcIdx → Account)) :=
  ⟨fun _ => ⟨regs, stimecmp, .scheduler⟩, ⟨time, 0, 0, procs, fun _ => .forkret⟩, fun _ => ⟨0, 0⟩⟩

/-- The processes there are have come from `allocproc` and have not run. -/
def ProcTable.Booted (t : ProcTable) : Prop :=
  ∀ p, (t p).state ≠ .unused → (t p).state ≠ .running ∧ (t p).level = 0 ∧ (t p).ticksUsed = 0 ∧
    (t p).ticks = fun _ => 0

/-- A process and its account. The tick counters are `int`s: they add up to the number of ticks
modulo `2 ^ 32`, and exactly as long as that number is an `int`. -/
structure Accounted (p : Proc) (a : Account) : Prop where
  level : a.level.toInt = (p.level : ℕ)
  ticksUsed_nonneg : 0 ≤ p.ticksUsed.toInt
  ticksUsed_lt : p.ticksUsed.toInt < (quantum p.level).toInt
  ticks_mod : (∑ l, (p.ticks l).toInt) % 2 ^ 32 = a.charged % 2 ^ 32
  ticks : a.charged < 2 ^ 31 →
    (∀ l, 0 ≤ (p.ticks l).toInt) ∧ ∑ l, (p.ticks l).toInt = a.charged

theorem quantum_toInt (l : Fin 4) : 2 ≤ (quantum l).toInt ∧ (quantum l).toInt ≤ 16 := by
  revert l
  decide

theorem toInt_add_one {x : Int32} (h : x.toInt < 2 ^ 31 - 1) : (x + 1).toInt = x.toInt + 1 := by
  have hle := x.le_toInt
  have hone : (1 : Int32).toInt = 1 := rfl
  rw [Int32.toInt_add, hone, Int.bmod_eq_of_le (by omega) (by omega)]

/-- The assignment to the source's `int` is the one of the model. -/
theorem Accounted.intLevel {p : Proc} {a : Account} (h : Accounted p a) (deltaS deltaT : UInt64) :
    (Trap.intLevel a.level deltaS deltaT).toInt =
      ((if deltaS < deltaT ∧ p.level < 3 then p.level + 1 else p.level : Fin 4) : ℕ) := by
  have hlevel := h.level
  have hthree : (3 : Int32).toInt = 3 := rfl
  have hlt : a.level < 3 ↔ p.level < 3 := by
    rw [Int32.lt_iff_toInt_lt, hlevel, hthree, Fin.lt_def]
    norm_cast
  unfold Trap.intLevel
  by_cases hdelta : deltaS < deltaT
  · by_cases hl : p.level < 3
    · rw [if_pos hdelta, if_pos (hlt.2 hl), if_pos ⟨hdelta, hl⟩,
        toInt_add_one (by rw [hlevel]; omega), hlevel]
      revert hl
      generalize p.level = l
      revert l
      decide
    · rw [if_pos hdelta, if_neg (mt hlt.1 hl), if_neg (fun hc => hl hc.2), hlevel]
  · rw [if_neg hdelta, if_neg (fun hc => hdelta hc.1), hlevel]

/-- The tick counters after a tick. -/
theorem Accounted.sum_countTick {p : Proc} {a : Account} (h : Accounted p a) :
    (∑ l, (p.countTick.ticks l).toInt) % 2 ^ 32 = ((a.charged + 1 : ℕ) : ℤ) % 2 ^ 32 ∧
      (a.charged + 1 < 2 ^ 31 → (∀ l, 0 ≤ (p.countTick.ticks l).toInt) ∧
        ∑ l, (p.countTick.ticks l).toInt = (a.charged + 1 : ℕ)) := by
  have hone : (1 : Int32).toInt = 1 := rfl
  have hsum : ∀ x : ℤ, ∑ l, Function.update (fun l => (p.ticks l).toInt) p.level x l =
      ∑ l, (p.ticks l).toInt + (x - (p.ticks p.level).toInt) := by
    intro x
    rw [Finset.sum_update_of_mem (Finset.mem_univ _),
      ← Finset.add_sum_erase _ (fun l => (p.ticks l).toInt) (Finset.mem_univ p.level),
      Finset.sdiff_singleton_eq_erase]
    ring
  have hticks : (fun l => (p.countTick.ticks l).toInt) =
      Function.update (fun l => (p.ticks l).toInt) p.level (p.ticks p.level + 1).toInt := by
    funext l
    simp only [Proc.countTick, Function.update_apply]
    split <;> rfl
  simp only [hticks, hsum]
  refine ⟨?_, fun hlt => ?_⟩
  · have hmod := h.ticks_mod
    have hinc : (p.ticks p.level + 1).toInt % 2 ^ 32 = ((p.ticks p.level).toInt + 1) % 2 ^ 32 := by
      rw [Int32.toInt_add, hone]
      exact Int.bmod_emod
    push_cast
    omega
  · obtain ⟨hnonneg, heq⟩ := h.ticks (by omega)
    have hle : (p.ticks p.level).toInt ≤ ∑ l, (p.ticks l).toInt :=
      Finset.single_le_sum (fun l _ => hnonneg l) (Finset.mem_univ p.level)
    have hadd := toInt_add_one (x := p.ticks p.level) (by omega)
    refine ⟨fun l => ?_, by rw [hadd, heq]; push_cast; ring⟩
    have hl := congrFun hticks l
    rw [hl, Function.update_apply]
    split
    · have := hnonneg p.level
      omega
    · exact hnonneg l

/-! ## What a step does to an account -/

theorem Accounted.congr {p p' : Proc} {a : Account} (h : Accounted p a)
    (hlevel : p'.level = p.level) (hused : p'.ticksUsed = p.ticksUsed)
    (hticks : p'.ticks = p.ticks) :
    Accounted p' a := by
  refine ⟨?_, ?_, ?_, ?_, ?_⟩
  · rw [hlevel]
    exact h.level
  · rw [hused]
    exact h.ticksUsed_nonneg
  · rw [hused, hlevel]
    exact h.ticksUsed_lt
  · rw [hticks]
    exact h.ticks_mod
  · rw [hticks]
    exact h.ticks

/-- A process that starts from level 0 with a full quantum. -/
theorem accounted_zero {p : Proc} {a : Account} (hlevel : p.level = 0) (hused : p.ticksUsed = 0)
    (ha : a.level = 0) (hmod : (∑ l, (p.ticks l).toInt) % 2 ^ 32 = a.charged % 2 ^ 32)
    (hticks : a.charged < 2 ^ 31 →
      (∀ l, 0 ≤ (p.ticks l).toInt) ∧ ∑ l, (p.ticks l).toInt = a.charged) : Accounted p a := by
  refine ⟨?_, ?_, ?_, hmod, hticks⟩
  · rw [ha, hlevel]
    rfl
  · rw [hused]
    exact le_rfl
  · rw [hused, hlevel]
    decide

theorem accounted_start {p : Proc} (hlevel : p.level = 0) (hused : p.ticksUsed = 0)
    (hticks : p.ticks = fun _ => 0) : Accounted p ⟨0, 0⟩ :=
  accounted_zero hlevel hused rfl (by simp [hticks]) fun _ => by simp [hticks]

/-- The quantum lasts for another tick. -/
theorem toInt_of_not_expires {p : Proc} {a : Account} (h : Accounted p a) :
    (p.ticksUsed + 1).toInt = p.ticksUsed.toInt + 1 ∧
      (p.expires = false → (p.ticksUsed + 1).toInt < (quantum p.level).toInt) := by
  have hq := quantum_toInt p.level
  have hlt := h.ticksUsed_lt
  refine ⟨toInt_add_one (by omega), fun hexp => ?_⟩
  have hnot : ¬ p.ticksUsed + 1 ≥ quantum p.level := of_decide_eq_false hexp
  rw [ge_iff_le, Int32.le_iff_toInt_le] at hnot
  omega

theorem Accounted.charge {p : Proc} {a : Account} (h : Accounted p a) (hexp : p.expires = false) :
    Accounted p.countTick { a with charged := a.charged + 1 } := by
  obtain ⟨hmod, hticks⟩ := h.sum_countTick
  obtain ⟨hadd, hlt⟩ := toInt_of_not_expires h
  have hnonneg := h.ticksUsed_nonneg
  refine ⟨h.level, ?_, hlt hexp, hmod, hticks⟩
  change 0 ≤ (p.ticksUsed + 1).toInt
  omega

theorem Accounted.expire {p : Proc} {a : Account} (h : Accounted p a) (s : ProcState) :
    Accounted { p.countTick.demote with state := s }
      ⟨Trap.intLevel a.level (p.syscount - p.lastSyscallCount)
        (p.ticksUsed + 1).toInt64.toUInt64, a.charged + 1⟩ := by
  obtain ⟨hmod, hticks⟩ := h.sum_countTick
  refine ⟨h.intLevel _ _, le_rfl, ?_, hmod, hticks⟩
  exact lt_of_lt_of_le (show (0 : ℤ) < 2 by decide) (quantum_toInt _).1

theorem Accounted.boost {p : Proc} {a : Account} (h : Accounted p a) :
    Accounted { p with level := 0, ticksUsed := 0 } { a with level := 0 } :=
  accounted_zero rfl rfl rfl h.ticks_mod h.ticks

/-- Every process in use has its account. -/
def AccountsOk (m : Machine) (acc : ProcIdx → Account) : Prop :=
  ∀ p, (m.procs p).state ≠ .unused → Accounted (m.procs p) (acc p)

theorem AccountsOk.step {h h' : Hart} {m m' : Machine} {acc : ProcIdx → Account}
    (hacc : AccountsOk m acc) (hrun : ∀ p, h.code.proc = some p → (m.procs p).state = .running)
    (hstep : SchedStep h m h' m') :
    AccountsOk m' (accountEvents.record () (h, m) (h', m') acc) := by
  intro p hlive
  have hp := hstep.procStep accountEvents () p acc
  generalize accountEvents.record () (h, m) (h', m') acc p = a at hp ⊢
  cases hp with
  | keep hmoves =>
    exact (hacc p (hmoves.live hlive)).congr hmoves.level hmoves.ticksUsed hmoves.ticks
  | alloc hstate hm =>
    rw [hm]
    exact accounted_start rfl rfl rfl
  | syscall hcode hstate hcounts =>
    exact (hacc p (hstate ▸ hlive)).congr hcounts.level hcounts.ticksUsed hcounts.ticks
  | charge hstate hexpires hm =>
    rw [hm]
    exact (hacc p (by simp [hstate])).charge hexpires
  | expire ret hstate hexpires hm =>
    rw [hm]
    exact (hacc p (by simp [hstate])).expire .runnable
  | boost ret hcode hglobal hbefore hm =>
    rw [hm]
    exact (hacc p hbefore).boost
  | dispatch hd hstate hcounts =>
    exact (hacc p (by simp [hd.2])).congr hcounts.level hcounts.ticksUsed hcounts.ticks
  | leave k hcode hstate hcounts =>
    have hlive : (m.procs p).state ≠ .unused := by simp [hrun p (by rw [hcode]; rfl)]
    exact (hacc p hlive).congr hcounts.level hcounts.ticksUsed hcounts.ticks

/-! ## The search -/

/-- The process the scheduler should take: runnable, of the smallest level and the first of it. -/
def Machine.Least (m : Machine) (p : ProcIdx) : Prop :=
  (m.procs p).state = .runnable ∧ ∀ q, (m.procs q).state = .runnable →
    (m.procs p).level < (m.procs q).level ∨ (m.procs p).level = (m.procs q).level ∧ p ≤ q

/-- The search has not passed a runnable process. -/
def Machine.Ahead (m : Machine) (level : Fin 4) (p : ProcIdx) : Prop :=
  ∀ q, (m.procs q).state = .runnable →
    level < (m.procs q).level ∨ level = (m.procs q).level ∧ p ≤ q

structure Searched (h : Hart) (m : Machine) : Prop where
  scan : ∀ level p, h.code = .scan level p → m.Ahead level p
  idle : h.code = .wfi → ∀ p, (m.procs p).state ≠ .runnable

theorem Searched.of_not_searching {h : Hart} {m : Machine} (hcode : h.code.searching = false) :
    Searched h m :=
  ⟨fun level p hc => by simp [hc, Code.searching] at hcode,
    fun hc => by simp [hc, Code.searching] at hcode⟩

theorem ahead_first (m : Machine) : m.Ahead 0 ⟨0, by decide⟩ := by
  intro q _
  rcases (Fin.zero_le (m.procs q).level).lt_or_eq with hlt | heq
  · exact .inl hlt
  · exact .inr ⟨heq, Fin.mk_le_of_le_val (Nat.zero_le _)⟩

theorem Machine.Ahead.least {m : Machine} {level : Fin 4} {p : ProcIdx} (h : m.Ahead level p)
    (hstate : (m.procs p).state = .runnable) (hlevel : (m.procs p).level = level) : m.Least p := by
  subst hlevel
  exact ⟨hstate, h⟩

/-- The entry is not the one looked for: the search goes on behind it, or is over. -/
theorem Machine.Ahead.next {m : Machine} {level : Fin 4} {p : ProcIdx} (h : m.Ahead level p)
    (hnot : ¬ ((m.procs p).state = .runnable ∧ (m.procs p).level = level)) (hart : Hart) :
    Searched { hart with code := scanNext level p } m := by
  -- a runnable process of the level is behind the entry
  have hbehind : ∀ q, (m.procs q).state = .runnable →
      level < (m.procs q).level ∨ level = (m.procs q).level ∧ p < q := by
    intro q hq
    rcases h q hq with hlt | ⟨heq, hle⟩
    · exact .inl hlt
    · refine .inr ⟨heq, hle.lt_of_ne ?_⟩
      rintro rfl
      exact hnot ⟨hq, heq.symm⟩
  unfold scanNext
  split
  · rename_i hp
    refine ⟨fun l p' hc q hq => ?_, fun hc => by cases hc⟩
    obtain ⟨rfl, rfl⟩ := Code.scan.inj hc
    rcases hbehind q hq with hlt | ⟨heq, hlt⟩
    · exact .inl hlt
    · exact .inr ⟨heq, hlt⟩
  · rename_i hp
    -- it was the last entry of the table
    have hlevel : ∀ q, (m.procs q).state = .runnable → level < (m.procs q).level := by
      intro q hq
      rcases hbehind q hq with hlt | ⟨-, hlt⟩
      · exact hlt
      · have := q.isLt
        have : (p : ℕ) < q := hlt
        omega
    split
    · rename_i hl
      refine ⟨fun l p' hc q hq => ?_, fun hc => by cases hc⟩
      obtain ⟨rfl, rfl⟩ := Code.scan.inj hc
      rcases (show (⟨level + 1, hl⟩ : Fin 4) ≤ (m.procs q).level from hlevel q hq).lt_or_eq with
        hlt | heq
      · exact .inl hlt
      · exact .inr ⟨heq, Fin.mk_le_of_le_val (Nat.zero_le _)⟩
    · rename_i hl
      refine ⟨fun l p' hc => (by cases hc), fun _ q hq => ?_⟩
      have := (m.procs q).level.isLt
      have : (level : ℕ) < (m.procs q).level := hlevel q hq
      omega

theorem dispatch_not_searching (p : ProcIdx) (h : Hart) (m : Machine) :
    (dispatch p h m).1.code.searching = false := by
  unfold dispatch
  dsimp only
  split <;> rfl

/-- On a single hart nothing happens to the processes during a search. -/
theorem Searched.step {h h' : Hart} {m m' : Machine} (hs : Searched h m)
    (hstep : SchedStep h m h' m') : Searched h' m' := by
  cases hstep with
  | keep hproc hsearch hcode hsaved hprocs =>
    rcases hsearch with hnot | ⟨hc, hp⟩
    · exact .of_not_searching hnot
    · refine ⟨fun level p h' => ?_, fun h' => ?_⟩
      · have := hs.scan level p (hc ▸ h')
        simpa only [Machine.Ahead, hp] using this
      · simpa only [hp] using hs.idle (hc ▸ h')
  | search hcode =>
    refine ⟨fun level p hc => ?_, fun hc => by cases hc⟩
    obtain ⟨rfl, rfl⟩ := Code.scan.inj hc
    exact ahead_first m
  | skip level p hcode hnot => exact (hs.scan level p hcode).next hnot h
  | dispatch level p => exact .of_not_searching (dispatch_not_searching p h m)
  | syscall p hcode hcode' => exact .of_not_searching (by rw [hcode']; rfl)
  | uncharged | charge | expire | boost => exact .of_not_searching rfl
  | leave p k hcode hcode' => exact .of_not_searching (by rw [hcode']; rfl)
  | alloc p q k hcode => exact .of_not_searching (by rw [hcode]; rfl)

/-- One entry of the search is one step. -/
theorem step_scan {h : Hart} {m : Machine} {level : Fin 4} {p : ProcIdx}
    (hcode : h.code = .scan level p) :
    (trapSystem ()).step ⟨fun _ => h, m⟩ () .run =
      some ⟨fun _ => (scan level p h m).1, (scan level p h m).2⟩ := by
  refine System.step_eq_some.2 ⟨(scan level p h m).1, (scan level p h m).2, ?_, ?_⟩
  · simp [trapSystem, hcode, Code.intrOn, runStep]
  · congr 1

theorem scanNext_cases (level : Fin 4) (p : ProcIdx) :
    (∃ l q, scanNext level p = .scan l q ∧ 64 * (l : ℕ) + q = 64 * level + p + 1) ∨
      scanNext level p = .wfi := by
  have hlt := p.isLt
  unfold scanNext
  split
  · exact .inl ⟨_, _, rfl, rfl⟩
  · rename_i hp
    split
    · refine .inl ⟨_, _, rfl, ?_⟩
      simp only [Paging.nProc] at hp hlt ⊢
      omega
    · exact .inr rfl

/-- Dispatching a process does not depend on where the search stands. -/
theorem dispatch_code (p : ProcIdx) (h : Hart) (m : Machine) (code : Code) :
    dispatch p { h with code := code } m = dispatch p h m := by
  unfold dispatch
  dsimp only
  split <;> rfl

/-- **A pass of the scheduler ends**: it dispatches the first runnable process of the smallest
level, or it finds that there is none. -/
theorem scan_finds {h : Hart} {m : Machine} {level : Fin 4} {p : ProcIdx}
    (hcode : h.code = .scan level p) (hahead : m.Ahead level p) :
    ∃ n c, (trapSystem ()).exec (List.replicate n ((), .run)) ⟨fun _ => h, m⟩ = some c ∧
      ((∃ q, m.Least q ∧ c = ⟨fun _ => (dispatch q h m).1, (dispatch q h m).2⟩) ∨
        (∀ q, (m.procs q).state ≠ .runnable) ∧ c = ⟨fun _ => { h with code := .wfi }, m⟩) := by
  -- on the number of entries that are left
  induction hn : 256 - (64 * (level : ℕ) + p) using Nat.strong_induction_on
    generalizing h level p with
  | _ n ih =>
    have hstep := step_scan (m := m) hcode
    by_cases hfound : (m.procs p).state = .runnable ∧ (m.procs p).level = level
    · rw [scan, if_pos hfound] at hstep
      refine ⟨1, _, ?_, .inl ⟨p, hahead.least hfound.1 hfound.2, rfl⟩⟩
      simp only [List.replicate_one, System.exec, hstep, Option.bind_some]
    · rw [scan, if_neg hfound] at hstep
      have hsearched := hahead.next hfound h
      rcases scanNext_cases level p with ⟨l, q, hnext, hidx⟩ | hnext
      · rw [hnext] at hstep hsearched
        have hlt := l.isLt
        have hq := q.isLt
        simp only [Paging.nProc] at hq
        obtain ⟨k, c, hexec, hres⟩ := ih _ (by omega) (h := { h with code := .scan l q }) rfl
          (hsearched.scan l q rfl) rfl
        refine ⟨k + 1, c, ?_, ?_⟩
        · rw [List.replicate_succ, System.exec, hstep]
          exact hexec
        · simpa only [dispatch_code] using hres
      · rw [hnext] at hstep hsearched
        refine ⟨1, _, ?_, .inr ⟨hsearched.idle rfl, rfl⟩⟩
        simp only [List.replicate_one, System.exec, hstep, Option.bind_some]

/-! ## Whole runs -/

/-- The state of the queue: the processes in use are accounted for; the process that a step of the
search dispatches is the one to take; the scheduler idles only if no process is runnable; and every
pass ends in one of the two ways. -/
structure MlfqOk (c : Cfg Unit Hart (Machine × (ProcIdx → Account))) : Prop where
  accounts : ∀ p, (c.mem.1.procs p).state ≠ .unused → Accounted (c.mem.1.procs p) (c.mem.2 p)
  level : ∀ p, (c.mem.1.procs p).state ≠ .unused →
    0 ≤ (c.mem.2 p).level.toInt ∧ (c.mem.2 p).level.toInt ≤ 3
  dispatches : ∀ level p, (c.loc ()).code = .scan level p →
    (c.mem.1.procs p).state = .runnable → (c.mem.1.procs p).level = level → c.mem.1.Least p
  idles : (c.loc ()).code = .wfi → ∀ p, (c.mem.1.procs p).state ≠ .runnable
  ends : ∀ level p, (c.loc ()).code = .scan level p →
    ∃ n c', (trapSystem ()).exec (List.replicate n ((), .run)) c.erase = some c' ∧
      ((∃ q, c.mem.1.Least q ∧ c' = ⟨fun _ => (dispatch q (c.loc ()) c.mem.1).1,
          (dispatch q (c.loc ()) c.mem.1).2⟩) ∨
        (∀ q, (c.mem.1.procs q).state ≠ .runnable) ∧
          c' = ⟨fun _ => { c.loc () with code := .wfi }, c.mem.1⟩)

structure MlfqInv (c : Cfg Unit Hart (Machine × (ProcIdx → Account))) : Prop where
  exclusive : Exclusive c.loc c.mem.1
  accounts : AccountsOk c.mem.1 c.mem.2
  searched : Searched (c.loc ()) c.mem.1

theorem mlfqInv_start (regs : Regs) (stimecmp time : ℕ) {procs : ProcTable}
    (hboot : procs.Booted) : MlfqInv (mlfqStart regs stimecmp time procs) where
  exclusive := ⟨fun i p h => (by cases h), fun i j p h => (by cases h), fun p ret h => (by cases h)⟩
  accounts p hlive := by
    obtain ⟨-, hlevel, hused, hticks⟩ := hboot p hlive
    exact accounted_start hlevel hused hticks
  searched := .of_not_searching rfl

/-- **The queue is well-formed in every run on a single hart.** -/
theorem mlfq_wellFormed (regs : Regs) (stimecmp time : ℕ) (procs : ProcTable)
    (hboot : procs.Booted) (c : Cfg Unit Hart (Machine × (ProcIdx → Account)))
    (hrun : mlfqSystem.Reaches System.any (mlfqStart regs stimecmp time procs) c) : MlfqOk c := by
  have hinv : MlfqInv c := by
    refine hrun.inv (fun c i a l g _ hinv hn => ?_) (mlfqInv_start regs stimecmp time hboot)
    obtain ⟨hnext, hghost⟩ := System.withGhost_next hn
    have hstep := schedStep_of_next hnext
    refine ⟨hinv.exclusive.step hstep, ?_, hinv.searched.step hstep⟩
    dsimp only
    rw [hghost]
    exact hinv.accounts.step (fun p hp => hinv.exclusive.running i p hp) hstep
  refine ⟨hinv.accounts, fun p hlive => ?_, fun level p hcode hstate hlevel => ?_,
    hinv.searched.idle, fun level p hcode => scan_finds hcode (hinv.searched.scan level p hcode)⟩
  · have hlevel := (hinv.accounts p hlive).level
    have := (c.mem.1.procs p).level.isLt
    omega
  · exact (hinv.searched.scan level p hcode).least hstate hlevel

theorem runnableProcs_booted (n : ℕ) : (runnableProcs n 0).Booted := by
  refine fun p _ => ⟨?_, rfl, rfl, rfl⟩
  dsimp only [runnableProcs]
  split <;> decide

/-- A process uses up its quantum at level 0. The scheduler takes the timer interrupt once more and
then looks for a process. -/
def demotion : List (Unit × Action) :=
  [((), .run), ((), .run), ((), .run), ((), .pass 1000000), ((), .trap timerUser), ((), .run),
    ((), .run), ((), .run), ((), .run), ((), .run), ((), .pass 1000000), ((), .trap timerUser),
    ((), .run), ((), .run), ((), .run), ((), .run), ((), .trap timerKernel), ((), .run), ((), .run),
    ((), .run), ((), .run), ((), .run), ((), .run), ((), .run)]

theorem demotion_runs : (mlfqSystem.exec demotion
    (mlfqStart timerUser 1000000 0 (runnableProcs 2 0))).isSome := by
  decide +kernel

/-- The first process is at level 1 after two ticks, and the search has passed it at level 0. -/
theorem mlfq_wellFormed_demotion :
    ∃ c, mlfqSystem.Reaches System.any (mlfqStart timerUser 1000000 0 (runnableProcs 2 0)) c ∧
      (c.loc ()).code = .scan 0 ⟨1, by decide⟩ ∧ (c.mem.2 ⟨0, by decide⟩).level = 1 ∧
      (c.mem.2 ⟨0, by decide⟩).charged = 2 ∧ MlfqOk c := by
  have hrun := System.reaches_of_exec (Option.some_get demotion_runs).symm
  refine ⟨_, hrun, ?_, ?_, ?_, mlfq_wellFormed _ _ _ _ (runnableProcs_booted 2) _ hrun⟩
  all_goals decide +kernel

/-! ## Processes of the same level -/

/-- The process `p` uses up its quantum in this step. -/
def yields (before after : Hart × Machine) (p : ProcIdx) : Bool :=
  match before.1.code with
  | .clockintr .account ret =>
    ret.myproc = some p && before.2.expires ret && after.1.code ≠ before.1.code
  | _ => false

/-- `waiting p q`: since `p` last yielded at the end of its quantum, and as long as it has not been
dispatched again, the other process `q` has been runnable all the time. -/
abbrev Waiting := ProcIdx → ProcIdx → Bool

def recordWaiting (_ : Unit) (before after : Hart × Machine) (waiting : Waiting) : Waiting :=
  fun p q =>
    (after.2.procs q).state = .runnable && (after.2.procs p).state = .runnable && p ≠ q &&
      (yields before after p || waiting p q)

/-- One hart, with the processes that wait. -/
def waitSystem : System Unit Action Hart (Machine × Waiting) :=
  (trapSystem ()).withGhost recordWaiting

def waitStart (regs : Regs) (stimecmp time : ℕ) (procs : ProcTable) :
    Cfg Unit Hart (Machine × Waiting) :=
  ⟨fun _ => ⟨regs, stimecmp, .scheduler⟩, ⟨time, 0, 0, procs, fun _ => .forkret⟩, fun _ _ => false⟩

structure WaitInv (c : Cfg Unit Hart (Machine × Waiting)) : Prop where
  searched : Searched (c.loc ()) c.mem.1
  runnable : ∀ p q, c.mem.2 p q = true → (c.mem.1.procs q).state = .runnable ∧ p ≠ q

/-- **At the end of a quantum a process gives way to what comes before it**: when it is dispatched
again, every process that has been runnable ever since and has not been dispatched is of a larger
level, or of the same level and behind it in the table. -/
theorem yield_gives_way (regs : Regs) (stimecmp time : ℕ) (procs : ProcTable)
    (c : Cfg Unit Hart (Machine × Waiting))
    (hrun : waitSystem.Reaches System.any (waitStart regs stimecmp time procs) c) (p : ProcIdx)
    (hp : Dispatches (c.loc ()) c.mem.1 p) (q : ProcIdx) (hq : c.mem.2 p q = true) :
    (c.mem.1.procs p).level < (c.mem.1.procs q).level ∨
      (c.mem.1.procs p).level = (c.mem.1.procs q).level ∧ p < q := by
  have hinv : WaitInv c := by
    refine hrun.inv (fun c i a l g _ hinv hn => ?_)
      ⟨.of_not_searching rfl, fun p q h => (by cases h)⟩
    obtain ⟨hnext, hghost⟩ := System.withGhost_next hn
    refine ⟨hinv.searched.step (schedStep_of_next hnext), fun p q h => ?_⟩
    dsimp only at h
    rw [hghost] at h
    simp only [recordWaiting, Bool.and_eq_true, decide_eq_true_eq] at h
    exact ⟨h.1.1.1, h.1.2⟩
  obtain ⟨hready, hne⟩ := hinv.runnable p q hq
  rcases hinv.searched.scan _ p hp.1 q hready with hlt | ⟨heq, hle⟩
  · exact .inl hlt
  · exact .inr ⟨heq, lt_of_le_of_ne hle hne⟩

/-- A system call in user mode. -/
def ecall : Regs := ⟨8, 0, 0, 0⟩

/-- A process makes two system calls and uses up its quantum of two ticks, up to the scheduler's
next search. -/
def busyQuantum : List (Unit × Action) :=
  [((), .run), ((), .run), ((), .run), ((), .trap ecall), ((), .run), ((), .finish 0),
    ((), .trap ecall), ((), .run), ((), .finish 0), ((), .pass 1000000), ((), .trap timerUser),
    ((), .run), ((), .run), ((), .run), ((), .run), ((), .run), ((), .pass 1000000),
    ((), .trap timerUser), ((), .run), ((), .run), ((), .run), ((), .run), ((), .trap timerKernel),
    ((), .run), ((), .run), ((), .run), ((), .run), ((), .run), ((), .run)]

theorem busyQuantum_runs : (waitSystem.exec busyQuantum
    (waitStart timerUser 1000000 0 (runnableProcs 2 0))).isSome := by
  decide +kernel

/-- The other process is behind the one that yielded. -/
theorem yield_gives_way_busy :
    ∃ c, waitSystem.Reaches System.any (waitStart timerUser 1000000 0 (runnableProcs 2 0)) c ∧
      ∃ p q, Dispatches (c.loc ()) c.mem.1 p ∧ c.mem.2 p q = true ∧
        ((c.mem.1.procs p).level < (c.mem.1.procs q).level ∨
          (c.mem.1.procs p).level = (c.mem.1.procs q).level ∧ p < q) := by
  have hrun := System.reaches_of_exec (Option.some_get busyQuantum_runs).symm
  have hp : Dispatches (((waitSystem.exec busyQuantum
      (waitStart timerUser 1000000 0 (runnableProcs 2 0))).get busyQuantum_runs).loc ())
      ((waitSystem.exec busyQuantum
        (waitStart timerUser 1000000 0 (runnableProcs 2 0))).get busyQuantum_runs).mem.1
      ⟨0, by decide⟩ := by
    refine ⟨?_, ?_⟩
    all_goals decide +kernel
  have hq : ((waitSystem.exec busyQuantum
      (waitStart timerUser 1000000 0 (runnableProcs 2 0))).get busyQuantum_runs).mem.2
      ⟨0, by decide⟩ ⟨1, by decide⟩ = true := by
    decide +kernel
  exact ⟨_, hrun, _, _, hp, hq, yield_gives_way _ _ _ _ _ hrun _ hp _ hq⟩

/-- The process has kept its level and is dispatched again, although the other process has been
waiting at the same level all the time. -/
theorem yield_overtakes_equal :
    ∃ c, waitSystem.Reaches System.any (waitStart timerUser 1000000 0 (runnableProcs 2 0)) c ∧
      ∃ p q, Dispatches (c.loc ()) c.mem.1 p ∧ c.mem.2 p q = true ∧
        (c.mem.1.procs q).level ≤ (c.mem.1.procs p).level := by
  refine ⟨_, System.reaches_of_exec (Option.some_get busyQuantum_runs).symm,
    ⟨0, by decide⟩, ⟨1, by decide⟩, ⟨?_, ?_⟩, ?_, ?_⟩
  all_goals decide +kernel

end Xv6Swap.Trap
