import Xv6Swap.Foundations.Simulation
import Xv6Swap.Paging.Transparent
import Xv6Swap.Raid.View

/-!
# Demand paging is invisible

Each operation of a process, run to completion, is matched by a step of the flat memories
(`performs_simulated`), and so are whole runs (`demandPaging_invisible`). Swap on each of the RAID
modes is a swap device for which this holds (`raidSwapLaws`).
-/

namespace Xv6Swap.Paging

open Raid (Byte Page pgSize)
open Simulation (Runs Simulates)

/-! ## Swap on RAID -/

/-- The calls of `kernel/virtio_disk.c` in a RAID mode. -/
def raidSwap (mode : Raid.RaidMode) : SwapOps Raid.Dev where
  write s := Raid.swapDiskWrite mode (Raid.currentFailedDisk mode) s
  read s := Raid.swapDiskRead mode (Raid.currentFailedDisk mode) s

/-- In each mode a slot holds the page last written to it. -/
def raidSwapLaws (mode : Raid.RaidMode) : SwapLaws (raidSwap mode) where
  view d s := (Raid.swapDevice mode (Raid.currentFailedDisk mode)).view d s
  write_ok _ _ _ := le_rfl
  view_write_self s pg d := (Raid.swapDevice mode _).view_put_self s pg d
  view_write_of_ne s pg d s' h :=
    (Raid.swapDevice mode _).view_put_of_ne s pg d s' fun e => h (Fin.ext e)
  read_ok _ _ _ := le_rfl
  view_read s pg d := funext fun s' => congrFun ((Raid.swapDevice mode _).view_get s pg d) s'
  read_eq s pg d := (Raid.swapDevice mode _).get_eq s pg d

namespace Kernel

variable {σ : Type} {S : SwapOps σ} {L : SwapLaws S} {k : Kernel σ} {f : Flat}

/-! ## Runs -/

/-- **Every operation** of a process succeeds or fails without a panic, keeps the table invariants
and is a step of the flat memories. -/
theorem perform_spec (L : SwapLaws S) (h : Sound k) (hf : Shows L k f) {op : Op}
    (hop : k.Allowed op) :
    ∃ out k', k.perform S op = .ok (out, k') ∧ Sound k' ∧
      ∃ f', Flat.Step f (op, out) f' ∧ Shows L k' f' := by
  obtain ⟨g, hinv, hs⟩ := h
  cases op with
  | load p va =>
    obtain ⟨⟨-, -, hp⟩, hva⟩ := hop
    obtain ⟨root, hroot⟩ := Option.isSome_iff_exists.1 hp
    obtain ⟨r, k', g', heq, hinv', hs', hf', hb⟩ := load_spec L hinv hs hf hroot hva
    simp only [perform, heq, ok_bind]
    refine ⟨_, k', rfl, ⟨g', hinv', hs'⟩, f, ?_, hf'⟩
    cases r with
    | none => exact .loadFailed f p va
    | some b =>
      obtain rfl := hb b rfl
      exact .load f p va
  | store p va b =>
    obtain ⟨⟨-, -, hp⟩, hva⟩ := hop
    obtain ⟨root, hroot⟩ := Option.isSome_iff_exists.1 hp
    obtain ⟨r, k', g', heq, hinv', hs', hf'⟩ := store_spec L hinv hs hf hroot hva b
    simp only [perform, heq, ok_bind]
    refine ⟨_, k', rfl, ⟨g', hinv', hs'⟩, _, ?_, hf'⟩
    cases r with
    | false => exact .storeFailed f p va b
    | true => exact .store f p va b
  | sbrk p n eager =>
    obtain ⟨-, -, hp⟩ := hop
    obtain ⟨root, hroot⟩ := Option.isSome_iff_exists.1 hp
    obtain ⟨r, k', g', heq, hinv', hs', hno, hyes⟩ := sysSbrk_spec L hinv hs hroot
      (n := n.toInt) n.le_toInt n.toInt_lt eager
    simp only [perform, heq, ok_bind]
    cases r with
    | none =>
      exact ⟨_, k', rfl, ⟨g', hinv', hs'⟩, f, .sbrkFailed f p n eager, (hno rfl).shows_same hf⟩
    | some a =>
      refine ⟨_, k', rfl, ⟨g', hinv', hs'⟩, _, .sbrk f p n eager, ?_⟩
      rw [hf.size]
      exact (hyes rfl).shows hf
  | exit p status =>
    obtain ⟨hinv', hs', hf'⟩ := kexit_spec hinv hs hf p status
    exact ⟨.done, _, rfl, ⟨g, hinv', hs'⟩, _, .exit f p status, hf'⟩
  | wait p q addr =>
    obtain ⟨⟨-, hz, hp⟩, hq⟩ := hop
    have hpq : p ≠ q := by
      rintro rfl
      exact hz hq
    obtain ⟨b, k', g', f', heq, hinv', hs', hf', hstep⟩ := kwait_spec L hinv hs hf hp hpq addr
    simp only [perform, heq, ok_bind]
    exact ⟨_, k', rfl, ⟨g', hinv', hs'⟩, f', hstep, hf'⟩

theorem performs_simulated (L : SwapLaws S) :
    Simulates (Performs S) Flat.Step fun k f => Sound k ∧ Shows L k f := by
  rintro k f ⟨op, out⟩ k' ⟨h, hf⟩ ⟨hop, heq⟩
  obtain ⟨out', k'', heq', h', f', hstep, hf'⟩ := perform_spec L h hf hop
  obtain ⟨rfl, rfl⟩ := Prod.mk.inj (Except.ok.inj (heq.symm.trans heq'))
  exact ⟨f', hstep, h', hf'⟩

/-- **Demand paging with swap is invisible.** In every run of processes from a state that satisfies
the table invariants, all outcomes are those of flat memories that start with the contents of the
processes' pages, and at no point does an operation panic. -/
theorem demandPaging_invisible (L : SwapLaws S) {k₀ k : Kernel σ} (h₀ : Sound k₀)
    {trace : List (Op × Outcome)} (hrun : Runs (Performs S) k₀ trace k) :
    (∃ f, Runs Flat.Step (k₀.flat L) trace f ∧ Shows L k f) ∧
      ∀ op, k.Allowed op → ∃ out k', k.perform S op = .ok (out, k') := by
  obtain ⟨f, hflat, h, hf⟩ := (performs_simulated L).runs ⟨h₀, shows_flat L k₀⟩ hrun
  refine ⟨⟨f, hflat, hf⟩, fun op hop => ?_⟩
  obtain ⟨out, k', heq, -⟩ := perform_spec L h hf hop
  exact ⟨out, k', heq⟩


/-! ## A run with a page in swap -/

/-- Perform operations one after another, as long as they are allowed. -/
def performAll (S : SwapOps σ) : List Op → Kernel σ → Option (List Outcome × Kernel σ)
  | [], k => some ([], k)
  | op :: ops, k =>
    if k.Allowed op then
      match k.perform S op with
      | .ok (out, k') => (performAll S ops k').map fun r => (out :: r.1, r.2)
      | .error _ => none
    else none

theorem runs_of_performAll {ops : List Op} {k k' : Kernel σ} {outs : List Outcome}
    (h : performAll S ops k = some (outs, k')) : Runs (Performs S) k (ops.zip outs) k' := by
  induction ops generalizing k outs with
  | nil =>
    obtain ⟨rfl, rfl⟩ := Prod.mk.inj (Option.some.inj h)
    exact .nil k
  | cons op ops ih =>
    rw [performAll] at h
    split at h
    · rename_i hop
      split at h
      · rename_i out k₁ heq
        obtain ⟨⟨outs', k''⟩, hrest, hr⟩ := Option.map_eq_some_iff.1 h
        obtain ⟨rfl, rfl⟩ := Prod.mk.inj hr
        exact .cons ⟨hop, heq⟩ (ih hrest)
      · cases h
    · cases h

/-- Tables with one page, in the first slot. -/
def oneSwapped (p : ProcIdx) (v : ℕ) : Tables :=
  { Tables.init with
    swapUsed := fun s => s.val == 0
    swapMap := fun s => if s.val == 0 then ⟨true, some p, v * pgSize, some s⟩ else .clear }

theorem oneSwapped_ok {np : ProcIdx → ℕ} {pte : ProcIdx → ℕ → Option Pte} {p : ProcIdx} {v : ℕ}
    (hv : v < np p) (hpte : pte p v = none) : TablesOk (oneSwapped p v) np pte none where
  frame_ok i hi := by simp [oneSwapped, Tables.init, Frame.clear] at hi
  frame_inj i j hi := by simp [oneSwapped, Tables.init, Frame.clear] at hi
  count := by simp [oneSwapped, Tables.init, Frame.clear]
  used_iff i := by
    by_cases hi : i.val = 0 <;> simp [oneSwapped, hi, SwapEntry.clear]
  swap_ok i hi := by
    by_cases h0 : i.val = 0
    · exact ⟨p, v, by simp [oneSwapped, h0], hv, hpte⟩
    · simp [oneSwapped, h0, SwapEntry.clear] at hi
  swap_inj i j q va hi hj := by
    have hzero : ∀ {i}, ((oneSwapped p v).swapMap i).Holds q va → i.val = 0 := by
      intro i hi
      by_contra h0
      simp [oneSwapped, h0, SwapEntry.clear, SwapEntry.Holds] at hi
    exact Fin.ext ((hzero hi).trans (hzero hj).symm)

/-- The root of the page table of the only process. -/
def soleRoot : PA := 0x80100000

def soleProc : ProcIdx := ⟨0, nProc_pos⟩

/-- One process of three pages. The first page is in swap, the others were never touched. -/
def sole : Kernel Raid.Dev where
  tables := oneSwapped soleProc 0
  freelist := [soleRoot + 0x1000, soleRoot + 0x2000, soleRoot + 0x3000, soleRoot + 0x4000]
  mem := fun _ => 0
  pts := fun _ => .empty
  procs := fun p =>
    if p = soleProc then ⟨.running, 3 * pgSize, some soleRoot, none, 0, 0, 0, 0, 0, 0, 0⟩
    else ⟨.unused, 0, none, none, 0, 0, 0, 0, 0, 0, 0⟩
  swap := ((raidSwap .raid5).write ⟨0, maxSwapPages_pos⟩ (fun _ => 9) Raid.blankDev).2
  kernEnd := soleRoot
  trampoline := 0x80000000

def soleGhost : Ghost where
  use pa := if pa = soleRoot then .root else if pa ∈ sole.freelist then .free else .kernel
  size root := if root = soleRoot then some 3 else none
  own p := if p = soleProc then some soleRoot else none
  pend := none

theorem sole_pages : PagesOk sole.freelist sole.kernEnd soleGhost.use where
  free_use := by decide
  nodup := by decide
  managed pa hpa := by
    by_cases hroot : pa = soleRoot
    · subst hroot
      decide
    · by_cases hmem : pa ∈ sole.freelist
      · have hall : ∀ pa ∈ sole.freelist, pa % pgSize = 0 ∧ sole.kernEnd ≤ pa ∧ pa < phystop := by
          decide
        exact hall pa hmem
      · simp [soleGhost, hroot, hmem] at hpa

theorem sole_sound : sole.Sound := by
  have hown : ∀ {p root}, soleGhost.own p = some root → p = soleProc ∧ root = soleRoot := by
    intro p root ho
    simpa [soleGhost, eq_comm] using ho
  have hroots : ∀ p, soleGhost.own p = (sole.procs p).pagetable := by
    intro p
    by_cases hp : p = soleProc <;> simp [soleGhost, sole, hp]
  refine ⟨soleGhost, ⟨sole_pages, fun root n hn => ?_, fun p root ho => ?_,
    fun p q root hp hq => ?_,
    fun p pa hpa => ?_, oneSwapped_ok (by decide) rfl⟩, hroots, fun p root hp => ?_, rfl⟩
  · obtain ⟨rfl, rfl⟩ : root = soleRoot ∧ 3 = n := by simpa [soleGhost] using hn
    exact ⟨rfl, nofun, nofun, nofun, nofun, nofun, nofun, by decide⟩
  · obtain ⟨-, rfl⟩ := hown ho
    rfl
  · rw [(hown hp).1, (hown hq).1]
  · by_cases hp : p = soleProc <;> simp [sole, hp] at hpa
  · obtain ⟨rfl, rfl⟩ := hown ((hroots p).trans hp)
    rfl

/-- A store to a page that was never touched and a load of it, a load of the page in swap, and a
load of the first page after it was given up and grown again. -/
def soleOps : List Op :=
  [.store soleProc 4100 7, .load soleProc 4100, .load soleProc 1, .sbrk soleProc (-8192) false,
    .sbrk soleProc 4096 false, .load soleProc 4100]

def soleOuts : List Outcome := [.done, .value 7, .value 9, .done, .done, .value 0]

theorem sole_runs : (performAll (raidSwap .raid5) soleOps sole).map Prod.fst = some soleOuts := by
  decide +kernel

theorem demandPaging_invisible_sole : sole.Sound ∧ ∃ k f,
    Runs (Performs (raidSwap .raid5)) sole (soleOps.zip soleOuts) k ∧
      Runs Flat.Step (sole.flat (raidSwapLaws .raid5)) (soleOps.zip soleOuts) f ∧
      Shows (raidSwapLaws .raid5) k f := by
  obtain ⟨⟨outs, k⟩, hrun, rfl⟩ := Option.map_eq_some_iff.1 sole_runs
  have hruns := runs_of_performAll hrun
  obtain ⟨⟨f, hflat, hf⟩, -⟩ :=
    demandPaging_invisible (raidSwapLaws .raid5) sole_sound hruns
  exact ⟨sole_sound, k, f, hruns, hflat, hf⟩

/-! ## A process with pages of all three kinds -/

/-- A process of three pages, the first in swap, the second resident and the third never touched. -/
def lone : Kernel Raid.Dev :=
  { sole with
    freelist := [soleRoot + 0x4000, soleRoot + 0x5000, soleRoot + 0x6000, soleRoot + 0x7000,
      soleRoot + 0x8000, soleRoot + 0x9000, soleRoot + 0xa000]
    mem := fun _ _ => 7
    pts := fun r => if r = soleRoot then
        { mid := fun i => if i = 0 then some (soleRoot + 0x1000) else none
          low := fun j => if j = 0 then some (soleRoot + 0x2000) else none
          leaf := fun v => if v = 1 then some ⟨soleRoot + 0x3000, .userRw⟩ else none }
      else .empty }

def loneGhost : Ghost where
  use pa :=
    if pa = soleRoot then .root
    else if pa = soleRoot + 0x1000 then .mid soleRoot 0
    else if pa = soleRoot + 0x2000 then .low soleRoot 0
    else if pa = soleRoot + 0x3000 then .user soleRoot 1
    else if pa ∈ lone.freelist then .free
    else .kernel
  size root := if root = soleRoot then some 3 else none
  own p := if p = soleProc then some soleRoot else none
  pend := none

theorem lone_pages : PagesOk lone.freelist lone.kernEnd loneGhost.use where
  free_use := by decide
  nodup := by decide
  managed pa hpa := by
    have hall : ∀ pa ∈ [soleRoot, soleRoot + 0x1000, soleRoot + 0x2000, soleRoot + 0x3000] ++
        lone.freelist, pa % pgSize = 0 ∧ lone.kernEnd ≤ pa ∧ pa < phystop := by decide
    by_contra hnot
    have hmem : pa ∉ [soleRoot, soleRoot + 0x1000, soleRoot + 0x2000, soleRoot + 0x3000] ++
        lone.freelist := fun hmem => hnot (hall pa hmem)
    simp only [List.mem_append, List.mem_cons, List.not_mem_nil, or_false, not_or] at hmem
    obtain ⟨⟨h1, h2, h3, h4⟩, h5⟩ := hmem
    exact hpa (by simp [loneGhost, h1, h2, h3, h4, h5])

theorem lone_pt : PtOk (lone.pts soleRoot) loneGhost.use soleRoot 3 := by
  refine ⟨by decide, fun i pg hi => ?_, fun i pg hi => ?_, fun j pg hj => ?_, fun j pg hj => ?_,
    fun v e hv => ?_, fun v e hv => ?_, by decide⟩
  · simp only [lone, if_true, Option.ite_none_right_eq_some, Option.some.injEq] at hi
    omega
  · simp only [lone, if_true, Option.ite_none_right_eq_some, Option.some.injEq] at hi
    obtain ⟨rfl, rfl⟩ := hi
    decide
  · simp only [lone, if_true, Option.ite_none_right_eq_some, Option.some.injEq] at hj
    obtain ⟨rfl, rfl⟩ := hj
    decide
  · simp only [lone, if_true, Option.ite_none_right_eq_some, Option.some.injEq] at hj
    obtain ⟨rfl, rfl⟩ := hj
    decide
  · simp only [lone, if_true, Option.ite_none_right_eq_some, Option.some.injEq] at hv
    obtain ⟨rfl, rfl⟩ := hv
    decide
  · simp only [lone, if_true, Option.ite_none_right_eq_some, Option.some.injEq] at hv
    obtain ⟨rfl, rfl⟩ := hv
    exact .inr ⟨by decide, by decide⟩

theorem lone_sound : lone.Sound := by
  have hroots : ∀ p, loneGhost.own p = (lone.procs p).pagetable := by decide
  have hown : ∀ {p root}, loneGhost.own p = some root → p = soleProc ∧ soleRoot = root := by
    intro p root ho
    simpa [loneGhost] using ho
  refine ⟨loneGhost, ⟨lone_pages, fun root n hn => ?_, fun p root ho => ?_,
    fun p q root hp hq => ?_,
    fun p pa hpa => ?_, oneSwapped_ok (by decide) (by decide)⟩, hroots, fun p root hp => ?_, rfl⟩
  · obtain ⟨rfl, rfl⟩ : root = soleRoot ∧ 3 = n := by simpa [loneGhost] using hn
    exact lone_pt
  · obtain ⟨-, rfl⟩ := hown ho
    decide
  · rw [(hown hp).1, (hown hq).1]
  · have hnone : ∀ p, (lone.procs p).trapframe = none := by decide
    simp [hnone] at hpa
  · obtain ⟨rfl, rfl⟩ := hown ((hroots p).trans hp)
    decide

end Kernel

end Xv6Swap.Paging
