import Xv6Swap.Raid.Rounds
import Xv6Swap.Raid.Survival

/-!
# A failed disk is not used

With disk `f` failed, no section of a transfer under RAID 1 or RAID 5 reads or writes a block of `f`
(`callSections_avoid`). The two-run statement is `failed_disk_isolated`: runs that start from disks
which differ on `f` only return the same pages and end in disks which differ on `f` only, and the
blocks of `f` are as before.
-/

namespace Xv6Swap.Raid

open Parity Store

/-! ## Blocks of a disk -/

/-- Block `n` of the image is a block of disk `f` of the array. -/
def OnDisk (f n : ℕ) : Prop := ∃ r, n = swapPhysBlock f r

theorem not_onDisk {e f : ℕ} (he : e < nDisks) (hf : f < nDisks) (hne : e ≠ f) (r : ℕ) :
    ¬ OnDisk f (swapPhysBlock e r) := by
  rintro ⟨r', h⟩
  exact swapPhysBlock_ne_of_disk_ne he hf hne r r' h

/-- The disks hold the same blocks except on disk `f`. -/
def AgreeExcept (f : ℕ) (disk disk' : Disk) : Prop := ∀ n, ¬ OnDisk f n → disk n = disk' n

theorem AgreeExcept.agreeOff {f : ℕ} (hf : f < nDisks) {disk disk' : Disk}
    (h : AgreeExcept f disk disk') : AgreeOff f disk disk' := by
  intro e he hne r
  exact h _ (not_onDisk he hf hne r)

theorem AgreeExcept.update {f : ℕ} {disk disk' : Disk} (h : AgreeExcept f disk disk') (n : ℕ)
    (v : Block) : AgreeExcept f (Function.update disk n v) (Function.update disk' n v) := by
  intro m hm
  simp only [Function.update_apply]
  split
  · rfl
  · exact h m hm

/-! ## Sections -/

/-- The section uses no block of disk `f`. -/
def Instr.Avoids (f : ℕ) (ι : Instr) : Prop := ∀ n, ι.block = some n → ¬ OnDisk f n

section Sections

variable {mode : RaidMode} (hmode : mode ≠ .raid0) {f : ℕ} (hf : f < nDisks)
include hmode hf

theorem readInstrs_avoid (b : ℕ) (i : Fin blocksPerPage) :
    ∀ ι ∈ readInstrs mode (some f) b i, ι.Avoids f := by
  intro ι hι n hn
  cases mode with
  | raid0 => exact absurd rfl hmode
  | raid1 =>
    simp only [readInstrs, Option.some.injEq, List.mem_singleton] at hι
    subst hι
    obtain rfl := Option.some.inj hn
    split
    · rename_i h
      exact not_onDisk (raid1Map_disk2_lt b) hf
        (fun e => raid1Map_disk1_ne_disk2 b b (h.trans e.symm)) _
    · rename_i h
      exact not_onDisk (raid1Map_disk1_lt b) hf h _
  | raid5 =>
    simp only [readInstrs, reduceCtorEq, if_false] at hι
    split at hι
    · rename_i h
      obtain rfl := List.mem_singleton.1 hι
      obtain rfl := Option.some.inj hn
      exact not_onDisk (raid5Map_dataDisk_lt b) hf (fun e => h (congrArg some e.symm)) _
    · -- the reconstruction leaves the failed disk out
      simp only [List.cons_append, List.mem_cons, List.mem_append, List.mem_map,
        List.not_mem_nil, or_false] at hι
      rcases hι with rfl | ⟨e, he, rfl⟩ | rfl
      · cases hn
      · obtain ⟨hlt, hne⟩ := mem_survivors.1 he
        obtain rfl := Option.some.inj hn
        exact not_onDisk (mem_disks.1 hlt) hf (fun h => hne (congrArg some h.symm)) _
      · cases hn

theorem writeInstrs_avoid (b : ℕ) (v : Block) :
    ∀ ι ∈ writeInstrs mode (some f) b v, ι.Avoids f := by
  intro ι hι n hn
  cases mode with
  | raid0 => exact absurd rfl hmode
  | raid1 =>
    simp only [writeInstrs, ne_eq, Option.some.injEq, List.mem_append] at hι
    rcases hι with hι | hι
    · split at hι
      · rename_i h
        obtain rfl := List.mem_singleton.1 hι
        obtain rfl := Option.some.inj hn
        exact not_onDisk (raid1Map_disk1_lt b) hf h _
      · cases hι
    · split at hι
      · rename_i h
        obtain rfl := List.mem_singleton.1 hι
        obtain rfl := Option.some.inj hn
        exact not_onDisk (raid1Map_disk2_lt b) hf h _
      · cases hι
  | raid5 =>
    have hdata : f ≠ (raid5Map b).dataDisk → ¬ OnDisk f (dataBlock b) := fun h =>
      not_onDisk (raid5Map_dataDisk_lt b) hf h.symm _
    have hparity : f ≠ (raid5Map b).parityDisk → ¬ OnDisk f (parityBlock b) := fun h =>
      not_onDisk (raid5Map_parityDisk_lt b) hf h.symm _
    simp only [writeInstrs, reduceCtorEq, false_or, ne_eq, Option.some.injEq] at hι
    split at hι
    · rename_i h
      simp only [List.mem_cons, List.not_mem_nil, or_false] at hι
      rcases hι with rfl | rfl | rfl | rfl | rfl <;> cases hn
      · exact hdata h.1
      · exact hparity h.2
      · exact hdata h.1
      · exact hparity h.2
    · split at hι
      · rename_i h
        obtain rfl := List.mem_singleton.1 hι
        obtain rfl := Option.some.inj hn
        exact hdata fun e => raid5Map_dataDisk_ne b (e.symm.trans h)
      · rename_i h
        simp only [List.cons_append, List.mem_cons, List.mem_append, List.mem_map,
          List.not_mem_nil, or_false] at hι
        rcases hι with rfl | ⟨e, he, rfl⟩ | rfl | rfl | rfl
        · cases hn
        · obtain ⟨hlt, hne⟩ := mem_survivors.1 he
          obtain rfl := Option.some.inj hn
          exact not_onDisk (mem_disks.1 hlt) hf (fun h => hne (congrArg some h.symm)) _
        · obtain rfl := Option.some.inj hn
          exact hparity h
        · cases hn
        · obtain rfl := Option.some.inj hn
          exact hparity h

end Sections

/-- The sections of a call of `swap_disk_write` (`put`) or `swap_disk_read` (`get`). -/
def callSections (mode : RaidMode) (failed : Option ℕ) : Op ℕ Page → List Instr
  | .put slot src => (writeRounds mode failed slot src).flatten
  | .get slot _ => (readRounds mode failed slot).flatten

theorem callSections_avoid {mode : RaidMode} (hmode : mode ≠ .raid0) {f : ℕ} (hf : f < nDisks)
    (op : Op ℕ Page) : ∀ ι ∈ callSections mode (some f) op, ι.Avoids f := by
  intro ι hι
  cases op with
  | put slot src =>
    obtain ⟨round, hround, hmem⟩ := List.mem_flatten.1 hι
    obtain ⟨i, -, rfl⟩ := List.mem_map.1 hround
    exact writeInstrs_avoid hmode hf _ _ ι hmem
  | get slot dst =>
    obtain ⟨round, hround, hmem⟩ := List.mem_flatten.1 hι
    obtain ⟨i, -, rfl⟩ := List.mem_map.1 hround
    exact readInstrs_avoid hmode hf _ _ ι hmem

/-- Sections that avoid `f` leave its blocks alone. -/
theorem runInstrs_of_avoid {f : ℕ} {is : List Instr} (h : ∀ ι ∈ is, ι.Avoids f) (s : Dev × Page)
    (r : ℕ) : (runInstrs is s).1.disk (swapPhysBlock f r) = s.1.disk (swapPhysBlock f r) := by
  refine runInstrs_disk_of_target_ne (fun ι hι htarget => ?_) s
  have hblock : ι.block = some (swapPhysBlock f r) := by
    cases ι <;> first | exact htarget | cases htarget
  exact h ι hι _ hblock ⟨r, rfl⟩

/-! ## Two runs -/

section TwoRuns

variable {mode : RaidMode} (hmode : mode ≠ .raid0) {f : ℕ} (hf : f < nDisks)
include hmode hf

theorem AgreeExcept.writeDisk {disk disk' : Disk} (h : AgreeExcept f disk disk') (b : ℕ)
    (v : Block) :
    AgreeExcept f (writeDisk mode (some f) disk b v) (writeDisk mode (some f) disk' b v) := by
  cases mode with
  | raid0 => exact absurd rfl hmode
  | raid1 =>
    simp only [Raid.writeDisk]
    split_ifs
    · exact (h.update _ _).update _ _
    · exact h.update _ _
    · exact h.update _ _
    · exact h
  | raid5 =>
    have hrow := h.agreeOff hf
    have hd := raid5Map_dataDisk_lt b
    have hp := raid5Map_parityDisk_lt b
    simp only [Raid.writeDisk, Option.some.injEq]
    split_ifs with hdata hparity
    · have hold : row disk (raid5Map b).diskBlock (raid5Map b).parityDisk =
          row disk' (raid5Map b).diskBlock (raid5Map b).parityDisk :=
        hrow _ hp (fun e => raid5Map_dataDisk_ne b (hdata.symm.trans e.symm)) _
      have hsum : parity (survivors disks (some f)) (row disk (raid5Map b).diskBlock) =
          parity (survivors disks (some f)) (row disk' (raid5Map b).diskBlock) := by
        refine parity_congr fun e he => ?_
        obtain ⟨hlt, hne⟩ := mem_survivors.1 he
        exact hrow e (mem_disks.1 hlt) (fun h => hne (congrArg some h.symm)) _
      rw [hold, hsum]
      exact h.update _ _
    · exact h.update _ _
    · rw [hrow _ hp (Ne.symm hparity), hrow _ hd (Ne.symm hdata)]
      exact (h.update _ _).update _ _

theorem AgreeExcept.swapDiskWrite {d d' : Dev} (h : AgreeExcept f d.disk d'.disk) (slot : ℕ)
    (src : Page) : AgreeExcept f (swapDiskWrite mode (some f) slot src d).2.disk
      (swapDiskWrite mode (some f) slot src d').2.disk := by
  rw [disk_swapDiskWrite, disk_swapDiskWrite]
  generalize List.finRange blocksPerPage = l
  generalize d.disk = disk, d'.disk = disk' at h ⊢
  induction l generalizing disk disk' with
  | nil => exact h
  | cons i l ih => exact ih _ _ (h.writeDisk hmode hf _ _)

/-- Two runs return the same pages and end in disks that differ on `f` only. -/
theorem AgreeExcept.run {d d' : Dev} (h : AgreeExcept f d.disk d'.disk) (ops : List (Op ℕ Page)) :
    ((swapDevice mode (some f)).run ops d).2 = ((swapDevice mode (some f)).run ops d').2 ∧
      AgreeExcept f ((swapDevice mode (some f)).run ops d).1.disk
        ((swapDevice mode (some f)).run ops d').1.disk := by
  induction ops generalizing d d' with
  | nil => exact ⟨rfl, h⟩
  | cons op ops ih =>
    cases op with
    | put slot src => exact ih (h.swapDiskWrite hmode hf slot src)
    | get slot dst =>
      obtain ⟨hdisk, hpage⟩ := swapDiskRead_spec mode (some f) slot dst d
      obtain ⟨hdisk', hpage'⟩ := swapDiskRead_spec mode (some f) slot dst d'
      have hview := pageView_eq_of_agreeOff hmode (h.agreeOff hf) slot
      obtain ⟨hrest, hend⟩ := @ih (swapDiskRead mode (some f) slot dst d).2.1
        (swapDiskRead mode (some f) slot dst d').2.1 (by rw [hdisk, hdisk']; exact h)
      refine ⟨?_, hend⟩
      exact congrArg₂ List.cons (hpage.trans (hview.trans hpage'.symm)) hrest

/-- A run leaves the blocks of `f` alone. -/
theorem run_onDisk (ops : List (Op ℕ Page)) (d : Dev) (r : ℕ) :
    ((swapDevice mode (some f)).run ops d).1.disk (swapPhysBlock f r) =
      d.disk (swapPhysBlock f r) := by
  refine Device.run_induction (swapDevice mode (some f))
    (P := fun d' => d'.disk (swapPhysBlock f r) = d.disk (swapPhysBlock f r))
    (fun slot src d' hP => ?_) (fun slot dst d' hP => ?_) ops rfl
  · exact (runInstrs_of_avoid (callSections_avoid hmode hf (.put slot src)) (d', src) r).trans hP
  · exact (runInstrs_of_avoid (callSections_avoid hmode hf (.get slot dst)) (d', dst) r).trans hP

/-- **A failed disk is not used.** Transfers with `f` failed, from disks that differ on `f` only,
return the same pages and end in disks that differ on `f` only; no section uses a block of `f`, and
the blocks of `f` are as before. -/
theorem failed_disk_isolated (ops : List (Op ℕ Page)) {d d' : Dev}
    (h : AgreeExcept f d.disk d'.disk) :
    (((swapDevice mode (some f)).run ops d).2 = ((swapDevice mode (some f)).run ops d').2 ∧
      AgreeExcept f ((swapDevice mode (some f)).run ops d).1.disk
        ((swapDevice mode (some f)).run ops d').1.disk) ∧
    (∀ op ∈ ops, ∀ ι ∈ callSections mode (some f) op, ι.Avoids f) ∧
    ∀ r, ((swapDevice mode (some f)).run ops d).1.disk (swapPhysBlock f r) =
        d.disk (swapPhysBlock f r) ∧
      ((swapDevice mode (some f)).run ops d').1.disk (swapPhysBlock f r) =
        d'.disk (swapPhysBlock f r) :=
  ⟨h.run hmode hf ops, fun op _ => callSections_avoid hmode hf op,
    fun r => ⟨run_onDisk hmode hf ops d r, run_onDisk hmode hf ops d' r⟩⟩

end TwoRuns

/-- Disk 1 blank in one run and full of ones in the other. -/
theorem failed_disk_one_isolated :
    ((swapDevice .raid5 (some 1)).run [.put 0 fun _ => 7, .get 0 fun _ => 0] blankDev).2 =
        ((swapDevice .raid5 (some 1)).run [.put 0 fun _ => 7, .get 0 fun _ => 0]
          (loseDisk 1 (fun _ _ => 1) blankDev)).2 ∧
      ((swapDevice .raid5 (some 1)).run [.put 0 fun _ => 7, .get 0 fun _ => 0]
        (loseDisk 1 (fun _ _ => 1) blankDev)).1.disk (swapPhysBlock 1 0) = fun _ => 1 := by
  have hagree : AgreeExcept 1 blankDev.disk (loseDisk 1 (fun _ _ => 1) blankDev).disk := by
    intro n hn
    refine (if_neg fun h => hn ⟨(n - swapStartBlock) / nDisks, ?_⟩).symm
    simp only [swapPhysBlock, swapStartBlock, nDisks] at *
    omega
  obtain ⟨⟨hpages, -⟩, -, hblocks⟩ :=
    @failed_disk_isolated .raid5 (by decide) 1 (by decide) [.put 0 fun _ => 7, .get 0 fun _ => 0]
      _ _ hagree
  exact ⟨hpages, (hblocks 0).2⟩

end Xv6Swap.Raid
