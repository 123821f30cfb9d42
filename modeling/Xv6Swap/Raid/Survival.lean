import Xv6Swap.Raid.View

/-!
# Losing a disk

RAID 1 and RAID 5 keep every page through the loss of any one disk. The run has three parts:
writes with all disks present, the loss of disk `f` (its blocks become arbitrary), and reads and
writes that avoid `f`.

Two facts carry the pages over the loss. A read that avoids `f` cannot see the blocks of `f`
(`pageView_eq_of_agreeOff`), and at the end of the healthy writes it already returns what a healthy
read returns. For RAID 1 the latter is because every write fills both mirrors; for RAID 5 because
the healthy read-modify-write keeps the parity of every row (`ParityClean`), which is where the
assumption on the initial contents enters.
-/

namespace Xv6Swap.Raid

open Parity Store

/-- The disks hold the same blocks everywhere but on disk `f`. -/
def AgreeOff (f : ℕ) (disk disk' : Disk) : Prop :=
  ∀ e < nDisks, e ≠ f → ∀ r, row disk r e = row disk' r e

/-- A read with `f` failed sees no block of `f`. -/
theorem blockView_eq_of_agreeOff {mode : RaidMode} (hmode : mode ≠ .raid0) {f : ℕ}
    {disk disk' : Disk} (h : AgreeOff f disk disk') (b : ℕ) :
    blockView mode (some f) disk b = blockView mode (some f) disk' b := by
  cases mode with
  | raid0 => exact absurd rfl hmode
  | raid1 =>
    simp only [blockView, Option.some.injEq]
    split
    · rename_i hf
      exact h _ (raid1Map_disk2_lt b) (fun e => raid1Map_disk1_ne_disk2 b b (hf.trans e.symm)) _
    · rename_i hf
      exact h _ (raid1Map_disk1_lt b) hf _
  | raid5 =>
    refine recover_congr (mem_disks.2 (raid5Map_dataDisk_lt b)) fun e he => ?_
    obtain ⟨hlt, hne⟩ := mem_survivors.1 he
    exact h e (mem_disks.1 hlt) (fun e' => hne (congrArg some e'.symm)) _

theorem pageView_eq_of_agreeOff {mode : RaidMode} (hmode : mode ≠ .raid0) {f : ℕ}
    {disk disk' : Disk} (h : AgreeOff f disk disk') (slot : ℕ) :
    pageView mode (some f) disk slot = pageView mode (some f) disk' slot := by
  unfold pageView
  congr 1
  exact funext fun i => blockView_eq_of_agreeOff hmode h _

/-- Every block of disk `f` overwritten with the `garbage` for it. -/
def loseDisk (f : ℕ) (garbage : Disk) (d : Dev) : Dev :=
  { d with disk := fun n =>
      if swapStartBlock ≤ n ∧ (n - swapStartBlock) % nDisks = f then garbage n else d.disk n }

theorem agreeOff_loseDisk {f : ℕ} (hf : f < nDisks) (garbage : Disk) (d : Dev) :
    AgreeOff f (loseDisk f garbage d).disk d.disk := by
  intro e he hne r
  refine if_neg ?_
  simp only [swapPhysBlock, swapStartBlock, nDisks] at *
  omega

/-! ## Healthy writes -/

/-- The writes `ws` with all disks present. -/
def healthyWrites (mode : RaidMode) (ws : List (ℕ × Page)) (d : Dev) : Dev :=
  ws.foldl (fun d w => (swapDiskWrite mode none w.1 w.2 d).2) d

/-- The last page of `ws` for each slot. -/
def lastPages (ws : List (ℕ × Page)) : ℕ → Option Page :=
  ws.foldl (fun m w => Function.update m w.1 (some w.2)) fun _ => none

/-- Under RAID 1 a healthy write is read back from either mirror. -/
theorem blockView_raid1_writeDisk_self (failed : Option ℕ) (disk : Disk) (b : ℕ) (v : Block) :
    blockView .raid1 failed (writeDisk .raid1 none disk b v) b = v := by
  have hne := swapPhysBlock_ne_of_disk_ne (raid1Map_disk1_lt b) (raid1Map_disk2_lt b)
    (raid1Map_disk1_ne_disk2 b b)
      (raid1Map b).diskBlock (raid1Map b).diskBlock
  simp only [blockView, writeDisk, ne_eq, reduceCtorEq, not_false_eq_true, if_true]
  split
  · exact Function.update_self ..
  · rw [Function.update_of_ne hne, Function.update_self]

/-- RAID 1 written with all disks present and read with one failed. -/
def mirrorDevice (failed : Option ℕ) : Device Dev ℕ Page where
  put slot src d := (swapDiskWrite .raid1 none slot src d).2
  get slot dst d := (swapDiskRead .raid1 failed slot dst d).2
  view d slot := pageView .raid1 failed d.disk slot
  view_put_self slot src d := by
    refine Page.ext_block fun i => ?_
    rw [pageView, Page.block_ofBlocks, disk_swapDiskWrite]
    exact view_writeBlocks_of_mem
      (fun _ _ _ v h => blockView_raid1_writeDisk_of_ne failed none _ h v)
      (blockView_raid1_writeDisk_self failed) (List.nodup_finRange _) (List.mem_finRange i) _
  view_put_of_ne slot src d slot' hs := by
    refine Page.ext_block fun i => ?_
    rw [pageView, pageView, Page.block_ofBlocks, Page.block_ofBlocks, disk_swapDiskWrite]
    exact view_writeBlocks_of_ne
      (fun _ _ _ v h => blockView_raid1_writeDisk_of_ne failed none _ h v) hs src _ i _
  view_get slot dst d := by rw [(swapDiskRead_spec .raid1 failed slot dst d).1]
  get_eq slot dst d := (swapDiskRead_spec .raid1 failed slot dst d).2

/-- The four blocks of every row cancel. -/
def ParityClean (disk : Disk) : Prop := ∀ r, parity disks (row disk r) = 0

theorem parityClean_blankDev : ParityClean blankDev.disk := by
  intro r
  have h : ∀ l : List ℕ, parity l (row blankDev.disk r) = 0 := fun l => by
    induction l with
    | nil => rfl
    | cons e l ih => rw [parity_cons, ih, xor_zero]; rfl
  exact h disks

theorem ParityClean.writeDisk {disk : Disk} (h : ParityClean disk) (b : ℕ) (v : Block) :
    ParityClean (writeDisk .raid5 none disk b v) := by
  intro r
  by_cases hr : r = (raid5Map b).diskBlock
  · subst hr
    rw [row_writeDisk_self, parity_stripeWrite_none nodup_disks
      (mem_disks.2 (raid5Map_dataDisk_lt b)) (mem_disks.2 (raid5Map_parityDisk_lt b))
      (raid5Map_dataDisk_ne b), h]
  · rw [parity_congr fun e he => row_writeDisk_of_ne none disk b v hr (mem_disks.1 he), h]

theorem ParityClean.healthyWrites {d : Dev} (h : ParityClean d.disk) (ws : List (ℕ × Page)) :
    ParityClean (healthyWrites .raid5 ws d).disk := by
  induction ws generalizing d with
  | nil => exact h
  | cons w ws ih =>
    refine ih ?_
    rw [disk_swapDiskWrite]
    exact writeBlocks_induction (fun i _ disk hP => hP.writeDisk _ _) h

/-- On clean rows, reading around a failed disk returns what a healthy read returns. -/
theorem ParityClean.pageView_eq {disk : Disk} (h : ParityClean disk) (f slot : ℕ) :
    pageView .raid5 (some f) disk slot = pageView .raid5 none disk slot := by
  unfold pageView
  congr 1
  refine funext fun i => ?_
  simp only [blockView]
  rw [recover_eq_of_parity_zero nodup_disks (h _) (mem_disks.2 (raid5Map_dataDisk_lt _)),
    recover_eq_of_parity_zero nodup_disks (h _) (mem_disks.2 (raid5Map_dataDisk_lt _))]

/-- After the healthy writes, a read that avoids `f` returns every page written. -/
theorem covers_healthyWrites {mode : RaidMode} (hmode : mode ≠ .raid0) {d : Dev}
    (hclean : mode = .raid5 → ParityClean d.disk) (ws : List (ℕ × Page)) (f : ℕ) :
    Covers (swapDevice mode (some f)) (healthyWrites mode ws d) (lastPages ws) := by
  have hstart : ∀ D : Device Dev ℕ Page, Covers D d fun _ => none := fun D k w hw => by simp at hw
  cases mode with
  | raid0 => exact absurd rfl hmode
  | raid1 => exact (hstart (mirrorDevice (some f))).foldl_put ws
  | raid5 =>
    intro slot p hp
    have hnone := (hstart (swapDevice .raid5 none)).foldl_put ws slot p hp
    exact (((hclean rfl).healthyWrites ws).pageView_eq f slot).trans hnone

/-- **RAID 1 and RAID 5 survive the loss of any one disk.** Write the pages `ws` with all disks
present, lose disk `f` (the disk `d'` agrees with what was written only off `f`), then run any
sequence of calls that avoid `f`: every read returns the last page written to its slot, before or
after the loss. -/
theorem raid_survives_disk_loss {mode : RaidMode} (hmode : mode ≠ .raid0) {f : ℕ} {d : Dev}
    (hclean : mode = .raid5 → ParityClean d.disk) (ws : List (ℕ × Page)) {d' : Dev}
    (hd' : AgreeOff f d'.disk (healthyWrites mode ws d).disk) (ops : List (Op ℕ Page)) :
    List.Forall₂ Answers ((swapDevice mode (some f)).run ops d').2
      (specRun ops (lastPages ws)) := by
  refine (Device.run_refines (D := swapDevice mode (some f)) (fun slot p hp => ?_) ops).1
  exact (pageView_eq_of_agreeOff hmode hd' slot).trans
    (covers_healthyWrites hmode hclean ws f slot p hp)

/-- One page written to a blank array, disk 1 lost, the page read back. -/
theorem raid_survives_loss_of_disk_one :
    ((swapDevice .raid5 (some 1)).run [.get 0 0]
      (loseDisk 1 (fun _ => 0xff) (healthyWrites .raid5 [(0, fun _ => 7)] blankDev))).2 =
        [fun _ => 7] := by
  have h := raid_survives_disk_loss (show RaidMode.raid5 ≠ .raid0 by decide)
    (fun _ => parityClean_blankDev)
    [(0, fun _ => 7)] (agreeOff_loseDisk (f := 1) (by decide) (fun _ => 0xff) _) [.get 0 0]
  cases h with
  | cons hread hrest =>
    cases hrest
    exact congrArg (fun p => [p]) (hread _ rfl)

end Xv6Swap.Raid
