import Mathlib.Tactic
import Mathlib.Data.BitVec
import Mathlib.Data.Set.Card
import Xv6Swap.Foundations.Parity

/-!
# Layout of the swap area

The constants and the address arithmetic of the RAID layer in `kernel/virtio_disk.c`. Four disks
are simulated on the one disk image: row `r` of the swap area is the four consecutive blocks
starting at `swapStartBlock + 4 r`, one for each disk. A page is four blocks; a logical block is
the `i`-th block of a swap slot.

`raid5Map` spreads three data blocks and one parity block over a row and moves the parity to the
next disk with each row. The facts proved here are the ones the rest of the development needs:
physical blocks of different places differ (`swapPhysBlock_inj`), a logical block never lies on
its row's parity disk (`raid5Map_dataDisk_ne`), and two logical blocks never share a place
(`raid5Map_inj`, `raid1Map_inj`, `raid0Map_inj`). Under RAID 5 the logical blocks and the parity
blocks fill the swap area exactly (`raid5Map_exact`).
-/

namespace Xv6Swap.Raid

/-- Disks of the simulated array. -/
def nDisks : ℕ := 4

/-- Bytes of a disk block (`fs.h`). -/
def bSize : ℕ := 1024

/-- Bytes of a page (`riscv.h`). -/
def pgSize : ℕ := 4096

/-- First block past the file system. -/
def swapStartBlock : ℕ := 1000

/-- Blocks of a page. -/
def blocksPerPage : ℕ := pgSize / bSize

abbrev Byte := BitVec 8

abbrev Block := Fin bSize → Byte

abbrev Page := Fin pgSize → Byte

/-- The block store behind `bread` and `bwrite`. -/
abbrev Disk := ℕ → Block

/-- The values of the global `raid_mode`. -/
inductive RaidMode
  | raid0
  | raid1
  | raid5
  deriving DecidableEq, Repr

/-- The disk simulated as failed under RAID 5. -/
def failedDisk : ℕ := 2

/-- `none` is the `-1` of the source: no failed disk. -/
def currentFailedDisk : RaidMode → Option ℕ
  | .raid5 => some failedDisk
  | _ => none

def swapPhysBlock (disk diskBlock : ℕ) : ℕ := swapStartBlock + diskBlock * nDisks + disk

/-- Where a logical block lies under RAID 1. -/
structure Raid1Loc where
  disk1 : ℕ
  disk2 : ℕ
  diskBlock : ℕ
  deriving DecidableEq, Repr

def raid1Map (logicalBlock : ℕ) : Raid1Loc :=
  let pair := logicalBlock % (nDisks / 2)
  { disk1 := pair * 2
    disk2 := pair * 2 + 1
    diskBlock := logicalBlock / (nDisks / 2) }

/-- Where a logical block and the parity of its row lie under RAID 5. -/
structure Raid5Loc where
  dataDisk : ℕ
  parityDisk : ℕ
  diskBlock : ℕ
  deriving DecidableEq, Repr

def raid5Map (logicalBlock : ℕ) : Raid5Loc :=
  let stripe := logicalBlock / (nDisks - 1)
  let dataIndex := logicalBlock % (nDisks - 1)
  let parityDisk := stripe % nDisks
  { dataDisk := if dataIndex ≥ parityDisk then dataIndex + 1 else dataIndex
    parityDisk := parityDisk
    diskBlock := stripe }

/-! ## Physical blocks -/

theorem swapStartBlock_le_swapPhysBlock (d r : ℕ) : swapStartBlock ≤ swapPhysBlock d r := by
  unfold swapPhysBlock
  omega

/-- Different places of the array are different blocks of the image. -/
theorem swapPhysBlock_inj {d d' r r' : ℕ} (hd : d < nDisks) (hd' : d' < nDisks) :
    swapPhysBlock d r = swapPhysBlock d' r' ↔ d = d' ∧ r = r' := by
  simp only [swapPhysBlock, nDisks] at *
  omega

theorem swapPhysBlock_ne_of_disk_ne {d d' : ℕ} (hd : d < nDisks) (hd' : d' < nDisks)
    (h : d ≠ d') (r r' : ℕ) : swapPhysBlock d r ≠ swapPhysBlock d' r' :=
  fun e => h ((swapPhysBlock_inj hd hd').1 e).1

theorem swapPhysBlock_ne_of_row_ne {d d' r r' : ℕ} (hd : d < nDisks) (hd' : d' < nDisks)
    (h : r ≠ r') : swapPhysBlock d r ≠ swapPhysBlock d' r' :=
  fun e => h ((swapPhysBlock_inj hd hd').1 e).2

/-! ## The maps of the three modes -/

theorem raid0Map_inj {b b' : ℕ} (h : swapPhysBlock (b % nDisks) (b / nDisks) =
    swapPhysBlock (b' % nDisks) (b' / nDisks)) : b = b' := by
  simp only [swapPhysBlock, nDisks] at h
  omega

theorem raid1Map_disk1_lt (b : ℕ) : (raid1Map b).disk1 < nDisks := by
  simp only [raid1Map, nDisks]
  omega

theorem raid1Map_disk2_lt (b : ℕ) : (raid1Map b).disk2 < nDisks := by
  simp only [raid1Map, nDisks]
  omega

/-- The first disks of two mirror pairs are never neighbours: pairs start at even disks. -/
theorem raid1Map_disk1_ne_disk2 (b b' : ℕ) : (raid1Map b).disk1 ≠ (raid1Map b').disk2 := by
  simp only [raid1Map, nDisks]
  omega

theorem raid1Map_inj {b b' : ℕ} (hd : (raid1Map b).disk1 = (raid1Map b').disk1)
    (hr : (raid1Map b).diskBlock = (raid1Map b').diskBlock) : b = b' := by
  simp only [raid1Map, nDisks] at hd hr
  omega

theorem raid5Map_dataDisk_lt (b : ℕ) : (raid5Map b).dataDisk < nDisks := by
  simp only [raid5Map]
  split <;> simp only [nDisks] at * <;> omega

theorem raid5Map_parityDisk_lt (b : ℕ) : (raid5Map b).parityDisk < nDisks := by
  simp only [raid5Map, nDisks]
  omega

/-- A logical block never lies on the parity disk of its row. -/
theorem raid5Map_dataDisk_ne (b : ℕ) : (raid5Map b).dataDisk ≠ (raid5Map b).parityDisk := by
  simp only [raid5Map]
  split <;> simp only [nDisks] at * <;> omega

/-- The parity disk is a function of the row. -/
theorem raid5Map_parityDisk (b : ℕ) : (raid5Map b).parityDisk = (raid5Map b).diskBlock % nDisks :=
  rfl

theorem raid5Map_inj {b b' : ℕ} (hd : (raid5Map b).dataDisk = (raid5Map b').dataDisk)
    (hr : (raid5Map b).diskBlock = (raid5Map b').diskBlock) : b = b' := by
  simp only [raid5Map] at hd hr
  split at hd <;> split at hd <;> simp only [nDisks] at * <;> omega

/-! ## The places of RAID 5 -/

/-- The physical blocks of a logical block and of the parity of its row. -/
def dataBlock (b : ℕ) : ℕ := swapPhysBlock (raid5Map b).dataDisk (raid5Map b).diskBlock

def parityBlock (b : ℕ) : ℕ := swapPhysBlock (raid5Map b).parityDisk (raid5Map b).diskBlock

theorem dataBlock_inj {b b' : ℕ} (h : dataBlock b = dataBlock b') : b = b' := by
  obtain ⟨hd, hr⟩ := (swapPhysBlock_inj (raid5Map_dataDisk_lt b) (raid5Map_dataDisk_lt b')).1 h
  exact raid5Map_inj hd hr

theorem dataBlock_ne_parityBlock (b b' : ℕ) : dataBlock b ≠ parityBlock b' := by
  intro h
  obtain ⟨hd, hr⟩ := (swapPhysBlock_inj (raid5Map_dataDisk_lt b) (raid5Map_parityDisk_lt b')).1 h
  refine raid5Map_dataDisk_ne b ?_
  rw [hd, raid5Map_parityDisk, raid5Map_parityDisk, hr]

/-- Every place that is not the parity of its row holds a logical block. -/
theorem raid5Map_surj {d r : ℕ} (hd : d < nDisks) (hne : d ≠ r % nDisks) :
    ∃ b, (raid5Map b).dataDisk = d ∧ (raid5Map b).diskBlock = r := by
  by_cases hlt : d < r % nDisks
  · refine ⟨3 * r + d, ?_, ?_⟩
    · simp only [raid5Map]
      split <;> simp only [nDisks] at * <;> omega
    · simp only [raid5Map, nDisks] at *
      omega
  · refine ⟨3 * r + (d - 1), ?_, ?_⟩
    · simp only [raid5Map]
      split <;> simp only [nDisks] at * <;> omega
    · simp only [raid5Map, nDisks] at *
      omega

theorem ncard_row (r : ℕ) : {b | (raid5Map b).diskBlock = r}.ncard = 3 := by
  have hrow : {b | (raid5Map b).diskBlock = r} = ↑(Finset.Ico (3 * r) (3 * r + 3)) := by
    ext b
    simp only [raid5Map, nDisks, Set.mem_ofPred_eq, Finset.coe_Ico, Set.mem_Ico]
    omega
  rw [hrow, Set.ncard_coe_finset, Nat.card_Ico]
  omega

/-- A block of the swap area is a place of the array. -/
theorem exists_swapPhysBlock {n : ℕ} (hn : swapStartBlock ≤ n) :
    ∃ d r, d < nDisks ∧ swapPhysBlock d r = n := by
  refine ⟨(n - swapStartBlock) % nDisks, (n - swapStartBlock) / nDisks, ?_, ?_⟩
  · exact Nat.mod_lt _ (by decide)
  · simp only [swapPhysBlock, nDisks] at *
    omega

/-- A block of the swap area holds a logical block or the parity of a row, and not both. -/
theorem data_xor_parity {n : ℕ} (hn : swapStartBlock ≤ n) :
    Xor (∃! b, dataBlock b = n) (∃! r, swapPhysBlock (r % nDisks) r = n) := by
  obtain ⟨d, r, hd, rfl⟩ := exists_swapPhysBlock hn
  have hmod : ∀ r, r % nDisks < nDisks := fun r => Nat.mod_lt _ (by decide)
  by_cases hpar : d = r % nDisks
  · refine .inr ⟨⟨r, by rw [hpar], fun r' hr' => ?_⟩, ?_⟩
    · exact ((swapPhysBlock_inj (hmod r') hd).1 hr').2
    · rintro ⟨b, hb, -⟩
      obtain ⟨hdisk, hrow⟩ := (swapPhysBlock_inj (raid5Map_dataDisk_lt b) hd).1 hb
      refine raid5Map_dataDisk_ne b ?_
      rw [hdisk, hpar, ← hrow, raid5Map_parityDisk]
  · obtain ⟨b, hdisk, hrow⟩ := raid5Map_surj hd hpar
    refine .inl ⟨⟨b, by simp only [dataBlock, hdisk, hrow], fun b' hb' => ?_⟩, ?_⟩
    · refine dataBlock_inj (hb'.trans ?_)
      simp only [dataBlock, hdisk, hrow]
    · rintro ⟨r', hr', -⟩
      obtain ⟨hdisk', rfl⟩ := (swapPhysBlock_inj (hmod r') hd).1 hr'
      exact hpar hdisk'.symm

/-- **The RAID 5 layout is exact.** A logical block and the parity of its row lie on two different
disks; the logical blocks fill exactly the places that are not their row's parity; a row has three
of them; and every block of the swap area is in use, for data or for parity. The block numbers fit
the types of the source. -/
theorem raid5Map_exact :
    (∀ b, (raid5Map b).dataDisk < nDisks ∧ (raid5Map b).parityDisk < nDisks ∧
      (raid5Map b).dataDisk ≠ (raid5Map b).parityDisk) ∧
    (∀ b b', (raid5Map b).dataDisk = (raid5Map b').dataDisk →
      (raid5Map b).diskBlock = (raid5Map b').diskBlock → b = b') ∧
    (∀ d r, d < nDisks → d ≠ r % nDisks →
      ∃! b, (raid5Map b).dataDisk = d ∧ (raid5Map b).diskBlock = r) ∧
    (∀ b b', dataBlock b ≠ parityBlock b') ∧
    (∀ r, {b | (raid5Map b).diskBlock = r}.ncard = 3 ∧
      ∀ b, (raid5Map b).diskBlock = r → parityBlock b = swapPhysBlock (r % nDisks) r) ∧
    (∀ n, swapStartBlock ≤ n →
      Xor (∃! b, dataBlock b = n) (∃! r, swapPhysBlock (r % nDisks) r = n)) ∧
    ∀ b < 2 ^ 31, dataBlock b < 2 ^ 32 ∧ parityBlock b < 2 ^ 32 := by
  refine ⟨fun b => ⟨raid5Map_dataDisk_lt b, raid5Map_parityDisk_lt b, raid5Map_dataDisk_ne b⟩,
    fun b b' => raid5Map_inj, fun d r hd hne => ?_, dataBlock_ne_parityBlock,
    fun r => ⟨ncard_row r, ?_⟩, fun n => data_xor_parity, fun b hb => ?_⟩
  · obtain ⟨b, hdisk, hrow⟩ := raid5Map_surj hd hne
    refine ⟨b, ⟨hdisk, hrow⟩, ?_⟩
    rintro b' ⟨hdisk', hrow'⟩
    exact raid5Map_inj (hdisk'.trans hdisk.symm) (hrow'.trans hrow.symm)
  · rintro b rfl
    rw [parityBlock, raid5Map_parityDisk]
  · have hdata := raid5Map_dataDisk_lt b
    have hparity := raid5Map_parityDisk_lt b
    have hrow : (raid5Map b).diskBlock = b / 3 := rfl
    simp only [dataBlock, parityBlock, swapPhysBlock, swapStartBlock, nDisks] at *
    omega

end Xv6Swap.Raid
