import Xv6Swap.Foundations.Store
import Xv6Swap.Raid.Transfer

/-!
# What the swap area stores

The view of a disk assigns to every swap slot the page a read of it returns. In each mode, with or
without a failed disk and whatever the disk holds, a write of a block is read back
(`blockView_writeDisk_self`) and moves no other logical block (`blockView_writeDisk_of_ne`). Under
RAID 5 both are the stripe laws of `Parity`, applied to the row of the block; the work here is to
see that a write touches one row, and one stripe of it.

Summed up over the rounds of a call, the two transfer functions form a `Store.Device`
(`swapDevice`): the page store the paging code relies on. `swap_refines_pageStore` states what
this means for a whole sequence of calls.
-/

namespace Xv6Swap.Raid

open Parity Store

theorem mem_disks {d : ℕ} : d ∈ disks ↔ d < nDisks := List.mem_range

theorem nodup_disks : disks.Nodup := List.nodup_range

/-! ## Rows -/

theorem row_update_self (disk : Disk) (d r : ℕ) (v : Block) :
    row (Function.update disk (swapPhysBlock d r) v) r = Function.update (row disk r) d v := by
  funext e
  by_cases h : e = d
  · subst h
    simp [row]
  · have hne : swapPhysBlock e r ≠ swapPhysBlock d r := by
      simp only [swapPhysBlock]
      omega
    simp [row, h, hne]

theorem row_update_of_ne (disk : Disk) {d e r r' : ℕ} (hd : d < nDisks) (he : e < nDisks)
    (h : r' ≠ r) (v : Block) :
    row (Function.update disk (swapPhysBlock d r) v) r' e = row disk r' e :=
  Function.update_of_ne (swapPhysBlock_ne_of_row_ne he hd h) _ _

/-- A RAID 5 write is a stripe write on the row of its block. -/
theorem row_writeDisk_self (failed : Option ℕ) (disk : Disk) (b : ℕ) (v : Block) :
    row (writeDisk .raid5 failed disk b v) (raid5Map b).diskBlock =
      stripeWrite disks failed (row disk (raid5Map b).diskBlock) (raid5Map b).dataDisk
        (raid5Map b).parityDisk v := by
  simp only [writeDisk, stripeWrite]
  split_ifs <;> simp only [row_update_self]

/-- A RAID 5 write touches no other row. -/
theorem row_writeDisk_of_ne (failed : Option ℕ) (disk : Disk) (b : ℕ) (v : Block) {r e : ℕ}
    (h : r ≠ (raid5Map b).diskBlock) (he : e < nDisks) :
    row (writeDisk .raid5 failed disk b v) r e = row disk r e := by
  have hd := raid5Map_dataDisk_lt b
  have hp := raid5Map_parityDisk_lt b
  simp only [writeDisk]
  split_ifs
  · exact row_update_of_ne _ hp he h _
  · exact row_update_of_ne _ hd he h _
  · rw [row_update_of_ne _ hp he h, row_update_of_ne _ hd he h]

/-! ## Blocks -/

theorem blockView_writeDisk_self (mode : RaidMode) (failed : Option ℕ) (disk : Disk) (b : ℕ)
    (v : Block) : blockView mode failed (writeDisk mode failed disk b v) b = v := by
  cases mode with
  | raid0 => exact Function.update_self ..
  | raid1 =>
    have hne := swapPhysBlock_ne_of_disk_ne (raid1Map_disk1_lt b) (raid1Map_disk2_lt b)
      (raid1Map_disk1_ne_disk2 b b)
      (raid1Map b).diskBlock (raid1Map b).diskBlock
    by_cases h : some (raid1Map b).disk1 = failed
    · have h2 : some (raid1Map b).disk2 ≠ failed := by
        rw [← h]
        exact fun e => raid1Map_disk1_ne_disk2 b b (Option.some.inj e).symm
      simp [blockView, writeDisk, h, h2]
    · simp only [blockView, writeDisk, ne_eq, h, not_false_eq_true, if_true, if_false]
      split
      · rw [Function.update_of_ne hne, Function.update_self]
      · exact Function.update_self ..
  | raid5 =>
    simp only [blockView, row_writeDisk_self]
    exact recover_stripeWrite_self nodup_disks (mem_disks.2 (raid5Map_parityDisk_lt b))
      (raid5Map_dataDisk_ne b) _ _

/-- Under RAID 1 a write moves no other block on either mirror, whichever mirrors are written and
whichever one is read. -/
theorem blockView_raid1_writeDisk_of_ne (failed failed' : Option ℕ) (disk : Disk) {b b' : ℕ}
    (h : b' ≠ b) (v : Block) :
    blockView .raid1 failed (writeDisk .raid1 failed' disk b v) b' =
      blockView .raid1 failed disk b' := by
  have hd1 := raid1Map_disk1_lt b
  have hd2 := raid1Map_disk2_lt b
  have hd1' := raid1Map_disk1_lt b'
  have hd2' := raid1Map_disk2_lt b'
  -- two blocks on one disk and offset would be one block
  have h11 : swapPhysBlock (raid1Map b').disk1 (raid1Map b').diskBlock ≠
      swapPhysBlock (raid1Map b).disk1 (raid1Map b).diskBlock := fun e =>
    h (raid1Map_inj ((swapPhysBlock_inj hd1' hd1).1 e).1 ((swapPhysBlock_inj hd1' hd1).1 e).2)
  have h22 : swapPhysBlock (raid1Map b').disk2 (raid1Map b').diskBlock ≠
      swapPhysBlock (raid1Map b).disk2 (raid1Map b).diskBlock := fun e =>
    h (raid1Map_inj (Nat.succ.inj ((swapPhysBlock_inj hd2' hd2).1 e).1)
      ((swapPhysBlock_inj hd2' hd2).1 e).2)
  have h12 := swapPhysBlock_ne_of_disk_ne hd1' hd2 (raid1Map_disk1_ne_disk2 b' b)
      (raid1Map b').diskBlock (raid1Map b).diskBlock
  have h21 := swapPhysBlock_ne_of_disk_ne hd2' hd1 (raid1Map_disk1_ne_disk2 b b').symm
      (raid1Map b').diskBlock (raid1Map b).diskBlock
  simp only [blockView, writeDisk]
  split_ifs <;> simp only [Function.update_of_ne h11, Function.update_of_ne h12,
    Function.update_of_ne h21, Function.update_of_ne h22]

theorem blockView_writeDisk_of_ne (mode : RaidMode) (failed : Option ℕ) (disk : Disk) {b b' : ℕ}
    (h : b' ≠ b) (v : Block) :
    blockView mode failed (writeDisk mode failed disk b v) b' = blockView mode failed disk b' := by
  cases mode with
  | raid0 => exact Function.update_of_ne (fun e => h (raid0Map_inj e)) _ _
  | raid1 => exact blockView_raid1_writeDisk_of_ne failed failed disk h v
  | raid5 =>
    have hd := mem_disks.2 (raid5Map_dataDisk_lt b)
    have hd' := mem_disks.2 (raid5Map_dataDisk_lt b')
    simp only [blockView]
    by_cases hr : (raid5Map b').diskBlock = (raid5Map b).diskBlock
    · -- one row: the two blocks are different members of one stripe
      have hp : (raid5Map b').parityDisk = (raid5Map b).parityDisk := by
        rw [raid5Map_parityDisk, raid5Map_parityDisk, hr]
      rw [hr, row_writeDisk_self]
      exact recover_stripeWrite_of_ne nodup_disks hd (mem_disks.2 (raid5Map_parityDisk_lt b))
        (raid5Map_dataDisk_ne b) (hp ▸ raid5Map_dataDisk_ne b')
        (fun e => h (raid5Map_inj e hr)) _ _
    · refine recover_congr hd' fun e he => ?_
      exact row_writeDisk_of_ne failed disk b v hr (mem_disks.1 (mem_survivors.1 he).1)

theorem writeDisk_of_lt (mode : RaidMode) (failed : Option ℕ) (disk : Disk) (b : ℕ) (v : Block)
    {n : ℕ} (hn : n < swapStartBlock) : writeDisk mode failed disk b v n = disk n := by
  have hupd : ∀ (disk : Disk) (d r : ℕ) (x : Block),
      Function.update disk (swapPhysBlock d r) x n = disk n := fun disk d r x =>
    Function.update_of_ne (by have := swapStartBlock_le_swapPhysBlock d r; omega) _ _
  cases mode with
  | raid0 => exact hupd ..
  | raid1 =>
    simp only [writeDisk]
    split_ifs <;> simp only [hupd]
  | raid5 =>
    simp only [writeDisk]
    split_ifs <;> simp only [hupd]

/-! ## Pages -/

/-- The page a read of `slot` returns. -/
def pageView (mode : RaidMode) (failed : Option ℕ) (disk : Disk) (slot : ℕ) : Page :=
  Page.ofBlocks fun i => blockView mode failed disk (slot * blocksPerPage + i)

/-- Pages with the same blocks are equal. -/
theorem Page.ext_block {p q : Page} (h : ∀ i, p.block i = q.block i) : p = q := by
  rw [← p.ofBlocks_block, ← q.ofBlocks_block, funext h]

theorem Page.block_setBlock (p : Page) (i j : Fin blocksPerPage) (v : Block) :
    (p.setBlock i v).block j = if j = i then v else p.block j := by
  funext k
  have hk := k.isLt
  have hdiv : (j * bSize + k) / bSize = (j : ℕ) := by
    simp only [bSize] at *
    omega
  have hmod : (j * bSize + k) % bSize = (k : ℕ) := by
    simp only [bSize] at *
    omega
  simp only [Page.block, Page.setBlock, hdiv, hmod, Fin.ext_iff]
  split <;> rfl

/-- A slot's blocks are its own. -/
theorem slotBlock_inj {s s' : ℕ} {i j : Fin blocksPerPage}
    (h : s * blocksPerPage + i = s' * blocksPerPage + j) : s = s' ∧ i = j := by
  have hi := i.isLt
  have hj := j.isLt
  rw [Fin.ext_iff]
  simp only [blocksPerPage, pgSize, bSize] at *
  omega

/-- Some rounds of a read: the blocks visited are filled with the view. -/
theorem runInstrs_readRounds (mode : RaidMode) (failed : Option ℕ) (slot : ℕ)
    (l : List (Fin blocksPerPage)) (d : Dev) (dst : Page) :
    (runInstrs (l.map fun i : Fin blocksPerPage =>
        readInstrs mode failed (slot * blocksPerPage + i) i).flatten (d, dst)).1.disk = d.disk ∧
      ∀ j, (runInstrs (l.map fun i : Fin blocksPerPage =>
          readInstrs mode failed (slot * blocksPerPage + i) i).flatten (d, dst)).2.block j =
        if j ∈ l then blockView mode failed d.disk (slot * blocksPerPage + j) else dst.block j := by
  induction l generalizing d dst with
  | nil => exact ⟨rfl, fun j => by simp [runInstrs]⟩
  | cons i l ih =>
    obtain ⟨hdisk, hdst⟩ :=
      runInstrs_readInstrs mode failed (slot * blocksPerPage + i) i d dst
    rw [List.map_cons, List.flatten_cons, runInstrs_append]
    generalize runInstrs (readInstrs mode failed (slot * blocksPerPage + i) i) (d, dst) = σ at *
    obtain ⟨d', dst'⟩ := σ
    obtain ⟨hdisk', hdst'⟩ := ih d' dst'
    refine ⟨hdisk'.trans hdisk, fun j => ?_⟩
    simp only at hdisk hdst
    rw [hdst' j, hdst, Page.block_setBlock, hdisk]
    by_cases hl : j ∈ l
    · simp [hl]
    · by_cases hj : j = i
      · simp [hj]
      · simp [hl, hj]

/-- **A read of a slot returns its view.** -/
theorem swapDiskRead_spec (mode : RaidMode) (failed : Option ℕ) (slot : ℕ) (dst : Page) (d : Dev) :
    (swapDiskRead mode failed slot dst d).2.1.disk = d.disk ∧
      (swapDiskRead mode failed slot dst d).2.2 = pageView mode failed d.disk slot := by
  obtain ⟨hdisk, hblocks⟩ :=
    runInstrs_readRounds mode failed slot (List.finRange blocksPerPage) d dst
  refine ⟨hdisk, Page.ext_block fun j => (hblocks j).trans ?_⟩
  rw [if_pos (List.mem_finRange j), pageView, Page.block_ofBlocks]

/-- The disk after a write of the blocks `l` of a page. -/
def writeBlocks (mode : RaidMode) (failed : Option ℕ) (slot : ℕ) (src : Page)
    (l : List (Fin blocksPerPage)) (disk : Disk) : Disk :=
  l.foldl (fun disk (i : Fin blocksPerPage) =>
    writeDisk mode failed disk (slot * blocksPerPage + i) (src.block i)) disk

theorem disk_runInstrs_writeRounds (mode : RaidMode) (failed : Option ℕ) (slot : ℕ) (src : Page)
    (l : List (Fin blocksPerPage)) (d : Dev) (dst : Page) :
    (runInstrs (l.map fun i : Fin blocksPerPage =>
        writeInstrs mode failed (slot * blocksPerPage + i) (src.block i)).flatten (d, dst)).1.disk =
      writeBlocks mode failed slot src l d.disk := by
  induction l generalizing d dst with
  | nil => rfl
  | cons i l ih =>
    obtain ⟨hdisk, -⟩ :=
      runInstrs_writeInstrs mode failed (slot * blocksPerPage + i) (src.block i) d dst
    rw [List.map_cons, List.flatten_cons, runInstrs_append, ih, hdisk]
    rfl

theorem disk_swapDiskWrite (mode : RaidMode) (failed : Option ℕ) (slot : ℕ) (src : Page) (d : Dev) :
    (swapDiskWrite mode failed slot src d).2.disk =
      writeBlocks mode failed slot src (List.finRange blocksPerPage) d.disk :=
  disk_runInstrs_writeRounds mode failed slot src _ d src

/-- What the write of each block preserves, the write of a page preserves. -/
theorem writeBlocks_induction {mode : RaidMode} {failed : Option ℕ} {slot : ℕ} {src : Page}
    {P : Disk → Prop} {l : List (Fin blocksPerPage)}
    (h : ∀ i ∈ l, ∀ disk, P disk →
      P (writeDisk mode failed disk (slot * blocksPerPage + i) (src.block i)))
    {disk : Disk} (hP : P disk) : P (writeBlocks mode failed slot src l disk) := by
  induction l generalizing disk with
  | nil => exact hP
  | cons i l ih =>
    exact ih (fun j hj => h j (List.mem_cons_of_mem _ hj)) (h i List.mem_cons_self _ hP)

section PageWrite

/-! The two laws of a page write, for any way `V` of reading blocks that the block writes obey:
the failed disk of the reads need not be that of the writes. -/

variable {mode : RaidMode} {failed : Option ℕ} {V : Disk → ℕ → Block}
  (hne : ∀ disk b b' v, b' ≠ b → V (writeDisk mode failed disk b v) b' = V disk b')
include hne

theorem view_writeBlocks_of_ne {slot slot' : ℕ} (hs : slot' ≠ slot) (src : Page)
    (l : List (Fin blocksPerPage)) (i : Fin blocksPerPage) (disk : Disk) :
    V (writeBlocks mode failed slot src l disk) (slot' * blocksPerPage + i) =
      V disk (slot' * blocksPerPage + i) := by
  refine writeBlocks_induction (P := fun disk' => V disk' (slot' * blocksPerPage + i) =
    V disk (slot' * blocksPerPage + i)) (fun k _ disk' hP => ?_) rfl
  rw [hne _ _ _ _ fun e => hs (slotBlock_inj e).1, hP]

theorem view_writeBlocks_of_mem (hself : ∀ disk b v, V (writeDisk mode failed disk b v) b = v)
    {slot : ℕ} {src : Page} {l : List (Fin blocksPerPage)} {i : Fin blocksPerPage} (hl : l.Nodup)
    (hi : i ∈ l) (disk : Disk) :
    V (writeBlocks mode failed slot src l disk) (slot * blocksPerPage + i) = src.block i := by
  induction l generalizing disk with
  | nil => simp at hi
  | cons j l ih =>
    obtain ⟨hj, hl⟩ := List.nodup_cons.1 hl
    rcases List.mem_cons.1 hi with rfl | hi
    · -- the later blocks are other blocks of the slot
      change V (writeBlocks mode failed slot src l
        (writeDisk mode failed disk (slot * blocksPerPage + i) (src.block i))) _ = _
      refine writeBlocks_induction
        (P := fun disk => V disk (slot * blocksPerPage + i) = src.block i)
        (fun k hk disk hP => ?_) (hself _ _ _)
      have hik : slot * blocksPerPage + (i : ℕ) ≠ slot * blocksPerPage + k :=
        fun e => hj ((slotBlock_inj e).2 ▸ hk)
      rw [hne _ _ _ _ hik]
      exact hP
    · exact ih hl hi _

end PageWrite

theorem pageView_swapDiskWrite_self (mode : RaidMode) (failed : Option ℕ) (slot : ℕ) (src : Page)
    (d : Dev) : pageView mode failed (swapDiskWrite mode failed slot src d).2.disk slot = src := by
  refine Page.ext_block fun i => ?_
  rw [pageView, Page.block_ofBlocks, disk_swapDiskWrite]
  exact view_writeBlocks_of_mem (fun _ _ _ v h => blockView_writeDisk_of_ne mode failed _ h v)
    (blockView_writeDisk_self mode failed) (List.nodup_finRange _) (List.mem_finRange i) _

theorem pageView_swapDiskWrite_of_ne (mode : RaidMode) (failed : Option ℕ) {slot slot' : ℕ}
    (hs : slot' ≠ slot) (src : Page) (d : Dev) :
    pageView mode failed (swapDiskWrite mode failed slot src d).2.disk slot' =
      pageView mode failed d.disk slot' := by
  refine Page.ext_block fun i => ?_
  rw [pageView, pageView, Page.block_ofBlocks, Page.block_ofBlocks, disk_swapDiskWrite]
  exact view_writeBlocks_of_ne (fun _ _ _ v h => blockView_writeDisk_of_ne mode failed _ h v) hs src
    _ i _

/-- A write stays in the swap area. -/
theorem disk_swapDiskWrite_of_lt (mode : RaidMode) (failed : Option ℕ) (slot : ℕ) (src : Page)
    (d : Dev) {n : ℕ} (hn : n < swapStartBlock) :
    (swapDiskWrite mode failed slot src d).2.disk n = d.disk n := by
  rw [disk_swapDiskWrite]
  refine writeBlocks_induction (P := fun disk => disk n = d.disk n) (fun i _ disk hP => ?_) rfl
  rw [writeDisk_of_lt mode failed disk _ _ hn, hP]

/-- The swap area as a store of pages under slots. -/
def swapDevice (mode : RaidMode) (failed : Option ℕ) : Device Dev ℕ Page where
  put slot src d := (swapDiskWrite mode failed slot src d).2
  get slot dst d := (swapDiskRead mode failed slot dst d).2
  view d slot := pageView mode failed d.disk slot
  view_put_self slot src d := pageView_swapDiskWrite_self mode failed slot src d
  view_put_of_ne _ src d _ hs := pageView_swapDiskWrite_of_ne mode failed hs src d
  view_get slot dst d := by rw [(swapDiskRead_spec mode failed slot dst d).1]
  get_eq slot dst d := (swapDiskRead_spec mode failed slot dst d).2

/-- No run of transfers touches a block before the swap area. -/
theorem disk_run_of_lt (mode : RaidMode) (failed : Option ℕ) (ops : List (Op ℕ Page)) (d : Dev)
    {n : ℕ} (hn : n < swapStartBlock) :
    ((swapDevice mode failed).run ops d).1.disk n = d.disk n := by
  refine Device.run_induction (swapDevice mode failed) (P := fun d' => d'.disk n = d.disk n)
    (fun slot src d' hP => ?_) (fun slot dst d' hP => ?_) ops rfl
  · exact (disk_swapDiskWrite_of_lt mode failed slot src d' hn).trans hP
  · exact (congrFun (swapDiskRead_spec mode failed slot dst d').1 n).trans hP

/-- **RAID-backed swap refines a plain page store.** From any disk contents, in any mode with the
failed disk of that mode, the reads of a sequence of calls return the last page written to their
slot wherever there is one, and the blocks before the swap area keep their contents. -/
theorem swap_refines_pageStore (mode : RaidMode) (d : Dev) (ops : List (Op ℕ Page)) :
    List.Forall₂ Answers ((swapDevice mode (currentFailedDisk mode)).run ops d).2
        (specRun ops fun _ => none) ∧
      ∀ n < swapStartBlock,
        ((swapDevice mode (currentFailedDisk mode)).run ops d).1.disk n = d.disk n :=
  ⟨(Device.run_refines (fun _ _ h => by simp at h) ops).1,
    fun _ hn => disk_run_of_lt mode _ ops d hn⟩

end Xv6Swap.Raid
