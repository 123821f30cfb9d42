import Xv6Swap.Raid.Layout

/-!
# Page transfers to and from the swap area

`swapDiskRead` and `swapDiskWrite` of `kernel/virtio_disk.c`, in the granularity in which other
processes can observe them. A call is a sequence of *sections* (`Instr`): each
`swap_bread … brelse` pair of the source is one of them, and so is each of the loops and copies on
the static scratch buffers `raid5_old_data`, `raid5_old_parity`, `raid5_new_parity` and
`raid5_recovered`, which all callers share. `readInstrs` and `writeInstrs` list the sections of
one block of the page; a call runs them for the four blocks in order.

The effect of a whole block is given in closed form by `blockView`, what a read of a logical block
returns (`runInstrs_readInstrs`), and `writeDisk`, the disk a write leaves
(`runInstrs_writeInstrs`). The scratch buffers appear in neither: nothing a call computes depends
on what they held before it.
-/

namespace Xv6Swap.Raid

open Parity

/-! ## Blocks of a page -/

theorem blockIndex_lt (i : Fin blocksPerPage) (j : Fin bSize) : i * bSize + j < pgSize := by
  have hi := i.isLt
  have hj := j.isLt
  simp only [blocksPerPage, pgSize, bSize] at *
  omega

/-- Bytes `i * BSIZE` to `(i + 1) * BSIZE` of a page. -/
def Page.block (p : Page) (i : Fin blocksPerPage) : Block :=
  fun j => p ⟨i * bSize + j, blockIndex_lt i j⟩

/-- The page with its `i`-th block replaced. -/
def Page.setBlock (p : Page) (i : Fin blocksPerPage) (b : Block) : Page :=
  fun k => if k / bSize = i then b ⟨k % bSize, Nat.mod_lt _ (by decide)⟩ else p k

/-- The page whose `i`-th block is `f i`. -/
def Page.ofBlocks (f : Fin blocksPerPage → Block) : Page := fun k =>
  f ⟨k / bSize, by have := k.isLt; simp only [blocksPerPage, pgSize, bSize] at *; omega⟩
    ⟨k % bSize, Nat.mod_lt _ (by decide)⟩

theorem Page.block_ofBlocks (f : Fin blocksPerPage → Block) (i : Fin blocksPerPage) :
    (Page.ofBlocks f).block i = f i := by
  funext j
  have hj := j.isLt
  have hdiv : (i * bSize + j) / bSize = (i : ℕ) := by
    simp only [bSize] at *
    omega
  have hmod : (i * bSize + j) % bSize = (j : ℕ) := by
    simp only [bSize] at *
    omega
  have hi : (⟨(i * bSize + j) / bSize, by rw [hdiv]; exact i.isLt⟩ : Fin blocksPerPage) = i :=
    Fin.ext hdiv
  have hj' : (⟨(i * bSize + j) % bSize, by rw [hmod]; exact hj⟩ : Fin bSize) = j :=
    Fin.ext hmod
  change f ⟨(i * bSize + j) / bSize, _⟩ ⟨(i * bSize + j) % bSize, _⟩ = f i j
  rw [hi, hj']

theorem Page.ofBlocks_block (p : Page) : Page.ofBlocks p.block = p := by
  funext k
  simp only [Page.ofBlocks, Page.block]
  exact congrArg p (Fin.ext (Nat.div_add_mod' k bSize))

/-! ## The sections of a call -/

/-- The block store and the scratch buffers shared by all callers. -/
structure Dev where
  disk : Disk
  oldData : Block
  oldParity : Block
  newParity : Block
  recovered : Block

/-- A device whose blocks are all zero. -/
def blankDev : Dev where
  disk := fun _ => 0
  oldData := 0
  oldParity := 0
  newParity := 0
  recovered := 0

/-- The sections of a call. `b` is a physical block; `v` is the block of `src` being written. -/
inductive Instr
  /-- `memmove(dst + i * BSIZE, b->data, BSIZE)` -/
  | readData (b : ℕ) (i : Fin blocksPerPage)
  /-- `memmove(b->data, src + i * BSIZE, BSIZE); bwrite(b)` -/
  | writeData (b : ℕ) (v : Block)
  /-- `memset(raid5_recovered, 0, BSIZE)` -/
  | clearRecovered
  /-- `raid5_recovered[j] ^= b->data[j]` -/
  | xorRecovered (b : ℕ)
  /-- `memmove(dst + i * BSIZE, raid5_recovered, BSIZE)` -/
  | copyRecovered (i : Fin blocksPerPage)
  /-- `memset(raid5_old_data, 0, BSIZE)` -/
  | clearOldData
  /-- `raid5_old_data[j] ^= b->data[j]` -/
  | xorOldData (b : ℕ)
  /-- `memmove(raid5_old_data, bd_old->data, BSIZE)` -/
  | loadOldData (b : ℕ)
  /-- `memmove(raid5_old_parity, bp_old->data, BSIZE)` -/
  | loadOldParity (b : ℕ)
  /-- `raid5_new_parity[j] = raid5_old_parity[j] ^ raid5_old_data[j] ^ src[i * BSIZE + j]` -/
  | computeParity (v : Block)
  /-- `memmove(bp_new->data, raid5_new_parity, BSIZE); bwrite(bp_new)` -/
  | writeParity (b : ℕ)

/-- One section, on the shared state and the caller's `dst` page. -/
def Instr.exec : Instr → Dev × Page → Dev × Page
  | .readData b i, (d, dst) => (d, dst.setBlock i (d.disk b))
  | .writeData b v, (d, dst) => ({ d with disk := Function.update d.disk b v }, dst)
  | .clearRecovered, (d, dst) => ({ d with recovered := 0 }, dst)
  | .xorRecovered b, (d, dst) => ({ d with recovered := d.recovered ^^^ d.disk b }, dst)
  | .copyRecovered i, (d, dst) => (d, dst.setBlock i d.recovered)
  | .clearOldData, (d, dst) => ({ d with oldData := 0 }, dst)
  | .xorOldData b, (d, dst) => ({ d with oldData := d.oldData ^^^ d.disk b }, dst)
  | .loadOldData b, (d, dst) => ({ d with oldData := d.disk b }, dst)
  | .loadOldParity b, (d, dst) => ({ d with oldParity := d.disk b }, dst)
  | .computeParity v, (d, dst) => ({ d with newParity := d.oldParity ^^^ d.oldData ^^^ v }, dst)
  | .writeParity b, (d, dst) => ({ d with disk := Function.update d.disk b d.newParity }, dst)

def runInstrs (is : List Instr) (σ : Dev × Page) : Dev × Page :=
  is.foldl (fun σ ι => ι.exec σ) σ

/-- The disks of the array, in the order of the reconstruction loops. -/
def disks : List ℕ := List.range nDisks

/-- One round of the loop of `swap_disk_read`: logical block `b`, the `i`-th of the page. -/
def readInstrs (mode : RaidMode) (failed : Option ℕ) (b : ℕ) (i : Fin blocksPerPage) :
    List Instr :=
  match mode with
  | .raid0 => [.readData (swapPhysBlock (b % nDisks) (b / nDisks)) i]
  | .raid1 =>
    let m := raid1Map b
    let useDisk := if some m.disk1 = failed then m.disk2 else m.disk1
    [.readData (swapPhysBlock useDisk m.diskBlock) i]
  | .raid5 =>
    let m := raid5Map b
    if failed = none then
      [.readData (swapPhysBlock m.dataDisk m.diskBlock) i]
    else if failed ≠ some m.dataDisk then
      [.readData (swapPhysBlock m.dataDisk m.diskBlock) i]
    else
      .clearRecovered ::
        ((survivors disks failed).map fun d => .xorRecovered (swapPhysBlock d m.diskBlock)) ++
        [.copyRecovered i]

/-- One round of the loop of `swap_disk_write`: `v` is the block of `src` for logical block
`b`. -/
def writeInstrs (mode : RaidMode) (failed : Option ℕ) (b : ℕ) (v : Block) : List Instr :=
  match mode with
  | .raid0 => [.writeData (swapPhysBlock (b % nDisks) (b / nDisks)) v]
  | .raid1 =>
    let m := raid1Map b
    (if some m.disk1 ≠ failed then [.writeData (swapPhysBlock m.disk1 m.diskBlock) v] else []) ++
      (if some m.disk2 ≠ failed then [.writeData (swapPhysBlock m.disk2 m.diskBlock) v] else [])
  | .raid5 =>
    let m := raid5Map b
    if failed = none ∨ (failed ≠ some m.dataDisk ∧ failed ≠ some m.parityDisk) then
      [.loadOldData (swapPhysBlock m.dataDisk m.diskBlock),
        .loadOldParity (swapPhysBlock m.parityDisk m.diskBlock),
        .computeParity v,
        .writeData (swapPhysBlock m.dataDisk m.diskBlock) v,
        .writeParity (swapPhysBlock m.parityDisk m.diskBlock)]
    else if failed = some m.parityDisk then
      [.writeData (swapPhysBlock m.dataDisk m.diskBlock) v]
    else
      .clearOldData ::
        ((survivors disks failed).map fun d => .xorOldData (swapPhysBlock d m.diskBlock)) ++
        [.loadOldParity (swapPhysBlock m.parityDisk m.diskBlock),
          .computeParity v,
          .writeParity (swapPhysBlock m.parityDisk m.diskBlock)]

/-- The rounds of `swap_disk_read(slot, dst)`. -/
def readRounds (mode : RaidMode) (failed : Option ℕ) (slot : ℕ) : List (List Instr) :=
  (List.finRange blocksPerPage).map fun i : Fin blocksPerPage =>
    readInstrs mode failed (slot * blocksPerPage + i) i

/-- The rounds of `swap_disk_write(slot, src)`. -/
def writeRounds (mode : RaidMode) (failed : Option ℕ) (slot : ℕ) (src : Page) :
    List (List Instr) :=
  (List.finRange blocksPerPage).map fun i : Fin blocksPerPage =>
    writeInstrs mode failed (slot * blocksPerPage + i) (src.block i)

/-- `swap_disk_read` without interruption: the return value and the state. -/
def swapDiskRead (mode : RaidMode) (failed : Option ℕ) (slot : ℕ) (dst : Page) (d : Dev) :
    ℤ × Dev × Page :=
  (0, runInstrs (readRounds mode failed slot).flatten (d, dst))

/-- `swap_disk_write` without interruption: the return value and the state. The page `src` is
only read, so the caller's `dst` plays no part; it is filled with `src`. -/
def swapDiskWrite (mode : RaidMode) (failed : Option ℕ) (slot : ℕ) (src : Page) (d : Dev) :
    ℤ × Dev :=
  (0, (runInstrs (writeRounds mode failed slot src).flatten (d, src)).1)

/-! ## The effect of one block -/

/-- A row of the array: the blocks of the disks at one offset. -/
def row (disk : Disk) (r : ℕ) : ℕ → Block := fun d => disk (swapPhysBlock d r)

/-- What a read of logical block `b` returns. -/
def blockView (mode : RaidMode) (failed : Option ℕ) (disk : Disk) (b : ℕ) : Block :=
  match mode with
  | .raid0 => disk (swapPhysBlock (b % nDisks) (b / nDisks))
  | .raid1 =>
    let m := raid1Map b
    disk (swapPhysBlock (if some m.disk1 = failed then m.disk2 else m.disk1) m.diskBlock)
  | .raid5 =>
    let m := raid5Map b
    recover disks failed (row disk m.diskBlock) m.dataDisk

/-- The disk after a write of `v` to logical block `b`. -/
def writeDisk (mode : RaidMode) (failed : Option ℕ) (disk : Disk) (b : ℕ) (v : Block) : Disk :=
  match mode with
  | .raid0 => Function.update disk (swapPhysBlock (b % nDisks) (b / nDisks)) v
  | .raid1 =>
    let m := raid1Map b
    let disk' := if some m.disk1 ≠ failed then
      Function.update disk (swapPhysBlock m.disk1 m.diskBlock) v else disk
    if some m.disk2 ≠ failed then Function.update disk' (swapPhysBlock m.disk2 m.diskBlock) v
    else disk'
  | .raid5 =>
    let m := raid5Map b
    let old := row disk m.diskBlock
    if failed = some m.dataDisk then
      Function.update disk (swapPhysBlock m.parityDisk m.diskBlock)
        (old m.parityDisk ^^^ parity (survivors disks failed) old ^^^ v)
    else if failed = some m.parityDisk then
      Function.update disk (swapPhysBlock m.dataDisk m.diskBlock) v
    else
      Function.update (Function.update disk (swapPhysBlock m.dataDisk m.diskBlock) v)
        (swapPhysBlock m.parityDisk m.diskBlock) (old m.parityDisk ^^^ old m.dataDisk ^^^ v)

@[simp] theorem runInstrs_nil (σ : Dev × Page) : runInstrs [] σ = σ := rfl

@[simp] theorem runInstrs_cons (ι : Instr) (is : List Instr) (σ : Dev × Page) :
    runInstrs (ι :: is) σ = runInstrs is (ι.exec σ) := rfl

theorem runInstrs_append (is js : List Instr) (σ : Dev × Page) :
    runInstrs (is ++ js) σ = runInstrs js (runInstrs is σ) :=
  List.foldl_append

theorem runInstrs_xorRecovered (l : List ℕ) (r : ℕ) (d : Dev) (dst : Page) :
    runInstrs (l.map fun e => .xorRecovered (swapPhysBlock e r)) (d, dst) =
      ({ d with recovered := d.recovered ^^^ parity l (row d.disk r) }, dst) := by
  induction l generalizing d with
  | nil => simp [runInstrs, xor_zero]
  | cons e l ih =>
    have h := ih { d with recovered := d.recovered ^^^ d.disk (swapPhysBlock e r) }
    simp only [runInstrs, List.map_cons, List.foldl_cons, Instr.exec] at h ⊢
    rw [h, parity_cons, ← LawfulXor.xor_assoc]
    rfl

theorem runInstrs_xorOldData (l : List ℕ) (r : ℕ) (d : Dev) (dst : Page) :
    runInstrs (l.map fun e => .xorOldData (swapPhysBlock e r)) (d, dst) =
      ({ d with oldData := d.oldData ^^^ parity l (row d.disk r) }, dst) := by
  induction l generalizing d with
  | nil => simp [runInstrs, xor_zero]
  | cons e l ih =>
    have h := ih { d with oldData := d.oldData ^^^ d.disk (swapPhysBlock e r) }
    simp only [runInstrs, List.map_cons, List.foldl_cons, Instr.exec] at h ⊢
    rw [h, parity_cons, ← LawfulXor.xor_assoc]
    rfl

/-- A round of a read leaves the disk alone and fills its block of `dst` with the view. -/
theorem runInstrs_readInstrs (mode : RaidMode) (failed : Option ℕ) (b : ℕ)
    (i : Fin blocksPerPage) (d : Dev) (dst : Page) :
    (runInstrs (readInstrs mode failed b i) (d, dst)).1.disk = d.disk ∧
      (runInstrs (readInstrs mode failed b i) (d, dst)).2 =
        dst.setBlock i (blockView mode failed d.disk b) := by
  cases mode with
  | raid0 => exact ⟨rfl, rfl⟩
  | raid1 => exact ⟨rfl, rfl⟩
  | raid5 =>
    simp only [readInstrs, blockView, recover]
    by_cases h : failed = some (raid5Map b).dataDisk
    · have hnone : failed ≠ none := by simp [h]
      rw [if_neg hnone, if_neg (not_not.2 h), if_pos h, runInstrs_append]
      have key := runInstrs_xorRecovered (survivors disks failed) (raid5Map b).diskBlock
        { d with recovered := 0 } dst
      simp only [zero_xor] at key
      simp only [runInstrs, List.foldl_cons, Instr.exec] at key ⊢
      rw [key]
      exact ⟨rfl, rfl⟩
    · rw [if_neg h, if_pos (show failed ≠ _ from h), ite_self]
      exact ⟨rfl, rfl⟩

/-- A round of a write leaves `dst` alone and the disk as `writeDisk` says. -/
theorem runInstrs_writeInstrs (mode : RaidMode) (failed : Option ℕ) (b : ℕ) (v : Block)
    (d : Dev) (dst : Page) :
    (runInstrs (writeInstrs mode failed b v) (d, dst)).1.disk = writeDisk mode failed d.disk b v ∧
      (runInstrs (writeInstrs mode failed b v) (d, dst)).2 = dst := by
  cases mode with
  | raid0 => exact ⟨rfl, rfl⟩
  | raid1 =>
    simp only [writeInstrs, writeDisk]
    split <;> split <;> exact ⟨rfl, rfl⟩
  | raid5 =>
    simp only [writeInstrs, writeDisk]
    by_cases hd : failed = some (raid5Map b).dataDisk
    · have hp : failed ≠ some (raid5Map b).parityDisk := by
        rw [hd]
        exact fun h => raid5Map_dataDisk_ne b (Option.some.inj h)
      have hrmw : ¬ (failed = none ∨ (failed ≠ some (raid5Map b).dataDisk ∧
          failed ≠ some (raid5Map b).parityDisk)) := by simp [hd]
      rw [if_neg hrmw, if_neg hp, if_pos hd, runInstrs_append]
      have key := runInstrs_xorOldData (survivors disks failed) (raid5Map b).diskBlock
        { d with oldData := 0 } dst
      simp only [zero_xor] at key
      simp only [runInstrs, List.foldl_cons, Instr.exec] at key ⊢
      rw [key]
      exact ⟨rfl, rfl⟩
    · rw [if_neg hd]
      by_cases hp : failed = some (raid5Map b).parityDisk
      · have hrmw : ¬ (failed = none ∨ (failed ≠ some (raid5Map b).dataDisk ∧
            failed ≠ some (raid5Map b).parityDisk)) := by simp [hp]
        rw [if_neg hrmw, if_pos hp, if_pos hp]
        exact ⟨rfl, rfl⟩
      · rw [if_pos (Or.inr ⟨hd, hp⟩), if_neg hp]
        exact ⟨rfl, rfl⟩

end Xv6Swap.Raid
