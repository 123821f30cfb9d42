import Xv6Swap.Raid.View

/-!
# The rounds of a RAID 5 transfer

What a round of a call (`Call.round`) reads and writes under RAID 5. A round is either one section
that moves the data block itself, or a longer sequence on the shared scratch buffers
(`Call.round_cases`). It writes only its data block and the parity of its row
(`Call.target_of_mem_round`) and uses only blocks of its row (`Call.block_of_mem_round`).

From this, a one-section round commutes with whatever is left of a round of another block
(`Call.fill_direct`, `Call.effect_direct`). For a write the reason is the layout: the one-section
writes are those of rows whose parity disk has failed, and a round on the scratch buffers is never
in such a row.
-/

namespace Xv6Swap.Raid

open Parity

/-- A call of one process. -/
inductive Call
  | read (slot : ℕ)
  | write (slot : ℕ) (src : Page)

def Call.slot : Call → ℕ
  | .read slot => slot
  | .write slot _ => slot

/-- The logical block of the `t`-th block of the page. -/
def Call.logical (call : Call) (t : Fin blocksPerPage) : ℕ := call.slot * blocksPerPage + t

/-- The sections of the call for the `t`-th block of its page. -/
def Call.round (failed : Option ℕ) (call : Call) (t : Fin blocksPerPage) : List Instr :=
  match call with
  | .read _ => readInstrs .raid5 failed (call.logical t) t
  | .write _ src => writeInstrs .raid5 failed (call.logical t) (src.block t)

/-- Sections that read or write the scratch buffers. -/
def Instr.usesScratch : Instr → Bool
  | .readData _ _ => false
  | .writeData _ _ => false
  | _ => true

/-! ## Which blocks a section uses -/

/-- The physical block a section reads or writes. -/
def Instr.block : Instr → Option ℕ
  | .readData b _ => some b
  | .writeData b _ => some b
  | .xorRecovered b => some b
  | .xorOldData b => some b
  | .loadOldData b => some b
  | .loadOldParity b => some b
  | .writeParity b => some b
  | .clearRecovered => none
  | .copyRecovered _ => none
  | .clearOldData => none
  | .computeParity _ => none

/-- The physical block a section writes. -/
def Instr.target : Instr → Option ℕ
  | .writeData b _ => some b
  | .writeParity b => some b
  | _ => none

def Dev.setDisk (d : Dev) (n : ℕ) (v : Block) : Dev :=
  { d with disk := Function.update d.disk n v }

theorem runInstrs_disk_of_target_ne {n : ℕ} {is : List Instr} (h : ∀ ι ∈ is, ι.target ≠ some n)
    (σ : Dev × Page) : (runInstrs is σ).1.disk n = σ.1.disk n := by
  induction is generalizing σ with
  | nil => rfl
  | cons ι is ih =>
    refine (ih (fun κ hκ => h κ (List.mem_cons_of_mem _ hκ)) _).trans ?_
    have hι := h ι List.mem_cons_self
    obtain ⟨d, dst⟩ := σ
    cases ι <;> simp only [Instr.target, ne_eq, Option.some.injEq] at hι <;>
      simp [Instr.exec, Ne.symm hι]

/-- A write to a block that a section does not use may come before or after it. -/
theorem Instr.exec_setDisk {n : ℕ} {ι : Instr} (h : ι.block ≠ some n) (v : Block) (d : Dev)
    (dst : Page) :
    ι.exec (d.setDisk n v, dst) = ((ι.exec (d, dst)).1.setDisk n v, (ι.exec (d, dst)).2) := by
  cases ι <;> simp only [Instr.block, ne_eq, Option.some.injEq] at h <;>
    simp [Instr.exec, Dev.setDisk, Function.update_of_ne h, Function.update_comm h]

theorem runInstrs_setDisk {n : ℕ} {is : List Instr} (h : ∀ ι ∈ is, ι.block ≠ some n) (v : Block)
    (d : Dev) (dst : Page) :
    runInstrs is (d.setDisk n v, dst) =
      ((runInstrs is (d, dst)).1.setDisk n v, (runInstrs is (d, dst)).2) := by
  induction is generalizing d dst with
  | nil => rfl
  | cons ι is ih =>
    have hι := Instr.exec_setDisk (h ι List.mem_cons_self) v d dst
    simp only [runInstrs, List.foldl_cons] at ih ⊢
    rw [hι]
    exact ih (fun κ hκ => h κ (List.mem_cons_of_mem _ hκ)) _ _

/-- The sections of a round of a write, by the role of the failed disk in its row. -/
theorem writeInstrs_raid5_cases (failed : Option ℕ) (b : ℕ) (v : Block) :
    (failed ≠ some (raid5Map b).parityDisk ∧
      ((∃ d, writeInstrs .raid5 failed b v = .clearOldData ::
          ((survivors disks d).map fun e => .xorOldData (swapPhysBlock e (raid5Map b).diskBlock)) ++
          [.loadOldParity (parityBlock b), .computeParity v] ++ [.writeParity (parityBlock b)]) ∨
        writeInstrs .raid5 failed b v = [.loadOldData (dataBlock b),
          .loadOldParity (parityBlock b), .computeParity v, .writeData (dataBlock b) v,
          .writeParity (parityBlock b)])) ∨
    failed = some (raid5Map b).parityDisk ∧
      writeInstrs .raid5 failed b v = [.writeData (dataBlock b) v] := by
  have hne := raid5Map_dataDisk_ne b
  by_cases hp : failed = some (raid5Map b).parityDisk
  · refine .inr ⟨hp, ?_⟩
    simp [writeInstrs, hp, dataBlock]
  · refine .inl ⟨hp, ?_⟩
    by_cases hd : failed = some (raid5Map b).dataDisk
    · refine .inl ⟨failed, ?_⟩
      simp [writeInstrs, hd, hne, parityBlock]
    · refine .inr ?_
      simp [writeInstrs, hd, hp, dataBlock, parityBlock]

/-- The sections of a round of a read: the data block if its disk is present, or a
reconstruction. -/
theorem readInstrs_raid5_cases (failed : Option ℕ) (b : ℕ) (t : Fin blocksPerPage) :
    (failed = some (raid5Map b).dataDisk ∧
      readInstrs .raid5 failed b t = .clearRecovered ::
        ((survivors disks failed).map fun e =>
          .xorRecovered (swapPhysBlock e (raid5Map b).diskBlock)) ++ [.copyRecovered t]) ∨
    failed ≠ some (raid5Map b).dataDisk ∧
      readInstrs .raid5 failed b t = [.readData (dataBlock b) t] := by
  by_cases hd : failed = some (raid5Map b).dataDisk
  · refine .inl ⟨hd, ?_⟩
    simp [readInstrs, hd]
  · refine .inr ⟨hd, ?_⟩
    simp [readInstrs, hd, dataBlock]

variable {failed : Option ℕ} {call : Call} {t : Fin blocksPerPage} {n : ℕ}

/-- A round writes only its own data block and the parity of its row. -/
theorem Call.target_of_mem_round : ∀ κ ∈ call.round failed t, κ.target = some n →
    n = dataBlock (call.logical t) ∨ n = parityBlock (call.logical t) := by
  cases call with
  | read slot =>
    rcases readInstrs_raid5_cases failed ((read slot).logical t) t with ⟨-, h⟩ | ⟨-, h⟩ <;>
      simp only [Call.round, h, List.cons_append, List.forall_mem_cons, List.forall_mem_append,
        List.forall_mem_map, Instr.target] <;>
      simp
  | write slot src =>
    rcases writeInstrs_raid5_cases failed ((write slot src).logical t) (src.block t) with
      ⟨-, ⟨d, h⟩ | h⟩ | ⟨-, h⟩ <;>
      simp only [Call.round, h, List.cons_append, List.forall_mem_cons, List.forall_mem_append,
        List.forall_mem_map, Instr.target] <;>
      simp +contextual

/-- A round uses only blocks of its row. -/
theorem Call.block_of_mem_round : ∀ κ ∈ call.round failed t, κ.block = some n →
    ∃ e < nDisks, n = swapPhysBlock e (raid5Map (call.logical t)).diskBlock := by
  have hsurv : ∀ {d : Option ℕ}, ∀ e ∈ survivors disks d, e < nDisks :=
    fun e he => mem_disks.1 (mem_survivors.1 he).1
  have hd := raid5Map_dataDisk_lt (call.logical t)
  have hp := raid5Map_parityDisk_lt (call.logical t)
  cases call with
  | read slot =>
    rcases readInstrs_raid5_cases failed ((read slot).logical t) t with ⟨-, h⟩ | ⟨-, h⟩ <;>
      simp only [Call.round, h, List.cons_append, List.forall_mem_cons, List.forall_mem_append,
        List.forall_mem_map, Instr.block] <;>
      grind [dataBlock]
  | write slot src =>
    rcases writeInstrs_raid5_cases failed ((write slot src).logical t) (src.block t) with
      ⟨-, ⟨d, h⟩ | h⟩ | ⟨-, h⟩ <;>
      simp only [Call.round, h, List.cons_append, List.forall_mem_cons, List.forall_mem_append,
        List.forall_mem_map, Instr.block] <;>
      grind [dataBlock, parityBlock]

/-- A round is a single section that leaves the scratch buffers alone, or its last section uses
them. -/
theorem Call.round_cases (failed : Option ℕ) (call : Call) (t : Fin blocksPerPage) :
    (∃ κ, call.round failed t = [κ] ∧ κ.usesScratch = false) ∨
      ∃ is κ, call.round failed t = is ++ [κ] ∧ κ.usesScratch = true := by
  cases call with
  | read slot =>
    rcases readInstrs_raid5_cases failed ((read slot).logical t) t with ⟨-, h⟩ | ⟨-, h⟩
    · exact .inr ⟨_, _, h, rfl⟩
    · exact .inl ⟨_, h, rfl⟩
  | write slot src =>
    rcases writeInstrs_raid5_cases failed ((write slot src).logical t) (src.block t) with
      ⟨-, ⟨d, h⟩ | h⟩ | ⟨-, h⟩
    · exact .inr ⟨_, _, h, rfl⟩
    · exact .inr ⟨[_, _, _, _], _, h, rfl⟩
    · exact .inl ⟨_, h, rfl⟩

/-- The disk after a round. -/
def Call.effect (failed : Option ℕ) (call : Call) (t : Fin blocksPerPage) (disk : Disk) : Disk :=
  match call with
  | .read _ => disk
  | .write _ src => writeDisk .raid5 failed disk (call.logical t) (src.block t)

/-- The caller's page after a round. -/
def Call.fill (failed : Option ℕ) (call : Call) (t : Fin blocksPerPage) (disk : Disk)
    (dst : Page) : Page :=
  match call with
  | .read _ => dst.setBlock t (blockView .raid5 failed disk (call.logical t))
  | .write _ _ => dst

theorem Call.runInstrs_round (failed : Option ℕ) (call : Call) (t : Fin blocksPerPage) (d : Dev)
    (dst : Page) :
    (runInstrs (call.round failed t) (d, dst)).1.disk = call.effect failed t d.disk ∧
      (runInstrs (call.round failed t) (d, dst)).2 = call.fill failed t d.disk dst := by
  cases call with
  | read slot => exact runInstrs_readInstrs .raid5 failed _ t d dst
  | write slot src => exact runInstrs_writeInstrs .raid5 failed _ _ d dst

/-- A round on the scratch buffers is in a row whose parity disk is present. -/
theorem Call.failed_ne_of_usesScratch {κ : Instr} (h : κ ∈ call.round failed t)
    (hκ : κ.usesScratch = true) : failed ≠ some (raid5Map (call.logical t)).parityDisk := by
  cases call with
  | read slot =>
    rcases readInstrs_raid5_cases failed ((read slot).logical t) t with ⟨hd, -⟩ | ⟨-, hr⟩
    · rw [hd]
      exact fun e => raid5Map_dataDisk_ne _ (Option.some.inj e)
    · rw [Call.round, hr, List.mem_singleton] at h
      simp [h, Instr.usesScratch] at hκ
  | write slot src =>
    rcases writeInstrs_raid5_cases failed ((write slot src).logical t) (src.block t) with
      ⟨hp, -⟩ | ⟨-, hw⟩
    · exact hp
    · rw [Call.round, hw, List.mem_singleton] at h
      simp [h, Instr.usesScratch] at hκ

/-- A read round off the scratch buffers is the plain read of a present data block. -/
theorem Call.read_direct {slot : ℕ} {κ : Instr} (h : (Call.read slot).round failed t = [κ])
    (hκ : κ.usesScratch = false) :
    failed ≠ some (raid5Map ((Call.read slot).logical t)).dataDisk ∧
      κ = .readData (dataBlock ((Call.read slot).logical t)) t := by
  rcases readInstrs_raid5_cases failed ((Call.read slot).logical t) t with ⟨-, hr⟩ | ⟨hd, hr⟩ <;>
    rw [Call.round, hr] at h
  · rw [← (List.cons.inj h).1] at hκ
    exact absurd hκ (by simp [Instr.usesScratch])
  · exact ⟨hd, (List.cons.inj h).1.symm⟩

/-- A write round off the scratch buffers is the plain write of the data block of a row whose
parity disk has failed. -/
theorem Call.write_direct {slot : ℕ} {src : Page} {κ : Instr}
    (h : (Call.write slot src).round failed t = [κ]) (hκ : κ.usesScratch = false) :
    failed = some (raid5Map ((Call.write slot src).logical t)).parityDisk ∧
      κ = .writeData (dataBlock ((Call.write slot src).logical t)) (src.block t) := by
  rcases writeInstrs_raid5_cases failed ((Call.write slot src).logical t) (src.block t) with
    ⟨-, ⟨d, hw⟩ | hw⟩ | ⟨hf, hw⟩ <;> rw [Call.round, hw] at h
  · rw [← (List.cons.inj h).1] at hκ
    exact absurd hκ (by simp [Instr.usesScratch])
  · rw [← (List.cons.inj h).1] at hκ
    exact absurd hκ (by simp [Instr.usesScratch])
  · exact ⟨hf, (List.cons.inj h).1.symm⟩

section Direct

/-! A round that is a single section `κ` off the scratch buffers, while the sections `is` of a
round of another block are still to come: `κ` may as well run after them. -/

variable {κ : Instr} (h : call.round failed t = [κ]) (hκ : κ.usesScratch = false)
  {call' : Call} {t' : Fin blocksPerPage} (hb : call.logical t ≠ call'.logical t')
  {is : List Instr} (his : ∀ ι ∈ is, ι ∈ call'.round failed t')
include h hκ his

include hb in
theorem Call.fill_direct (d : Dev) (dst dst' : Page) :
    call.fill failed t d.disk dst = call.fill failed t (runInstrs is (d, dst')).1.disk dst := by
  cases call with
  | write slot src => rfl
  | read slot =>
    obtain ⟨hd, -⟩ := Call.read_direct h hκ
    have hdisk := runInstrs_disk_of_target_ne (n := dataBlock ((read slot).logical t))
      (fun ι hι e => (Call.target_of_mem_round ι (his ι hι) e).elim
        (fun e => hb (dataBlock_inj e)) (dataBlock_ne_parityBlock _ _)) (d, dst')
    simp only [Call.fill, blockView, recover, if_neg hd, row]
    exact congrArg (dst.setBlock t) hdisk.symm

theorem Call.effect_direct {ι : Instr} (hι : ι ∈ call'.round failed t')
    (hs : ι.usesScratch = true) (d : Dev) (dst dst' : Page) :
    (runInstrs is ((κ.exec (d, dst)).1, dst')).2 = (runInstrs is (d, dst')).2 ∧
      (runInstrs is ((κ.exec (d, dst)).1, dst')).1.disk =
        call.effect failed t (runInstrs is (d, dst')).1.disk := by
  cases call with
  | read slot =>
    obtain ⟨-, rfl⟩ := Call.read_direct h hκ
    exact ⟨rfl, rfl⟩
  | write slot src =>
    obtain ⟨hf, rfl⟩ := Call.write_direct h hκ
    have hp := Call.failed_ne_of_usesScratch hι hs
    -- the parity of this row is on the failed disk, so the other round is in another row
    have hblock : ∀ ι ∈ is, ι.block ≠ some (dataBlock ((write slot src).logical t)) := by
      intro ι hι e
      obtain ⟨e', he', heq⟩ := Call.block_of_mem_round ι (his ι hι) e
      have hr := ((swapPhysBlock_inj (raid5Map_dataDisk_lt _) he').1 heq).2
      rw [raid5Map_parityDisk, ← hr, ← raid5Map_parityDisk] at hp
      exact hp hf
    have hd : failed ≠ some (raid5Map ((write slot src).logical t)).dataDisk := by
      rw [hf]
      exact fun e => raid5Map_dataDisk_ne _ (Option.some.inj e).symm
    change (runInstrs is (d.setDisk _ _, dst')).2 = _ ∧
      (runInstrs is (d.setDisk _ _, dst')).1.disk = _
    rw [runInstrs_setDisk hblock]
    simp only [Call.effect, writeDisk, if_neg hd, if_pos hf]
    exact ⟨trivial, rfl⟩

end Direct

end Xv6Swap.Raid
