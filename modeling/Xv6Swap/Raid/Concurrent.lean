import Xv6Swap.Foundations.Interleave
import Xv6Swap.Raid.Rounds

/-!
# Concurrent RAID 5 transfers

Several processes, each inside one call of `swap_disk_read` or `swap_disk_write` on a slot of its
own, under RAID 5. Their sections interleave in any order, and the scratch buffers are shared. The
comment above the buffers says the calls are serialised by a sleeplock; no caller takes one
(`evict_one_user_frame` calls without any lock), so the interleavings here are the real ones.

Most rounds of a call use the scratch buffers and leave the parity of their row wrong for a while.
`ScratchFree` is the condition under which the calls do not corrupt each other: a process begins
such a round only while no other process is in one. Rounds that move a single data block are free
to interleave with everything.

The invariant `TransferInv` describes the disk as it will be once the one process on the scratch
buffers has finished its round: there every block is either untouched or as its call wants it.
-/

namespace Xv6Swap.Raid

open Parity Store Interleave

/-- A process inside a call: the sections left of the current round, the blocks whose rounds have
not begun, and its page buffer. -/
structure Transfer where
  cur : List Instr
  todo : List (Fin blocksPerPage)
  dst : Page

/-- A process at the start of a call, with any contents of its buffer. -/
def Transfer.start (dst : Page) : Transfer := ⟨[], List.finRange blocksPerPage, dst⟩

def Transfer.finished (l : Transfer) : Prop := l.cur = [] ∧ l.todo = []

/-- The next section of the current round, or the beginning of the next round. -/
def transferNext (failed : Option ℕ) (call : Call) (l : Transfer) (d : Dev) :
    Option (Transfer × Dev) :=
  match l.cur, l.todo with
  | ι :: is, _ =>
    let σ := ι.exec (d, l.dst)
    some ({ l with cur := is, dst := σ.2 }, σ.1)
  | [], t :: ts => some ({ l with cur := call.round failed t, todo := ts }, d)
  | [], [] => none

variable {ι : Type*} [DecidableEq ι]

/-- The processes `ι`, process `i` inside the call `calls i`. -/
def transferSystem (failed : Option ℕ) (calls : ι → Call) : System ι Unit Transfer Dev where
  next i _ := transferNext failed (calls i)

/-- The process is in a round that uses the scratch buffers. -/
def Transfer.inScratch (l : Transfer) : Prop := ∃ ι ∈ l.cur, ι.usesScratch

/-- Process `i` does not begin a round on the scratch buffers while another process is in one. -/
def ScratchFree (failed : Option ℕ) (calls : ι → Call) (c : Cfg ι Transfer Dev) (i : ι)
    (_ : Unit) : Prop :=
  (c.loc i).cur = [] → ∀ t ts, (c.loc i).todo = t :: ts →
    (∃ ι ∈ (calls i).round failed t, ι.usesScratch) → ∀ j ≠ i, ¬ (c.loc j).inScratch

theorem transferNext_cases {failed : Option ℕ} {call : Call} {l l' : Transfer} {d d' : Dev}
    (h : transferNext failed call l d = some (l', d')) :
    (∃ κ is, l.cur = κ :: is ∧ l' = ⟨is, l.todo, (κ.exec (d, l.dst)).2⟩ ∧
      d' = (κ.exec (d, l.dst)).1) ∨
    ∃ t ts, l.cur = [] ∧ l.todo = t :: ts ∧ l' = ⟨call.round failed t, ts, l.dst⟩ ∧ d' = d := by
  unfold transferNext at h
  split at h
  · rename_i κ is hcur
    obtain ⟨rfl, rfl⟩ := Prod.mk.inj (Option.some.inj h)
    exact .inl ⟨κ, is, hcur, rfl, rfl⟩
  · rename_i t ts hcur htodo
    obtain ⟨rfl, rfl⟩ := Prod.mk.inj (Option.some.inj h)
    exact .inr ⟨t, ts, hcur, htodo, rfl, rfl⟩
  · cases h

/-! ## The disk between rounds

`V₀` is what every logical block held at the start, and `pend i` are the blocks of call `i` whose
rounds are not over. -/

/-- What block `t` of the call is to hold in the end. -/
def Call.want (V₀ : ℕ → Block) (call : Call) (t : Fin blocksPerPage) : Block :=
  match call with
  | .read _ => V₀ (call.logical t)
  | .write _ src => src.block t

/-- Every block is as it was or as its call wants it. -/
structure DiskInv (failed : Option ℕ) (calls : ι → Call) (V₀ : ℕ → Block)
    (pend : ι → List (Fin blocksPerPage)) (disk : Disk) : Prop where
  own : ∀ i t, blockView .raid5 failed disk ((calls i).logical t) =
    if t ∈ pend i then V₀ ((calls i).logical t) else (calls i).want V₀ t
  other : ∀ b, (∀ i t, b ≠ (calls i).logical t) → blockView .raid5 failed disk b = V₀ b

/-- The page of a reading call holds the blocks it has read. -/
def DstInv (V₀ : ℕ → Block) (call : Call) (pend : List (Fin blocksPerPage)) (dst : Page) : Prop :=
  ∀ slot, call = .read slot → ∀ t ∉ pend, dst.block t = V₀ (call.logical t)

variable {failed : Option ℕ} {calls : ι → Call} {V₀ : ℕ → Block}
  {pend : ι → List (Fin blocksPerPage)} {disk : Disk} {i : ι} {t : Fin blocksPerPage}
  {ts : List (Fin blocksPerPage)}

omit [DecidableEq ι] in
theorem logical_inj (hslots : Function.Injective fun i => (calls i).slot) {j : ι}
    {t' : Fin blocksPerPage} (h : (calls j).logical t' = (calls i).logical t) : j = i ∧ t' = t :=
  ⟨hslots (slotBlock_inj h).1, (slotBlock_inj h).2⟩

theorem Call.blockView_effect_of_ne (call : Call) {b : ℕ} (h : b ≠ call.logical t) :
    blockView .raid5 failed (call.effect failed t disk) b = blockView .raid5 failed disk b := by
  cases call with
  | read slot => rfl
  | write slot src => exact blockView_writeDisk_of_ne .raid5 failed disk h _

/-- A round turns its block from what it was to what the call wants. -/
theorem DiskInv.effect (hslots : Function.Injective fun i => (calls i).slot)
    (h : DiskInv failed calls V₀ pend disk) (hp : pend i = t :: ts) (ht : t ∉ ts) :
    DiskInv failed calls V₀ (Function.update pend i ts) ((calls i).effect failed t disk) where
  own j t' := by
    by_cases heq : (calls j).logical t' = (calls i).logical t
    · obtain ⟨rfl, rfl⟩ := logical_inj hslots heq
      rw [Function.update_self, if_neg ht]
      have hold := h.own j t'
      rw [hp, if_pos List.mem_cons_self] at hold
      generalize calls j = call at hold
      cases call with
      | read slot => exact hold
      | write slot src => exact blockView_writeDisk_self ..
    · rw [Call.blockView_effect_of_ne _ heq, h.own j t']
      by_cases hj : j = i
      · subst hj
        have ht' : t' ≠ t := fun e => heq (e ▸ rfl)
        simp [hp, ht']
      · rw [Function.update_of_ne hj]
  other b hb := (Call.blockView_effect_of_ne _ (hb i t)).trans (h.other b hb)

omit [DecidableEq ι] in
/-- A round of a read fills its block with what the slot held at the start. -/
theorem DstInv.fill (h : DiskInv failed calls V₀ pend disk) (hp : pend i = t :: ts) {dst : Page}
    (hd : DstInv V₀ (calls i) (pend i) dst) :
    DstInv V₀ (calls i) ts ((calls i).fill failed t disk dst) := by
  intro slot hslot t' ht'
  have hview := h.own i t
  rw [hp, if_pos List.mem_cons_self] at hview
  rw [hslot] at hview hd ⊢
  rw [Call.fill, hview, Page.block_setBlock]
  split
  · rename_i e
    rw [e]
  · rename_i e
    exact hd slot rfl t' (by simp [hp, e, ht'])

/-! ## Runs -/

/-- A process that is not on the scratch buffers: between two rounds, or before the only section
of a round. -/
inductive Idle (failed : Option ℕ) (call : Call) (l : Transfer) :
    List (Fin blocksPerPage) → Prop
  | between (hcur : l.cur = []) : Idle failed call l l.todo
  | direct {t : Fin blocksPerPage} {κ : Instr} (hround : call.round failed t = [κ])
      (hκ : κ.usesScratch = false) (hcur : l.cur = [κ]) : Idle failed call l (t :: l.todo)

/-- A process in a round on the scratch buffers. Its remaining sections end with one that uses
them. -/
structure Shared (failed : Option ℕ) (call : Call) (l : Transfer)
    (pend : List (Fin blocksPerPage)) : Prop where
  last : ∃ is κ, l.cur = is ++ [κ] ∧ κ.usesScratch = true
  round : ∃ t, ∀ κ ∈ l.cur, κ ∈ call.round failed t
  pend_eq : pend = l.todo

/-- The device once process `h` has finished its round. -/
def settled (c : Cfg ι Transfer Dev) : Option ι → Dev
  | none => c.mem
  | some j => (runInstrs (c.loc j).cur (c.mem, (c.loc j).dst)).1

/-- The page of process `i` once process `h` has finished its round. -/
def settledDst (c : Cfg ι Transfer Dev) (h : Option ι) (i : ι) : Page :=
  if h = some i then (runInstrs (c.loc i).cur (c.mem, (c.loc i).dst)).2 else (c.loc i).dst

/-- At most one process, `h`, is on the scratch buffers, and once its round is over every block
of the disk and of the readers' pages is as it should be. -/
structure TransferInv (failed : Option ℕ) (calls : ι → Call) (V₀ : ℕ → Block) (h : Option ι)
    (pend : ι → List (Fin blocksPerPage)) (c : Cfg ι Transfer Dev) : Prop where
  nodup : ∀ i, (pend i).Nodup
  idle : ∀ i, h ≠ some i → Idle failed (calls i) (c.loc i) (pend i)
  shared : ∀ i, h = some i → Shared failed (calls i) (c.loc i) (pend i)
  disk : DiskInv failed calls V₀ pend (settled c h).disk
  dst : ∀ i, DstInv V₀ (calls i) (pend i) (settledDst c h i)

variable {c : Cfg ι Transfer Dev} {h : Option ι}

theorem Shared.inScratch {call : Call} {l : Transfer} {p : List (Fin blocksPerPage)}
    (hs : Shared failed call l p) : l.inScratch := by
  obtain ⟨is, κ, hcur, hκ⟩ := hs.last
  exact ⟨κ, by simp [hcur], hκ⟩

/-- What a step of process `i` has to establish. -/
theorem TransferInv.of_step (hinv : TransferInv failed calls V₀ h pend c) {h' : Option ι}
    {l : Transfer} {d : Dev} {p : List (Fin blocksPerPage)} (hnodup : p.Nodup)
    (hidle : h' ≠ some i → Idle failed (calls i) l p)
    (hshared : h' = some i → Shared failed (calls i) l p)
    (hh : ∀ j ≠ i, h' = some j ↔ h = some j)
    (hdisk : DiskInv failed calls V₀ (Function.update pend i p)
      (settled ⟨Function.update c.loc i l, d⟩ h').disk)
    (hdst : DstInv V₀ (calls i) p (settledDst ⟨Function.update c.loc i l, d⟩ h' i))
    (hdst' : ∀ j ≠ i, settledDst ⟨Function.update c.loc i l, d⟩ h' j = settledDst c h j) :
    TransferInv failed calls V₀ h' (Function.update pend i p)
      ⟨Function.update c.loc i l, d⟩ where
  nodup j := by
    by_cases hj : j = i
    · subst hj
      simpa using hnodup
    · simpa [hj] using hinv.nodup j
  idle j hne := by
    by_cases hj : j = i
    · subst hj
      simpa using hidle hne
    · simpa [hj] using hinv.idle j fun e => hne ((hh j hj).2 e)
  shared j heq := by
    by_cases hj : j = i
    · subst hj
      simpa using hshared heq
    · simpa [hj] using hinv.shared j ((hh j hj).1 heq)
  disk := hdisk
  dst j := by
    by_cases hj : j = i
    · subst hj
      simpa using hdst
    · rw [hdst' j hj, Function.update_of_ne hj]
      exact hinv.dst j

theorem settled_update_of_ne (hi : h ≠ some i) (l : Transfer) :
    settled ⟨Function.update c.loc i l, c.mem⟩ h = settled c h := by
  cases h with
  | none => rfl
  | some j =>
    have hj : j ≠ i := fun e => hi (congrArg some e)
    simp [settled, hj]

theorem settledDst_update_of_ne {j : ι} (hj : j ≠ i) (l : Transfer) :
    settledDst ⟨Function.update c.loc i l, c.mem⟩ h j = settledDst c h j := by
  simp [settledDst, hj]

theorem settledDst_of_ne (hi : h ≠ some i) : settledDst c h i = (c.loc i).dst := if_neg hi

/-- A process with no sections left is not on the scratch buffers. -/
theorem TransferInv.ne_of_cur (hinv : TransferInv failed calls V₀ h pend c)
    (hcur : (c.loc i).cur = []) : h ≠ some i := by
  intro e
  obtain ⟨is, κ, hlast, -⟩ := (hinv.shared i e).last
  simp [hcur] at hlast

theorem TransferInv.pend_of_cur (hinv : TransferInv failed calls V₀ h pend c)
    (hcur : (c.loc i).cur = []) : pend i = (c.loc i).todo := by
  have hidle := hinv.idle i (hinv.ne_of_cur hcur)
  generalize pend i = p at hidle
  cases hidle with
  | between => rfl
  | direct _ _ hcur' => simp [hcur] at hcur'

/-- Process `i` begins a round of a single section. -/
theorem TransferInv.begin_direct (hinv : TransferInv failed calls V₀ h pend c)
    (hcur : (c.loc i).cur = []) (htodo : (c.loc i).todo = t :: ts) {κ : Instr}
    (hround : (calls i).round failed t = [κ]) (hκ : κ.usesScratch = false) :
    TransferInv failed calls V₀ h (Function.update pend i (t :: ts))
      ⟨Function.update c.loc i ⟨(calls i).round failed t, ts, (c.loc i).dst⟩, c.mem⟩ := by
  have hi := hinv.ne_of_cur hcur
  have hp : pend i = t :: ts := (hinv.pend_of_cur hcur).trans htodo
  refine hinv.of_step (hp ▸ hinv.nodup i) (fun _ => .direct hround hκ hround)
    (fun e => absurd e hi) (fun _ _ => Iff.rfl) ?_ ?_ fun j hj => settledDst_update_of_ne hj _
  · rw [settled_update_of_ne hi, ← hp, Function.update_eq_self]
    exact hinv.disk
  · have hdst := hinv.dst i
    rw [settledDst_of_ne hi, hp] at hdst
    simpa [settledDst_of_ne hi] using hdst

/-- Process `i` begins a round on the scratch buffers, which nobody uses. -/
theorem TransferInv.begin_shared (hslots : Function.Injective fun i => (calls i).slot)
    (hinv : TransferInv failed calls V₀ none pend c)
    (hcur : (c.loc i).cur = []) (htodo : (c.loc i).todo = t :: ts) {is : List Instr} {κ : Instr}
    (hround : (calls i).round failed t = is ++ [κ]) (hκ : κ.usesScratch = true) :
    TransferInv failed calls V₀ (some i) (Function.update pend i ts)
      ⟨Function.update c.loc i ⟨(calls i).round failed t, ts, (c.loc i).dst⟩, c.mem⟩ := by
  have hp : pend i = t :: ts := (hinv.pend_of_cur hcur).trans htodo
  obtain ⟨ht, hts⟩ := List.nodup_cons.1 (hp ▸ hinv.nodup i)
  obtain ⟨hdisk, hdst⟩ := (calls i).runInstrs_round failed t c.mem (c.loc i).dst
  refine hinv.of_step hts (fun e => absurd rfl e)
    (fun _ => ⟨⟨is, κ, hround, hκ⟩, ⟨t, fun _ h => h⟩, rfl⟩) (fun j hj => by simp [hj.symm]) ?_ ?_
      ?_
  · simp only [settled, Function.update_self, hdisk]
    exact hinv.disk.effect hslots hp ht
  · simp only [settledDst, if_true, Function.update_self, hdst]
    exact DstInv.fill hinv.disk hp (hinv.dst i)
  · intro j hj
    simp [settledDst, hj, hj.symm]

/-- The process on the scratch buffers executes a section; after its last one nobody is. -/
theorem TransferInv.exec_shared (hinv : TransferInv failed calls V₀ (some i) pend c) {κ : Instr}
    {is : List Instr} (hcur : (c.loc i).cur = κ :: is) :
    TransferInv failed calls V₀ (if is = [] then none else some i)
      (Function.update pend i (pend i))
      ⟨Function.update c.loc i
        ⟨is, (c.loc i).todo, (κ.exec (c.mem, (c.loc i).dst)).2⟩,
        (κ.exec (c.mem, (c.loc i).dst)).1⟩ := by
  have hs := hinv.shared i rfl
  obtain ⟨js, κ', hlast, hκ'⟩ := hs.last
  obtain ⟨t, hround⟩ := hs.round
  have hdisk := hinv.disk
  have hdst := hinv.dst i
  simp only [settled, settledDst, if_true, hcur, runInstrs_cons] at hdisk hdst
  by_cases his : is = []
  · subst his
    refine hinv.of_step (hinv.nodup i) (fun _ => hs.pend_eq ▸ .between rfl) (fun e => ?_)
      (fun j hj => by simp [hj.symm]) ?_ ?_ fun j hj => by simp [settledDst, hj, hj.symm]
    · simp at e
    · rw [Function.update_eq_self]
      exact hdisk
    · simpa [settledDst] using hdst
  · rw [if_neg his]
    refine hinv.of_step (hinv.nodup i) (fun e => absurd rfl e) (fun _ => ⟨?_, ⟨t, ?_⟩, hs.pend_eq⟩)
      (fun _ _ => Iff.rfl) ?_ ?_ fun j hj => by simp [settledDst, hj, hj.symm]
    · rw [hcur, List.cons_eq_append_iff] at hlast
      obtain ⟨-, h⟩ | ⟨js', -, h⟩ := hlast
      · exact absurd (List.cons.inj h.symm).2 his
      · exact ⟨js', κ', h, hκ'⟩
    · exact fun ι hι => hround ι (hcur ▸ List.mem_cons_of_mem _ hι)
    · rw [Function.update_eq_self]
      simpa [settled] using hdisk
    · simpa [settledDst] using hdst

/-- A process off the scratch buffers executes the only section of its round. It commutes with
what the process on the scratch buffers has still to do. -/
theorem TransferInv.exec_direct (hslots : Function.Injective fun i => (calls i).slot)
    (hinv : TransferInv failed calls V₀ h pend c) (hi : h ≠ some i) {κ : Instr}
    {is : List Instr} (hcur : (c.loc i).cur = κ :: is) :
    TransferInv failed calls V₀ h (Function.update pend i (c.loc i).todo)
      ⟨Function.update c.loc i
        ⟨is, (c.loc i).todo, (κ.exec (c.mem, (c.loc i).dst)).2⟩,
        (κ.exec (c.mem, (c.loc i).dst)).1⟩ := by
  obtain ⟨t, hround, hκ, rfl, hp⟩ : ∃ t, (calls i).round failed t = [κ] ∧
      κ.usesScratch = false ∧ is = [] ∧ pend i = t :: (c.loc i).todo := by
    have hidle := hinv.idle i hi
    generalize pend i = p at hidle
    cases hidle with
    | between hcur' => simp [hcur] at hcur'
    | @direct t κ' hround hκ hcur' =>
      obtain ⟨rfl, rfl⟩ := List.cons.inj (hcur.symm.trans hcur')
      exact ⟨t, hround, hκ, rfl, rfl⟩
  obtain ⟨ht, hts⟩ := List.nodup_cons.1 (hp ▸ hinv.nodup i)
  obtain ⟨hdisk, hdst⟩ := (calls i).runInstrs_round failed t c.mem (c.loc i).dst
  rw [hround] at hdisk hdst
  -- running `κ` now or after the other process's round gives the same
  have hcomm : (settled ⟨Function.update c.loc i ⟨[], (c.loc i).todo,
        (κ.exec (c.mem, (c.loc i).dst)).2⟩, (κ.exec (c.mem, (c.loc i).dst)).1⟩ h).disk =
      (calls i).effect failed t (settled c h).disk ∧
      (κ.exec (c.mem, (c.loc i).dst)).2 =
        (calls i).fill failed t (settled c h).disk (c.loc i).dst ∧
      ∀ j ≠ i, settledDst ⟨Function.update c.loc i ⟨[], (c.loc i).todo,
        (κ.exec (c.mem, (c.loc i).dst)).2⟩, (κ.exec (c.mem, (c.loc i).dst)).1⟩ h j =
        settledDst c h j := by
    cases h with
    | none => exact ⟨hdisk, hdst, fun j hj => by simp [settledDst, hj]⟩
    | some k =>
      have hk : k ≠ i := fun e => hi (congrArg some e)
      have hs := hinv.shared k rfl
      obtain ⟨t', hround'⟩ := hs.round
      obtain ⟨ι', hι', hscratch⟩ := hs.inScratch
      have hb : (calls i).logical t ≠ (calls k).logical t' := fun e =>
        hk (logical_inj hslots e).1.symm
      obtain ⟨hpage, heffect⟩ := Call.effect_direct hround hκ hround' (hround' ι' hι') hscratch
        c.mem (c.loc i).dst (c.loc k).dst
      refine ⟨?_, ?_, fun j hj => ?_⟩
      · simpa [settled, hk] using heffect
      · exact hdst.trans (Call.fill_direct hround hκ hb hround' c.mem _ (c.loc k).dst)
      · by_cases hjk : j = k
        · subst hjk
          simpa [settledDst, hj] using hpage
        · simp [settledDst, hj, Ne.symm hjk]
  refine hinv.of_step hts (fun _ => .between rfl) (fun e => absurd e hi) (fun _ _ => Iff.rfl) ?_ ?_
    hcomm.2.2
  · rw [hcomm.1]
    exact hinv.disk.effect hslots hp ht
  · have hd := hinv.dst i
    rw [settledDst_of_ne hi] at hd ⊢
    simp only [Function.update_self]
    rw [hcomm.2.1]
    exact DstInv.fill hinv.disk hp hd

/-- Every step that meets `ScratchFree` keeps the invariant. -/
theorem TransferInv.step (hslots : Function.Injective fun i => (calls i).slot)
    (hinv : ∃ h pend, TransferInv failed calls V₀ h pend c) (hok : ScratchFree failed calls c i ())
    {l : Transfer} {d : Dev} (hn : transferNext failed (calls i) (c.loc i) c.mem = some (l, d)) :
    ∃ h pend, TransferInv failed calls V₀ h pend ⟨Function.update c.loc i l, d⟩ := by
  obtain ⟨h, pend, hinv⟩ := hinv
  obtain ⟨κ, is, hcur, rfl, rfl⟩ | ⟨t, ts, hcur, htodo, rfl, rfl⟩ := transferNext_cases hn
  · by_cases hi : h = some i
    · subst hi
      exact ⟨_, _, hinv.exec_shared hcur⟩
    · exact ⟨_, _, hinv.exec_direct hslots hi hcur⟩
  · obtain ⟨κ, hround, hκ⟩ | ⟨is, κ, hround, hκ⟩ := (calls i).round_cases failed t
    · exact ⟨_, _, hinv.begin_direct hcur htodo hround hκ⟩
    · have hfree := hok hcur t ts htodo ⟨κ, by simp [hround], hκ⟩
      have hnone : h = none := by
        cases h with
        | none => rfl
        | some j =>
          have hj : j ≠ i := fun e => hinv.ne_of_cur hcur (congrArg some e)
          exact absurd (hinv.shared j rfl).inScratch (hfree j hj)
      subst hnone
      exact ⟨_, _, hinv.begin_shared hslots hcur htodo hround hκ⟩

/-- All processes about to begin their calls. -/
def transferStart (bufs : ι → Page) (d : Dev) : Cfg ι Transfer Dev :=
  ⟨fun i => .start (bufs i), d⟩

theorem transferInv_start (failed : Option ℕ) (calls : ι → Call) (bufs : ι → Page) (d : Dev) :
    TransferInv failed calls (blockView .raid5 failed d.disk) none
      (fun _ => List.finRange blocksPerPage) (transferStart bufs d) where
  nodup _ := List.nodup_finRange _
  idle _ _ := .between rfl
  shared _ h := by simp at h
  disk := ⟨fun _ t => by rw [if_pos (List.mem_finRange t)]; rfl, fun _ _ => rfl⟩
  dst _ _ _ t ht := absurd (List.mem_finRange t) ht

/-- What the calls should have achieved when all of them have returned, compared with calls one at
a time: a read delivered what its slot held at the start (the page last written to it), a later
read of a written slot returns the page written, and of any other slot what it returned before. -/
def Delivered (failed : Option ℕ) (calls : ι → Call) (d₀ : Dev) (c : Cfg ι Transfer Dev) : Prop :=
  (∀ i slot buf, calls i = .read slot →
    (c.loc i).dst = (swapDiskRead .raid5 failed slot buf d₀).2.2) ∧
  (∀ i slot src buf, calls i = .write slot src →
    (swapDiskRead .raid5 failed slot buf c.mem).2.2 = src) ∧
  ∀ slot buf, (∀ i src, calls i ≠ .write slot src) →
    (swapDiskRead .raid5 failed slot buf c.mem).2.2 =
      (swapDiskRead .raid5 failed slot buf d₀).2.2

/-- The invariant of a configuration in which every call has returned. -/
theorem TransferInv.delivered {d₀ : Dev}
    (hinv : TransferInv failed calls (blockView .raid5 failed d₀.disk) h pend c)
    (hfin : ∀ i, (c.loc i).finished) : Delivered failed calls d₀ c := by
  have hnone : h = none := by
    cases h with
    | none => rfl
    | some j => exact absurd rfl (hinv.ne_of_cur (hfin j).1)
  subst hnone
  have hpend : ∀ i, pend i = [] := fun i => (hinv.pend_of_cur (hfin i).1).trans (hfin i).2
  have hown : ∀ i t, blockView .raid5 failed c.mem.disk ((calls i).logical t) =
      (calls i).want (blockView .raid5 failed d₀.disk) t := fun i t => by
    have := hinv.disk.own i t
    rwa [hpend, if_neg List.not_mem_nil] at this
  refine ⟨fun i slot buf hcall => ?_, fun i slot src buf hcall => ?_, fun slot buf hslot => ?_⟩
  · rw [(swapDiskRead_spec ..).2]
    refine Page.ext_block fun t => ?_
    have := hinv.dst i slot hcall t (by simp [hpend])
    rw [pageView, Page.block_ofBlocks]
    rwa [hcall] at this
  · rw [(swapDiskRead_spec ..).2]
    refine Page.ext_block fun t => ?_
    have := hown i t
    rw [pageView, Page.block_ofBlocks]
    rwa [hcall] at this
  · rw [(swapDiskRead_spec ..).2, (swapDiskRead_spec ..).2]
    refine Page.ext_block fun t => ?_
    rw [pageView, pageView, Page.block_ofBlocks, Page.block_ofBlocks]
    by_cases hmem : ∃ i, (calls i).slot = slot
    · -- a slot that is only read
      obtain ⟨i, rfl⟩ := hmem
      have hview := hown i t
      cases hcall : calls i with
      | read s => rwa [hcall] at hview
      | write s src => exact absurd hcall (hslot i src ∘ fun e => by rw [e]; rfl)
    · refine hinv.disk.other _ fun i t' e => hmem ⟨i, (slotBlock_inj e).1.symm⟩

/-- **Concurrent RAID 5 transfers do not corrupt each other** in any interleaving in which a process
begins a round on the scratch buffers only while no other process is in one. -/
theorem concurrent_transfers_delivered (calls : ι → Call)
    (hslots : Function.Injective fun i => (calls i).slot) (bufs : ι → Page) (d₀ : Dev)
    (c : Cfg ι Transfer Dev)
    (hrun : (transferSystem (currentFailedDisk .raid5) calls).Reaches
      (ScratchFree (currentFailedDisk .raid5) calls) (transferStart bufs d₀) c)
    (hfin : ∀ i, (c.loc i).finished) : Delivered (currentFailedDisk .raid5) calls d₀ c := by
  obtain ⟨h, pend, hinv⟩ := hrun.inv
    (fun _ _ _ _ _ hok hinv hn => TransferInv.step hslots hinv hok hn)
    ⟨_, _, transferInv_start _ calls bufs d₀⟩
  exact hinv.delivered hfin

instance decidableScratchFree [Fintype ι] (failed : Option ℕ) (calls : ι → Call)
    (c : Cfg ι Transfer Dev) (i : ι) (a : Unit) : Decidable (ScratchFree failed calls c i a) :=
  decidable_of_iff ((c.loc i).cur.isEmpty = true → ∀ t ∈ (c.loc i).todo.head?,
    ((calls i).round failed t).any Instr.usesScratch = true → ∀ j ≠ i,
      (c.loc j).cur.any Instr.usesScratch = false) <| by
    simp only [ScratchFree, Transfer.inScratch, List.isEmpty_iff, Option.mem_def,
      List.head?_eq_some_iff, List.any_eq_true, forall_exists_index, not_exists, not_and,
      List.any_eq_false]

/-- A write of slot 1 and a read of slot 0. -/
def writeAndRead : Fin 2 → Call
  | 0 => .write 1 fun _ => 5
  | 1 => .read 0

/-- A disk with ones in row 0 and zeros elsewhere. -/
def onesInRowZero : Dev :=
  ⟨fun n => if swapStartBlock ≤ n ∧ n < swapStartBlock + nDisks then 1 else 0, 0, 0, 0, 0⟩

/-- The reader's first round is inside the first parity update of the writer `i`, and the writer's
last rounds are inside the round in which the reader `j` reconstructs its second block. -/
def sharedDisks (i j : ι) : List (ι × Unit) :=
  List.flatten [List.replicate 3 (i, ()), List.replicate 2 (j, ()), List.replicate 11 (i, ()),
    List.replicate 3 (j, ()), List.replicate 4 (i, ()), List.replicate 7 (j, ())]

/-- The reader has got the reconstructed block. -/
theorem writeAndRead_delivered : ∃ c,
    (transferSystem (currentFailedDisk .raid5) writeAndRead).Reaches
      (ScratchFree (currentFailedDisk .raid5) writeAndRead)
      (transferStart (fun _ => 0) onesInRowZero) c ∧
    (∀ i, (c.loc i).finished) ∧ (∀ h, (c.loc 1).dst ⟨bSize, h⟩ = 1) ∧
    Delivered (currentFailedDisk .raid5) writeAndRead onesInRowZero c := by
  have hrun : ((transferSystem (currentFailedDisk .raid5) writeAndRead).execWhile
      (ScratchFree (currentFailedDisk .raid5) writeAndRead) (sharedDisks 0 1)
      (transferStart (fun _ => 0) onesInRowZero)).map (fun c =>
        decide ((∀ i, (c.loc i).cur.isEmpty ∧ (c.loc i).todo = []) ∧
          ∀ h, (c.loc 1).dst ⟨bSize, h⟩ = 1)) = some true := by
    decide +kernel
  obtain ⟨c, hc, hobs⟩ := Option.map_eq_some_iff.1 hrun
  obtain ⟨hdone, hbyte⟩ := of_decide_eq_true hobs
  have hfin : ∀ i, (c.loc i).finished := fun i => ⟨List.isEmpty_iff.1 (hdone i).1, (hdone i).2⟩
  have hreach := System.reaches_of_execWhile hc
  exact ⟨c, hreach, hfin, hbyte,
    concurrent_transfers_delivered writeAndRead (by decide) _ _ c hreach hfin⟩

/-- Two reads, of slots 0 and 1. -/
def twoReads (i : Fin 2) : Call := .read i

/-- Process 0 has added the first disk to `raid5_recovered` when process 1 runs. -/
def clobberSchedule : List (Fin 2 × Unit) :=
  List.replicate 5 (0, ()) ++ List.replicate 12 (1, ()) ++ List.replicate 7 (0, ())

theorem clobberSchedule_runs :
    ((transferSystem (currentFailedDisk .raid5) twoReads).exec clobberSchedule
      (transferStart (fun _ => 0) onesInRowZero)).isSome := rfl

/-- Without the condition: process 0 is given zeros for the block it was reconstructing, although
nothing was written. -/
theorem twoReads_not_delivered : ∃ c,
    (transferSystem (currentFailedDisk .raid5) twoReads).Reaches System.any
      (transferStart (fun _ => 0) onesInRowZero) c ∧
    (∀ i, (c.loc i).finished) ∧
    ¬ Delivered (currentFailedDisk .raid5) twoReads onesInRowZero c := by
  refine ⟨Option.get _ clobberSchedule_runs,
    System.reaches_of_exec (Option.some_get clobberSchedule_runs).symm, ?_, fun h => ?_⟩
  · rw [Fin.forall_fin_two]
    exact ⟨⟨rfl, rfl⟩, ⟨rfl, rfl⟩⟩
  · -- the first byte of the second block, which is on the failed disk
    have hbyte := congrFun (h.1 0 0 0 rfl) ⟨bSize, by decide⟩
    revert hbyte
    decide

end Xv6Swap.Raid
