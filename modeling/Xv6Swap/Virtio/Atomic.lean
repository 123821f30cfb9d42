import Xv6Swap.Cache.Buffers
import Xv6Swap.Virtio.Safety

/-!
# `virtio_disk_rw` is atomic

What the driver is for: between its call and its return, `virtio_disk_rw` moves the data of one
block at one moment (`Atomic.Step`). The driver, the interrupt handlers and the device together
refine that (`virtio_refines`): every run shows the calls, the returns with the contents of the
buffers, and the changes of buffers of a run of the atomic system. The moment is the one at which
the device executes the request. In the atomic system a transfer is the one of the buffer cache
(`transfer_eq_virtioDiskRw`).

The product in `sector` has 32 bits, so that block numbers are below `2 ^ 31` here (`Small`).
-/

namespace Xv6Swap.Virtio

open Raid (Byte Block bSize)
open Fifo (slot)
open Simulation (Runs Shows Refines)

/-! ## Atomic transfers -/

namespace Atomic

inductive Pc (β : Type*)
  | idle
  | called (b : β) (write : Bool)
  | served (b : β) (write : Bool)

/-- The processes, the buffers and the blocks of the disk. -/
structure State (ι β : Type*) where
  pc : ι → Pc β
  blockno : β → UInt32
  data : β → Block
  block : UInt32 → Block

/-- What can be seen of a step. -/
inductive Event (ι β : Type*)
  | call (i : ι) (b : β) (write : Bool)
  /-- the process returns with `data` in its buffer -/
  | ret (i : ι) (b : β) (data : Block)
  | modify (b : β) (blockno : UInt32) (data : Block)

variable {ι β : Type*} [DecidableEq ι] [DecidableEq β]

omit [DecidableEq ι] in
/-- The transfer of a block. -/
def State.transfer (b : β) (write : Bool) (s : State ι β) : State ι β :=
  if write then { s with block := Function.update s.block (s.blockno b) (s.data b) }
  else { s with data := Function.update s.data b (s.block (s.blockno b)) }

inductive Step (s : State ι β) : Option (Event ι β) → State ι β → Prop
  | call {i : ι} {b : β} {write : Bool} (hpc : s.pc i = .idle) :
      Step s (some (.call i b write)) { s with pc := Function.update s.pc i (.called b write) }
  | transfer {i : ι} {b : β} {write : Bool} (hpc : s.pc i = .called b write) :
      Step s none { s.transfer b write with pc := Function.update s.pc i (.served b write) }
  | ret {i : ι} {b : β} {write : Bool} (hpc : s.pc i = .served b write) :
      Step s (some (.ret i b (s.data b))) { s with pc := Function.update s.pc i .idle }
  | modify {b : β} {blockno : UInt32} {data : Block} :
      Step s (some (.modify b blockno data)) { s with
        blockno := Function.update s.blockno b blockno, data := Function.update s.data b data }

omit [DecidableEq ι] [DecidableEq β] in
/-- What the atomic system has of the buffer cache and its disk. -/
def ofDisk (pc : ι → Pc Cache.BufIdx) (d : Cache.Disk ι Block) : State ι Cache.BufIdx where
  pc := pc
  blockno b := (d.cache.buf b).blockno
  data b := (d.cache.buf b).data
  block := d.block

omit [DecidableEq ι] in
/-- A transfer is the one of the buffer cache. -/
theorem transfer_eq_virtioDiskRw (pc : ι → Pc Cache.BufIdx) (d : Cache.Disk ι Block)
    (b : Cache.BufIdx) (write : Bool) :
    (ofDisk pc d).transfer b write = ofDisk pc (d.virtioDiskRw b write) := by
  cases write with
  | true => rfl
  | false =>
    simp only [State.transfer, Cache.Disk.virtioDiskRw, Bool.false_eq_true, if_false, ofDisk,
      Cache.Bcache.modify, State.mk.injEq, true_and, and_true]
    constructor
    · funext b'
      by_cases hb : b' = b
      · simp [hb]
      · simp [Function.update_of_ne hb]
    · funext b'
      by_cases hb : b' = b
      · simp [hb]
      · simp [Function.update_of_ne hb]

end Atomic

variable {ι κ β : Type*} {N : ℕ}

/-! ## The atomic view of the driver -/

/-- A call is served from when its status is written. -/
def Pc.atomic (status : Fin N → Byte) : Pc N β → Atomic.Pc β
  | .idle | .panicked _ => .idle
  | .acquire b write | .alloc b write | .sleepFree b write => .called b write
  | .fill b write _ | .ring b write _ | .publish b write _ => .called b write
  | .check b write c | .sleepBuf b write c | .finish b write c =>
    if status c.head = 0 then .served b write else .called b write

theorem Pc.atomic_of_sent {pc : Pc N β} {j : Job N β} (h : pc.sent = some j)
    (status : Fin N → Byte) : pc.atomic status =
      if status j.chain.head = 0 then .served j.b j.write else .called j.b j.write := by
  cases pc <;> first | (cases h; rfl) | cases h

theorem Pc.atomic_congr {pc : Pc N β} {status status' : Fin N → Byte}
    (h : ∀ {j}, pc.sent = some j → status' j.chain.head = status j.chain.head) :
    pc.atomic status' = pc.atomic status := by
  cases hsent : pc.sent with
  | some j => rw [atomic_of_sent hsent, atomic_of_sent hsent, h hsent]
  | none => cases pc <;> first | rfl | cases hsent

theorem Pc.atomic_locked {pc pc' : Pc N β} (h : pc.locked = some pc') (status : Fin N → Byte) :
    pc'.atomic status = pc.atomic status := by
  cases pc <;> first | (cases h; rfl) | cases h

/-- The product in `sector` does not overflow. -/
def Small (blockno : UInt32) : Prop := blockno.toNat < 2 ^ 31

instance decidableSmall (blockno : UInt32) : Decidable (Small blockno) :=
  inferInstanceAs (Decidable (blockno.toNat < 2 ^ 31))

/-- The number that a step gives to a buffer. -/
def Act.blockno : Act ι κ β N → Option UInt32
  | .modify _ blockno _ => some blockno
  | _ => none

namespace State

/-- The blocks of the disk are its bytes, `bSize` for each. -/
def atomic (s : State ι κ β N) : Atomic.State ι β where
  pc i := (s.pc i).atomic fun d => (s.info d).status
  blockno b := (s.buf b).blockno
  data b := (s.buf b).data
  block n := fun k => s.medium (n.toNat * bSize + k)

def event (s : State ι κ β N) : Act ι κ β N → Option (Atomic.Event ι β)
  | .call i b write => some (.call i b write)
  | .ret i => (s.pc i).finishing.map fun j => .ret i j.b (s.buf j.b).data
  | .modify b blockno data => some (.modify b blockno data)
  | _ => none

/-- A step with block numbers that are not too large. -/
def SmallStep [NeZero N] [DecidableEq ι] [DecidableEq κ] [DecidableEq β] (s : State ι κ β N)
    (a : Act ι κ β N) (s' : State ι κ β N) : Prop :=
  s.Step a s' ∧ ∀ blockno ∈ a.blockno, Small blockno

/-! ## Bytes and blocks -/

theorem sectorOf_toNat {n : UInt32} (h : Small n) :
    (sectorOf n).toNat * sectorSize = n.toNat * bSize := by
  have hmul : (n * UInt32.ofNat (bSize / sectorSize)).toNat = n.toNat * 2 := by
    rw [UInt32.toNat_mul]
    exact Nat.mod_eq_of_lt (by rw [Small] at h; change n.toNat * 2 < _; omega)
  rw [sectorOf, UInt32.toNat_toUInt64, hmul, Nat.mul_assoc]
  rfl

theorem readMedium_sectorOf {n : UInt32} (h : Small n) (s : State ι κ β N) :
    s.readMedium (sectorOf n) = s.atomic.block n := by
  funext k
  rw [readMedium, sectorOf_toNat h]
  rfl

theorem writeMedium_sectorOf {n : UInt32} (h : Small n) (data : Block) (medium : ℕ → Byte)
    (m : UInt32) (k : Fin bSize) : writeMedium (sectorOf n) data medium (m.toNat * bSize + k) =
      Function.update (fun m : UInt32 => fun k : Fin bSize => medium (m.toNat * bSize + k)) n data
        m k := by
  have hk := k.isLt
  simp only [writeMedium, sectorOf_toNat h]
  by_cases hm : m = n
  · have hin : n.toNat * bSize ≤ n.toNat * bSize + k ∧
        n.toNat * bSize + k - n.toNat * bSize < bSize := by omega
    rw [hm, Function.update_self, dif_pos hin]
    exact congrArg data (Fin.ext (Nat.add_sub_cancel_left ..))
  · have hne : m.toNat ≠ n.toNat := fun heq => hm (UInt32.toNat.inj heq)
    have hout : ¬(n.toNat * bSize ≤ m.toNat * bSize + k ∧
        m.toNat * bSize + k - n.toNat * bSize < bSize) := by
      rintro ⟨hle, hlt⟩
      rcases lt_or_gt_of_ne hne with hless | hmore
      · have hnext := Nat.mul_le_mul_right bSize (Nat.succ_le_of_lt hless)
        rw [Nat.succ_mul] at hnext
        omega
      · have hnext := Nat.mul_le_mul_right bSize (Nat.succ_le_of_lt hmore)
        rw [Nat.succ_mul] at hnext
        omega
    rw [Function.update_of_ne hm, dif_neg hout]

/-! ## Refinement -/

section Refine

variable [NeZero N] [DecidableEq ι] [DecidableEq κ] [DecidableEq β]
variable {s s' : State ι κ β N} {a : Act ι κ β N}

omit [NeZero N] [DecidableEq ι] [DecidableEq κ] in
/-- The device moves the data of the block. -/
theorem transfer_data {j : Job N β} (h : Small (s.buf j.b).blockno) (d : Fin N) (b : β) :
    ((s.transfer (s.request j) j.b d).buf b).data = (s.atomic.transfer j.b j.write).data b := by
  cases hwrite : j.write with
  | true => simp [transfer, request, hwrite, Atomic.State.transfer, atomic]
  | false =>
    simp only [transfer, request, hwrite, Bool.false_eq_true, if_false, Atomic.State.transfer]
    by_cases hb : b = j.b
    · rw [hb, Function.update_self, Function.update_self]
      exact readMedium_sectorOf h _
    · rw [Function.update_of_ne hb, Function.update_of_ne hb]
      rfl

omit [NeZero N] [DecidableEq ι] [DecidableEq κ] in
theorem transfer_block {j : Job N β} (h : Small (s.buf j.b).blockno) (d : Fin N) :
    (fun (n : UInt32) (k : Fin bSize) =>
      (s.transfer (s.request j) j.b d).medium (n.toNat * bSize + k)) =
        (s.atomic.transfer j.b j.write).block := by
  cases hwrite : j.write with
  | true =>
    simp only [transfer, request, hwrite, if_true, Atomic.State.transfer]
    funext n k
    exact writeMedium_sectorOf h _ _ n k
  | false => simp [transfer, request, hwrite, Atomic.State.transfer, atomic]

/-- A step changes the number of a buffer only where it says so. -/
theorem Moves.blockno (h : Moves s a s') (b : β) :
    (s'.buf b).blockno = (s.buf b).blockno ∨ (s'.buf b).blockno ∈ a.blockno := by
  cases h with
  | @modify b' blockno data =>
    by_cases hb : b = b'
    · exact .inr (by simp [hb, Act.blockno])
    · exact .inl (by simp [Function.update_of_ne hb])
  | @fill i b' =>
    by_cases hb : b = b'
    · exact .inl (by simp [goto, fillChain, hb])
    · exact .inl (by simp [goto, fillChain, Function.update_of_ne hb])
  | @handle h i j =>
    by_cases hb : b = j.b
    · exact .inl (by simp [wakeup, hb])
    · exact .inl (by simp [wakeup, Function.update_of_ne hb])
  | execute => exact .inl (transfer_buf ..).1
  | full hpc hcount htried =>
    rw [htried.rest]
    exact .inl rfl
  | call | lock | alloc | ring | publish | sleep | done | ret | kill | intrStart | intrLock | ack
  | intrEnd | take | post | bump | raise => exact .inl rfl

omit [DecidableEq ι] [DecidableEq κ] [DecidableEq β] in
/-- The request of a process that finishes is served. -/
theorem Inv.status_of_finishing (hs : s.Inv) {i : ι} {j : Job N β}
    (hj : (s.pc i).finishing = some j) : (s.info j.chain.head).status = 0 := by
  have hsent := Pc.sent_of_finishing hj
  refine (hs.tracked.status_iff hsent).2 fun hmem => ?_
  obtain ⟨i', j', hsent', hhead, hdisk⟩ := hs.sent_of_mem (List.mem_append_left _ hmem)
  obtain rfl := hs.owned.eq_of_head (Pc.job_of_sent hsent') (Pc.job_of_sent hsent) hhead
  rw [Option.some.inj (hsent'.symm.trans hsent), hs.finished hj] at hdisk
  cases hdisk

omit [NeZero N] [DecidableEq ι] [DecidableEq κ] [DecidableEq β] in
theorem atomic_eq (hpc : s'.atomic.pc = s.atomic.pc)
    (hbuf : ∀ b, (s'.buf b).blockno = (s.buf b).blockno ∧ (s'.buf b).data = (s.buf b).data)
    (hmedium : s'.medium = s.medium) : s'.atomic = s.atomic := by
  rw [atomic, atomic, Atomic.State.mk.injEq]
  exact ⟨hpc, funext fun b => (hbuf b).1, funext fun b => (hbuf b).2, by rw [hmedium]⟩

omit [NeZero N] [DecidableEq κ] [DecidableEq β] in
/-- A process goes on in the driver. -/
theorem atomic_goto {i : ι} {pc pc' : Pc N β} (hpc : s.pc i = pc)
    (hs' : s'.pc = Function.update s.pc i pc')
    (heq : (pc'.atomic fun d => (s.info d).status) = pc.atomic fun d => (s.info d).status)
    (hinfo : s'.info = s.info) (hbuf : s'.buf = s.buf) (hmedium : s'.medium = s.medium) :
    s'.atomic = s.atomic := by
  refine atomic_eq ?_ (fun b => by rw [hbuf]; exact ⟨rfl, rfl⟩) hmedium
  rw [atomic, hs', hinfo]
  exact update_eq (Pc.atomic fun d => (s.info d).status) hpc heq

omit [DecidableEq κ] in
theorem Inv.atomic_execute (hs : s.Inv) (hsmall : ∀ b, Small (s.buf b).blockno) {i : ι}
    {j : Job N β} (hmem : j.chain.head ∈ s.taken) (hsent : (s.pc i).sent = some j)
    {s' : State ι κ β N} (hpc : s'.pc = s.pc)
    (hinfo : s'.info = Function.update s.info j.chain.head
      { s.info j.chain.head with status := 0 })
    (hbuf : s'.buf = (s.transfer (s.request j) j.b j.chain.head).buf)
    (hmedium : s'.medium = (s.transfer (s.request j) j.b j.chain.head).medium) :
    Atomic.Step s.atomic none s'.atomic := by
  have hcalled : s.atomic.pc i = .called j.b j.write := by
    have hstatus : (s.info j.chain.head).status ≠ 0 := fun hzero =>
      (hs.tracked.status_iff hsent).1 hzero (List.mem_append_right _ hmem)
    exact (Pc.atomic_of_sent hsent fun d => (s.info d).status).trans (if_neg hstatus)
  have heq : s'.atomic = { s.atomic.transfer j.b j.write with
      pc := Function.update s.atomic.pc i (.served j.b j.write) } := by
    rw [atomic, Atomic.State.mk.injEq, hbuf, hmedium, hpc, hinfo]
    refine ⟨?_, ?_, funext (transfer_data (hsmall j.b) _), transfer_block (hsmall j.b) _⟩
    · funext k
      by_cases hk : k = i
      · rw [hk, Function.update_self, Pc.atomic_of_sent hsent, Function.update_self, if_pos rfl]
      · rw [Function.update_of_ne hk]
        change _ = Pc.atomic (fun d => (s.info d).status) (s.pc k)
        refine Pc.atomic_congr fun {j'} hsent' => ?_
        rw [Function.update_of_ne
          (hs.head_ne hk (Pc.job_of_sent hsent') (Pc.job_of_sent hsent))]
    · funext b
      rw [(transfer_buf ..).1, Atomic.State.transfer]
      split_ifs <;> rfl
  rw [heq]
  exact .transfer hcalled

theorem Inv.atomic_moves (hs : s.Inv) (hsmall : ∀ b, Small (s.buf b).blockno) (h : Moves s a s') :
    s.event a = none ∧ s'.atomic = s.atomic ∨ Atomic.Step s.atomic (s.event a) s'.atomic := by
  cases h with
  | @call i b write hpc =>
    have hidle : s.atomic.pc i = .idle := by simp [atomic, hpc, Pc.atomic]
    have heq : (s.goto i (.acquire b write)).atomic =
        { s.atomic with pc := Function.update s.atomic.pc i (.called b write) } := by
      simp only [atomic, goto, update_comp (Pc.atomic _)]
      rfl
    rw [heq]
    exact .inr (.call hidle)
  | alloc hpc | ring hpc | sleep hpc | done hpc =>
    exact .inl ⟨rfl, atomic_goto hpc rfl rfl rfl rfl rfl⟩
  | lock hpc => exact .inl ⟨rfl, atomic_goto rfl rfl (Pc.atomic_locked hpc _) rfl rfl rfl⟩
  | full hpc hcount htried =>
    rw [htried.rest]
    exact .inl ⟨rfl, atomic_goto hpc rfl rfl rfl rfl rfl⟩
  | @publish i b write c hpc =>
    have hstatus : (s.info c.head).status = 0xff :=
      (hs.ready (i := i) (congrArg Pc.ready hpc)).2
    refine .inl ⟨rfl, atomic_goto hpc rfl ?_ rfl rfl rfl⟩
    simp [Pc.atomic, hstatus]
  | @fill i b write c hpc =>
    refine .inl ⟨rfl, atomic_eq ?_ (fun b' => ?_) rfl⟩
    · funext k
      by_cases hk : k = i
      · simp [atomic, goto, fillChain, hk, hpc, Pc.atomic]
      · simp only [atomic, goto, fillChain, Function.update_of_ne hk]
        refine Pc.atomic_congr fun {j} hsent => ?_
        rw [Function.update_of_ne
          (hs.head_ne hk (Pc.job_of_sent hsent) (congrArg Pc.job hpc))]
    · by_cases hb : b' = b
      · simp [goto, fillChain, hb]
      · simp [goto, fillChain, Function.update_of_ne hb]
  | @ret i b write c hpc =>
    have hevent : s.event (.ret i) = some (.ret i b (s.atomic.data b)) := by
      simp only [event, hpc, Pc.finishing, Option.map_some]
      rfl
    have hserved : s.atomic.pc i = .served b write :=
      (Pc.atomic_of_sent (j := ⟨b, write, c⟩) (congrArg Pc.sent hpc)
        fun d => (s.info d).status).trans
        (if_pos (hs.status_of_finishing (i := i) (congrArg Pc.finishing hpc)))
    have hstatus : (fun d => (Function.update s.info c.head
        { s.info c.head with b := none } d).status) = fun d => (s.info d).status := by
      funext d
      by_cases hd : d = c.head
      · simp [hd]
      · simp [Function.update_of_ne hd]
    have heq : State.atomic { s with
        pc := Function.update s.pc i .idle
        info := Function.update s.info c.head { s.info c.head with b := none } } =
        { s.atomic with pc := Function.update s.atomic.pc i .idle } := by
      simp only [atomic, hstatus, update_comp (Pc.atomic _)]
      rfl
    rw [hevent]
    exact .inr (heq ▸ .ret hserved)
  | @modify b blockno data =>
    have heq : State.atomic { s with
        buf := Function.update s.buf b { s.buf b with blockno := blockno, data := data } } =
        { s.atomic with
          blockno := Function.update s.atomic.blockno b blockno
          data := Function.update s.atomic.data b data } := by
      simp only [atomic, Atomic.State.mk.injEq, true_and, and_true]
      constructor
      · funext b'
        by_cases hb : b' = b
        · simp [hb]
        · simp [Function.update_of_ne hb]
      · funext b'
        by_cases hb : b' = b
        · simp [hb]
        · simp [Function.update_of_ne hb]
    exact .inr (heq ▸ .modify)
  | @handle h i j =>
    refine .inl ⟨rfl, atomic_eq rfl (fun b => ?_) rfl⟩
    by_cases hb : b = j.b
    · simp [wakeup, hb]
    · simp [wakeup, Function.update_of_ne hb]
  | @execute i j hphase hmem hsent =>
    exact .inr (hs.atomic_execute hsmall hmem hsent rfl rfl rfl rfl)
  | kill | intrStart | intrLock | ack | intrEnd | take | post | bump | raise =>
    exact .inl ⟨rfl, rfl⟩

theorem SmallStep.small (h : s.SmallStep a s') (hmoves : Moves s a s')
    (hs : ∀ b, Small (s.buf b).blockno) (b : β) : Small (s'.buf b).blockno := by
  rcases hmoves.blockno b with heq | hmem
  · rw [heq]
    exact hs b
  · exact h.2 _ hmem

theorem refines (hN : N ∣ 2 ^ 15) :
    Refines (Shows (SmallStep (ι := ι) (κ := κ) (β := β) (N := N)) event) Atomic.Step
      (fun s => s.Inv ∧ ∀ b, Small (s.buf b).blockno) atomic := by
  rintro s o s' ⟨hs, hsmall⟩ ⟨a, hstep, rfl⟩
  have hmoves := hs.moves_of_step hstep.1
  exact ⟨⟨hs.step hN hstep.1, hstep.small hmoves hsmall⟩, hs.atomic_moves hsmall hmoves⟩

/-- **`virtio_disk_rw` is atomic**: what a run of the driver and the device shows, a run with atomic
transfers shows as well. -/
theorem virtio_refines (hN : N ∣ 2 ^ 15) (hstart : s.Started)
    (hsmall : ∀ b, Small (s.buf b).blockno) {l : List (Option (Atomic.Event ι β))}
    (hrun : Runs (Shows SmallStep event) s l s') :
    ∃ l', Runs Atomic.Step s.atomic l' s'.atomic ∧ l'.reduceOption = l.reduceOption :=
  ((refines hN).runs ⟨hstart.inv, hsmall⟩ hrun).2

end Refine

/-- One process writes a block while another one reads it into its own buffer. The device does the
read first, whose chain is at `e`, then the write, with its chain at `d`, and the handler of one
interrupt finds both done. -/
def writeRead (i j : ι) (h : κ) (a b : β) (d e : Fin N) : List (Act ι κ β N) :=
  List.flatten [[.modify b 0 fun _ => 7, .call i a true, .call j b false],
    List.replicate 6 (.proc i), List.replicate 6 (.proc j), [.dev .take, .dev .take],
    [.dev (.execute e), .dev .post, .dev .bump, .dev .raise],
    [.dev (.execute d), .dev .post, .dev .bump, .dev .raise], List.replicate 6 (.intr h),
    [.proc j, .proc j, .ret j, .proc i, .proc i, .ret i]]

/-- A step with small block numbers, as far as the contract allows it. -/
def smallNext [NeZero N] [Fintype ι] [DecidableEq ι] [DecidableEq κ] [DecidableEq β]
    (s : State ι κ β N) (a : Act ι κ β N) : Option (State ι κ β N) :=
  if a.blockno.all fun blockno => decide (Small blockno) then s.next a else none

theorem smallStep_of_smallNext [NeZero N] [Fintype ι] [DecidableEq ι] [DecidableEq κ]
    [DecidableEq β] {s s' : State ι κ β N} {a : Act ι κ β N} (h : s.smallNext a = some s') :
    SmallStep s a s' := by
  rw [smallNext] at h
  split_ifs at h with hsmall
  refine ⟨step_of_next h, fun blockno hblockno => ?_⟩
  rw [Option.mem_def] at hblockno
  simpa [hblockno] using hsmall

/-- The reader gets what was on the disk, and then the block of the writer is there. -/
theorem exec_writeRead :
    ∃ s', Simulation.exec smallNext (writeRead 0 1 0 0 1 0 3) threeBuffers = some s' ∧
      (∀ h : 5 < bSize, (s'.buf 1).data ⟨5, h⟩ = 9) ∧ s'.medium 5 = 0 := by
  have hrun : (Simulation.exec smallNext (writeRead 0 1 0 0 1 0 3) threeBuffers).map (fun s' =>
      decide ((∀ h : 5 < bSize, (s'.buf 1).data ⟨5, h⟩ = 9) ∧ s'.medium 5 = 0)) = some true := by
    decide +kernel
  obtain ⟨s', hs', hdecide⟩ := Option.map_eq_some_iff.1 hrun
  exact ⟨s', hs', of_decide_eq_true hdecide⟩

theorem virtio_refines_writeRead : ∃ l s', Runs (Shows SmallStep event) threeBuffers l s' ∧
    ((∀ h : 5 < bSize, (s'.buf 1).data ⟨5, h⟩ = 9) ∧ s'.medium 5 = 0) ∧
    ∃ l', Runs Atomic.Step threeBuffers.atomic l' s'.atomic ∧
      l'.reduceOption = l.reduceOption := by
  obtain ⟨s', hexec, hdata⟩ := exec_writeRead
  obtain ⟨l, hl⟩ := (Simulation.runs_of_exec smallStep_of_smallNext hexec).shows event
  exact ⟨l, s', hl, hdata,
    virtio_refines (by decide) (started_virtioDiskInit _ _) (by decide +kernel) hl⟩

end State

end Xv6Swap.Virtio
