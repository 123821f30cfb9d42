import Xv6Swap.Foundations.Fifo
import Xv6Swap.Foundations.Simulation
import Xv6Swap.Raid.Layout

/-!
# The virtio disk driver

`virtio_disk_rw` and `virtio_disk_intr` of `kernel/virtio_disk.c`, for any number of processes `ι`
and of harts `κ` that take the interrupt, together with the device. The driver and the device share
the descriptors, the ring of available requests and the ring of used ones; the index of a ring is a
counter of 16 bits, and a ring has `N` (`NUM`) entries. Driver code holds `vdisk_lock`, except where
it sleeps; the device does not care for locks.

A step of a process or a hart is a stretch of code on which the device cannot tell the order of the
writes: the descriptors of a request are filled in at once, but the entry of the ring and its index
are written one after the other. The device takes requests off the ring, executes the ones that it
has taken in any order, and for each one writes an entry of the used ring, then its index, and
raises the interrupt. It finds out what to do from the descriptors alone.

A sleeping process may be woken at any time (by `kkill`). A caller holds the lock of its buffer, so
no two processes are in `virtio_disk_rw` with one buffer (`Contract`).
-/

namespace Xv6Swap.Virtio

open Raid (Byte Block bSize)
open Fifo (slot)

/-- The bytes of a sector. -/
def sectorSize : ℕ := 512

/-- `sizeof(struct virtio_blk_req)` -/
def blkReqSize : ℕ := 16

/-- What a descriptor points to. -/
inductive Addr (N : ℕ) (β : Type*)
  | null
  /-- `&disk.ops[i]` -/
  | op (i : Fin N)
  /-- `b->data` -/
  | data (b : β)
  /-- `&disk.info[i].status` -/
  | status (i : Fin N)
  deriving DecidableEq

/-- `struct virtq_desc`, with the flags `VRING_DESC_F_NEXT` and `VRING_DESC_F_WRITE`. -/
structure Desc (N : ℕ) (β : Type*) where
  addr : Addr N β
  len : ℕ
  hasNext : Bool
  write : Bool
  next : Fin N

/-- `VIRTIO_BLK_T_IN` and `VIRTIO_BLK_T_OUT` -/
inductive BlkType
  | read
  | write
  deriving DecidableEq

/-- `struct virtio_blk_req` -/
structure BlkReq where
  type : BlkType
  sector : UInt64

/-- `struct virtq_avail` and, with the `id` of its entries, `struct virtq_used` -/
structure Queue (N : ℕ) where
  ring : Fin N → Fin N
  idx : BitVec 16

/-- `disk.info[i]` -/
structure Info (β : Type*) where
  b : Option β
  status : Byte

/-- `struct buf`, as far as the driver uses it. -/
structure Buf where
  blockno : UInt32
  data : Block
  disk : Bool

/-- `idx[3]` -/
structure Chain (N : ℕ) where
  head : Fin N
  data : Fin N
  status : Fin N
  deriving DecidableEq

inductive Panic
  | freeDesc2
  | intrStatus
  /-- a null pointer is followed -/
  | null
  deriving DecidableEq

/-- Where a process is in `virtio_disk_rw(b, write)`. -/
inductive Pc (N : ℕ) (β : Type*)
  | idle
  | acquire (b : β) (write : Bool)
  | alloc (b : β) (write : Bool)
  /-- in `sleep(&disk.free[0], &disk.vdisk_lock)` -/
  | sleepFree (b : β) (write : Bool)
  | fill (b : β) (write : Bool) (c : Chain N)
  | ring (b : β) (write : Bool) (c : Chain N)
  | publish (b : β) (write : Bool) (c : Chain N)
  /-- at `while(b->disk == 1)` -/
  | check (b : β) (write : Bool) (c : Chain N)
  /-- in `sleep(b, &disk.vdisk_lock)` -/
  | sleepBuf (b : β) (write : Bool) (c : Chain N)
  | finish (b : β) (write : Bool) (c : Chain N)
  | panicked (e : Panic)
  deriving DecidableEq

/-- Where a hart is in `virtio_disk_intr`. -/
inductive IntrPc
  | idle
  | acquire
  | ack
  | loop
  | panicked (e : Panic)
  deriving DecidableEq

/-- What the device does with the request that it has executed. -/
inductive Phase (N : ℕ)
  | idle
  | post (head : Fin N)
  | bump (head : Fin N)
  | raise
  /-- the device has met a chain that it does not understand -/
  | broken
  deriving DecidableEq

/-- What a process sleeps on. -/
inductive Chan (β : Type*)
  | free
  | buf (b : β)
  deriving DecidableEq

structure State (ι κ β : Type*) (N : ℕ) where
  pc : ι → Pc N β
  intr : κ → IntrPc
  /-- the holder of `vdisk_lock` -/
  lock : Option (ι ⊕ κ)
  asleep : ι → Option (Chan β)
  desc : Fin N → Desc N β
  avail : Queue N
  used : Queue N
  free : Fin N → Bool
  /-- `disk.used_idx` -/
  usedIdx : BitVec 16
  info : Fin N → Info β
  ops : Fin N → BlkReq
  buf : β → Buf
  /-- the index of the next request that the device takes -/
  takenIdx : BitVec 16
  taken : List (Fin N)
  phase : Phase N
  /-- `VIRTIO_MMIO_INTERRUPT_STATUS` -/
  intrStatus : Bool
  /-- the bytes on the disk -/
  medium : ℕ → Byte

variable {ι κ β : Type*} {N : ℕ}

def Desc.clear [NeZero N] : Desc N β := ⟨.null, 0, false, false, 0⟩

namespace State

/-! ## Descriptors -/

/-- `wakeup(chan)`; the caller is not asleep. -/
def wakeup [DecidableEq β] (chan : Chan β) (s : State ι κ β N) : State ι κ β N :=
  { s with asleep := fun i => if s.asleep i = some chan then none else s.asleep i }

def allocDesc (s : State ι κ β N) : Option (Fin N × State ι κ β N) :=
  ((List.finRange N).find? fun i => s.free i).map fun i =>
    (i, { s with free := Function.update s.free i false })

def freeDesc [NeZero N] [DecidableEq β] (i : Fin N) (s : State ι κ β N) :
    Except Panic (State ι κ β N) :=
  if s.free i then .error .freeDesc2
  else .ok (wakeup .free
    { s with desc := Function.update s.desc i .clear, free := Function.update s.free i true })

/-- `free_chain`, in at most `fuel` rounds. After `N` rounds all descriptors are free, so that
`free_desc` panics in the next one. -/
def freeChain [NeZero N] [DecidableEq β] : ℕ → Fin N → State ι κ β N → Except Panic (State ι κ β N)
  | 0, _, _ => .error .freeDesc2
  | fuel + 1, i, s => do
    let flag := (s.desc i).hasNext
    let nxt := (s.desc i).next
    let s ← s.freeDesc i
    if flag then freeChain fuel nxt s else return s

/-- `alloc3_desc`, with `none` for `-1` -/
def alloc3Desc [NeZero N] [DecidableEq β] (s : State ι κ β N) :
    Except Panic (Option (Chain N) × State ι κ β N) :=
  match s.allocDesc with
  | none => return (none, s)
  | some (i₀, s) =>
    match s.allocDesc with
    | none => do
      let s ← s.freeDesc i₀
      return (none, s)
    | some (i₁, s) =>
      match s.allocDesc with
      | none => do
        let s ← s.freeDesc i₀
        let s ← s.freeDesc i₁
        return (none, s)
      | some (i₂, s) => return (some ⟨i₀, i₁, i₂⟩, s)

/-! ## `virtio_disk_rw` -/

/-- `uint64 sector = b->blockno * (BSIZE / 512)`, where the product has 32 bits -/
def sectorOf (blockno : UInt32) : UInt64 := (blockno * UInt32.ofNat (bSize / sectorSize)).toUInt64

/-- The request and its descriptors. -/
def fillChain [NeZero N] [DecidableEq β] (b : β) (write : Bool) (c : Chain N) (s : State ι κ β N) :
    State ι κ β N :=
  let desc := s.desc
  let desc := Function.update desc c.head ⟨.op c.head, blkReqSize, true, false, c.data⟩
  let desc := Function.update desc c.data ⟨.data b, bSize, true, !write, c.status⟩
  let desc := Function.update desc c.status ⟨.status c.head, 1, false, true, 0⟩
  { s with
    ops := Function.update s.ops c.head
      ⟨if write then .write else .read, sectorOf (s.buf b).blockno⟩
    desc := desc
    info := Function.update s.info c.head ⟨some b, 0xff⟩
    buf := Function.update s.buf b { s.buf b with disk := true } }

/-- The process `i` goes on at `pc`. -/
def goto [DecidableEq ι] (i : ι) (pc : Pc N β) (s : State ι κ β N) : State ι κ β N :=
  { s with pc := Function.update s.pc i pc }

/-- `sleep(chan, &disk.vdisk_lock)` -/
def sleepOn [DecidableEq ι] (i : ι) (chan : Chan β) (pc : Pc N β) (s : State ι κ β N) :
    State ι κ β N :=
  { s with
    lock := none
    asleep := Function.update s.asleep i (some chan)
    pc := Function.update s.pc i pc }

/-- `acquire(&disk.vdisk_lock)` by the process `i`, at the start or at the end of a `sleep`. -/
def acquire [DecidableEq ι] (i : ι) (pc : Pc N β) (s : State ι κ β N) : Option (State ι κ β N) :=
  if s.lock = none ∧ s.asleep i = none then some ({ s with lock := some (.inl i) }.goto i pc)
  else none

/-- The next step of the process `i` inside `virtio_disk_rw`, its return apart. -/
def procStep [NeZero N] [DecidableEq ι] [DecidableEq β] (i : ι) (s : State ι κ β N) :
    Option (State ι κ β N) :=
  match s.pc i with
  | .idle => none
  | .acquire b write => s.acquire i (.alloc b write)
  | .alloc b write =>
    match s.alloc3Desc with
    | .error e => some (s.goto i (.panicked e))
    | .ok (some c, s) => some (s.goto i (.fill b write c))
    | .ok (none, s) => some (s.sleepOn i .free (.sleepFree b write))
  | .sleepFree b write => s.acquire i (.alloc b write)
  | .fill b write c => some ((s.fillChain b write c).goto i (.ring b write c))
  | .ring b write c =>
    some ({ s with avail := { s.avail with
      ring := Function.update s.avail.ring (slot N s.avail.idx) c.head } }.goto i
        (.publish b write c))
  | .publish b write c =>
    some ({ s with avail := { s.avail with idx := s.avail.idx + 1 } }.goto i (.check b write c))
  | .check b write c =>
    if (s.buf b).disk then some (s.sleepOn i (.buf b) (.sleepBuf b write c))
    else some (s.goto i (.finish b write c))
  | .sleepBuf b write c => s.acquire i (.check b write c)
  | .finish _ _ _ => none
  | .panicked _ => none

/-- The end of `virtio_disk_rw`. -/
def procReturn [NeZero N] [DecidableEq ι] [DecidableEq β] (i : ι) (s : State ι κ β N) :
    Option (State ι κ β N) :=
  match s.pc i with
  | .finish _ _ c =>
    let s := { s with info := Function.update s.info c.head { s.info c.head with b := none } }
    match s.freeChain N c.head with
    | .error e => some (s.goto i (.panicked e))
    | .ok s => some ({ s with lock := none }.goto i .idle)
  | _ => none

/-! ## `virtio_disk_intr` -/

/-- The next step of the hart `h` inside `virtio_disk_intr`, or its start. -/
def intrStep [NeZero N] [DecidableEq κ] [DecidableEq β] (h : κ) (s : State ι κ β N) :
    Option (State ι κ β N) :=
  match s.intr h with
  | .idle =>
    if s.intrStatus then some { s with intr := Function.update s.intr h .acquire } else none
  | .acquire =>
    if s.lock = none then
      some { s with lock := some (.inr h), intr := Function.update s.intr h .ack }
    else none
  | .ack => some { s with intrStatus := false, intr := Function.update s.intr h .loop }
  | .loop =>
    if s.usedIdx ≠ s.used.idx then
      let id := s.used.ring (slot N s.usedIdx)
      if (s.info id).status ≠ 0 then
        some { s with intr := Function.update s.intr h (.panicked .intrStatus) }
      else
        match (s.info id).b with
        | none => some { s with intr := Function.update s.intr h (.panicked .null) }
        | some b =>
          some { wakeup (.buf b)
            { s with buf := Function.update s.buf b { s.buf b with disk := false } } with
            usedIdx := s.usedIdx + 1 }
    else some { s with lock := none, intr := Function.update s.intr h .idle }
  | .panicked _ => none

/-! ## The device -/

/-- The bytes of a block on the disk, from a sector on. -/
def readMedium (sector : UInt64) (s : State ι κ β N) : Block :=
  fun k => s.medium (sector.toNat * sectorSize + k)

def writeMedium (sector : UInt64) (data : Block) (medium : ℕ → Byte) : ℕ → Byte := fun a =>
  if h : sector.toNat * sectorSize ≤ a ∧ a - sector.toNat * sectorSize < bSize then
    data ⟨a - sector.toNat * sectorSize, h.2⟩
  else medium a

/-- The request that starts at the descriptor `head`: the request header, the buffer and the place
for the status. -/
def parseChain (head : Fin N) (s : State ι κ β N) : Option (BlkReq × β × Fin N) :=
  let d₀ := s.desc head
  let d₁ := s.desc d₀.next
  let d₂ := s.desc d₁.next
  match d₀.addr, d₁.addr, d₂.addr with
  | .op i, .data b, .status j =>
    -- the device writes only to what is marked for it
    if d₀.hasNext = true ∧ d₁.hasNext = true ∧ d₂.hasNext = false ∧ d₀.len = blkReqSize ∧
        d₁.len = bSize ∧ d₂.len = 1 ∧ d₀.write = false ∧ d₂.write = true ∧
        (d₁.write = true ↔ (s.ops i).type = .read) then
      some (s.ops i, b, j)
    else none
  | _, _, _ => none

/-- The transfer of a request, with the status `VIRTIO_BLK_S_OK`. -/
def transfer [DecidableEq β] (req : BlkReq) (b : β) (j : Fin N) (s : State ι κ β N) :
    State ι κ β N :=
  let s := { s with info := Function.update s.info j { s.info j with status := 0 } }
  match req.type with
  | .read =>
    { s with buf := Function.update s.buf b { s.buf b with data := s.readMedium req.sector } }
  | .write => { s with medium := writeMedium req.sector (s.buf b).data s.medium }

end State

/-- What the device does. -/
inductive DevAct (N : ℕ)
  | take
  | execute (head : Fin N)
  | post
  | bump
  | raise
  deriving DecidableEq

namespace State

def devStep [NeZero N] [DecidableEq β] (a : DevAct N) (s : State ι κ β N) :
    Option (State ι κ β N) :=
  match a, s.phase with
  | .take, _ =>
    if s.takenIdx ≠ s.avail.idx then
      some { s with
        taken := s.taken ++ [s.avail.ring (slot N s.takenIdx)]
        takenIdx := s.takenIdx + 1 }
    else none
  | .execute head, .idle =>
    if head ∈ s.taken then
      match s.parseChain head with
      | none => some { s with phase := .broken }
      | some (req, b, j) =>
        some { s.transfer req b j with taken := s.taken.erase head, phase := .post head }
    else none
  | .post, .post head =>
    some { s with
      used := { s.used with ring := Function.update s.used.ring (slot N s.used.idx) head }
      phase := .bump head }
  | .bump, .bump _ => some { s with used := { s.used with idx := s.used.idx + 1 }, phase := .raise }
  | .raise, .raise => some { s with intrStatus := true, phase := .idle }
  | _, _ => none

end State

/-! ## Runs -/

/-- A call of `virtio_disk_rw`, a step inside it, its return; a change of a buffer that is not in
use; a process woken for another reason; a step of an interrupt handler or of the device. -/
inductive Act (ι κ β : Type*) (N : ℕ)
  | call (i : ι) (b : β) (write : Bool)
  | proc (i : ι)
  | ret (i : ι)
  | modify (b : β) (blockno : UInt32) (data : Block)
  | kill (i : ι)
  | intr (h : κ)
  | dev (a : DevAct N)

/-- The buffer that a process has passed to `virtio_disk_rw`. -/
def Pc.buf : Pc N β → Option β
  | .idle | .panicked _ => none
  | .acquire b _ | .alloc b _ | .sleepFree b _ => some b
  | .fill b _ _ | .ring b _ _ | .publish b _ _ | .check b _ _ | .sleepBuf b _ _ | .finish b _ _ =>
    some b

namespace State

section Step

variable [NeZero N] [DecidableEq ι] [DecidableEq κ] [DecidableEq β]

def step (s : State ι κ β N) : Act ι κ β N → Option (State ι κ β N)
  | .call i b write =>
    match s.pc i with
    | .idle => some (s.goto i (.acquire b write))
    | _ => none
  | .proc i => s.procStep i
  | .ret i => s.procReturn i
  | .modify b blockno data =>
    some { s with buf := Function.update s.buf b { s.buf b with blockno := blockno, data := data } }
  | .kill i => some { s with asleep := Function.update s.asleep i none }
  | .intr h => s.intrStep h
  | .dev a => s.devStep a

end Step

/-- Who calls `virtio_disk_rw` holds the lock of the buffer, and so does who changes it. -/
def Contract (s : State ι κ β N) : Act ι κ β N → Prop
  | .call _ b _ => ∀ j, (s.pc j).buf ≠ some b
  | .modify b _ _ => ∀ j, (s.pc j).buf ≠ some b
  | _ => True

instance decidableContract [Fintype ι] [DecidableEq β] (s : State ι κ β N) (a : Act ι κ β N) :
    Decidable (s.Contract a) :=
  match a with
  | .call _ b _ => inferInstanceAs (Decidable (∀ j, (s.pc j).buf ≠ some b))
  | .modify b _ _ => inferInstanceAs (Decidable (∀ j, (s.pc j).buf ≠ some b))
  | .proc _ | .ret _ | .kill _ | .intr _ | .dev _ => inferInstanceAs (Decidable True)

/-- A step that keeps to the contract. -/
def Step [NeZero N] [DecidableEq ι] [DecidableEq κ] [DecidableEq β] (s : State ι κ β N)
    (a : Act ι κ β N) (s' : State ι κ β N) : Prop :=
  s.Contract a ∧ s.step a = some s'

/-- A step, as far as the contract allows it. -/
def next [NeZero N] [Fintype ι] [DecidableEq ι] [DecidableEq κ] [DecidableEq β] (s : State ι κ β N)
    (a : Act ι κ β N) : Option (State ι κ β N) :=
  if s.Contract a then s.step a else none

theorem step_of_next [NeZero N] [Fintype ι] [DecidableEq ι] [DecidableEq κ] [DecidableEq β]
    {s s' : State ι κ β N} {a : Act ι κ β N} (h : s.next a = some s') : s.Step a s' := by
  rw [next] at h
  split_ifs at h with hcontract
  exact ⟨hcontract, h⟩

/-- After `virtio_disk_init`: nothing is requested, and no process is in the driver. -/
structure Started (s : State ι κ β N) : Prop where
  pc : ∀ i, s.pc i = .idle
  intr : ∀ h, s.intr h = .idle
  lock : s.lock = none
  asleep : ∀ i, s.asleep i = none
  free : ∀ d, s.free d = true
  avail : s.avail.idx = 0
  used : s.used.idx = 0
  usedIdx : s.usedIdx = 0
  takenIdx : s.takenIdx = 0
  taken : s.taken = []
  phase : s.phase = .idle

/-- What `virtio_disk_init` leaves, with the pages of the queue and `disk` zeroed. -/
def virtioDiskInit [NeZero N] (buf : β → Buf) (medium : ℕ → Byte) : State ι κ β N where
  pc := fun _ => .idle
  intr := fun _ => .idle
  lock := none
  asleep := fun _ => none
  desc := fun _ => .clear
  avail := ⟨fun _ => 0, 0⟩
  used := ⟨fun _ => 0, 0⟩
  free := fun _ => true
  usedIdx := 0
  info := fun _ => ⟨none, 0⟩
  ops := fun _ => ⟨.read, 0⟩
  buf := buf
  takenIdx := 0
  taken := []
  phase := .idle
  intrStatus := false
  medium := medium

theorem started_virtioDiskInit [NeZero N] (buf : β → Buf) (medium : ℕ → Byte) :
    (virtioDiskInit buf medium : State ι κ β N).Started where
  pc _ := rfl
  intr _ := rfl
  lock := rfl
  asleep _ := rfl
  free _ := rfl
  avail := rfl
  used := rfl
  usedIdx := rfl
  takenIdx := rfl
  taken := rfl
  phase := rfl

end State

end Xv6Swap.Virtio
