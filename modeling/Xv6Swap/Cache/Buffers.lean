import Xv6Swap.Foundations.Ring
import Xv6Swap.Queue.Dispatch

/-!
# The buffer cache

`binit`, `bget`, `bread`, `bwrite` and `brelse` of `kernel/bio.c`. The buffers are linked in a ring
around `bcache.head`, the buffer released last in front. A disk transfer goes through the request
queue: `submitDiskRequest` runs the code of `Queue.submitDiskRequest` and the dispatcher to the end,
and `virtio_disk_rw` moves the data of the buffer that the dispatched request names.

Clients take turns: a call runs to its end, except that `bread` may wait for the sleep lock of a
buffer that another client holds, so that it is two steps, `bget` and the rest. The log records what
the calls did; `lastWrite` and `lastRelse` read it.
-/

namespace Xv6Swap.Cache

open Pool Interleave
open Queue (DiskState diskReqRead diskReqWrite)

/-- `NBUF` -/
def nbuf : ℕ := 30

/-- A buffer, by its index in `bcache.buf`. -/
abbrev BufIdx := Fin nbuf

/-- `struct buf` without its links, for clients `ι` and contents `δ`. `holder` is the client that
holds the sleep lock. -/
structure Buf (ι δ : Type*) where
  valid : Bool
  dev : UInt32
  blockno : UInt32
  holder : Option ι
  refcnt : ℕ
  data : δ

/-- `bcache`, with the links of the buffers and of `bcache.head`. -/
structure Bcache (ι δ : Type*) where
  buf : BufIdx → Buf ι δ
  links : Links BufIdx

variable {ι δ : Type*}

namespace Bcache

/-- Change the fields of one buffer. -/
def modify (b : BufIdx) (f : Buf ι δ → Buf ι δ) (c : Bcache ι δ) : Bcache ι δ :=
  { c with buf := Function.update c.buf b (f (c.buf b)) }

/-- The state `binit` leaves, with the static contents `data`. -/
def binit (data : δ) : Bcache ι δ where
  buf := fun _ => ⟨false, 0, 0, none, 0, data⟩
  links := (List.finRange nbuf).foldl (fun L b => L.pushFront b) .empty

/-- The buffer of a block, in the order of the list. -/
def lookup (dev blockno : UInt32) (c : Bcache ι δ) : Option BufIdx :=
  search c.links.next (fun b => (c.buf b).dev == dev && (c.buf b).blockno == blockno) nbuf
    (c.links.next none)

/-- The first buffer nobody refers to, from the end of the list. -/
def unused (c : Bcache ι δ) : Option BufIdx :=
  search c.links.prev (fun b => (c.buf b).refcnt == 0) nbuf (c.links.prev none)

/-- `bget`, up to where it waits for the lock of the buffer. Without a buffer it panics. -/
def bget (dev blockno : UInt32) (c : Bcache ι δ) : Option (BufIdx × Bcache ι δ) :=
  match c.lookup dev blockno with
  | some b => some (b, c.modify b fun e => { e with refcnt := e.refcnt + 1 })
  | none =>
    match c.unused with
    | some b => some (b, c.modify b fun e =>
        { e with dev := dev, blockno := blockno, valid := false, refcnt := 1 })
    | none => none

/-- `brelse`, once the client is known to hold the lock. -/
def brelse (b : BufIdx) (c : Bcache ι δ) : Bcache ι δ :=
  let c := c.modify b fun e => { e with holder := none }
  let c := c.modify b fun e => { e with refcnt := e.refcnt - 1 }
  if (c.buf b).refcnt = 0 then { c with links := (c.links.unlink b).pushFront b } else c

end Bcache

/-! ## Disk transfers -/

/-- The buffers, the request queue and the disk. -/
structure Disk (ι δ : Type*) where
  cache : Bcache ι δ
  queue : DiskState BufIdx ι
  block : UInt32 → δ

namespace Disk

/-- `virtio_disk_rw` -/
def virtioDiskRw (b : BufIdx) (write : Bool) (d : Disk ι δ) : Disk ι δ :=
  let e := d.cache.buf b
  if write then { d with block := Function.update d.block e.blockno e.data }
  else { d with cache := d.cache.modify b fun e => { e with data := d.block e.blockno } }

/-- A step of `submit_disk_request`. The dispatcher transfers the data of the buffer of its
request. -/
def runStep (i : ι) (level : ι → Int32) (pc : Queue.Pc) (d : Disk ι δ) :
    Option (Queue.Pc × Disk ι δ) :=
  (Queue.runStep i level d.queue pc).map fun r =>
    let d' := { d with queue := r.2 }
    match pc with
    | .transfer _ req =>
      (r.1, match (d.queue.q.pool req).b with
        | some b => d'.virtioDiskRw b ((d.queue.q.pool req).type == diskReqWrite)
        | none => d')
    | _ => (r.1, d')

/-- The steps up to the return of `submit_disk_request`, at most `fuel`. -/
def runToEnd (i : ι) (level : ι → Int32) : ℕ → Queue.Pc → Disk ι δ → Option (Disk ι δ)
  | _, .idle, d => some d
  | 0, _, _ => none
  | fuel + 1, pc, d => (d.runStep i level pc).bind fun r => r.2.runToEnd i level fuel r.1

/-- `submit_disk_request(b, type)` by the client `i`, when nobody else uses the queue. -/
def submitDiskRequest (i : ι) (level : ι → Int32) (b : BufIdx) (type : Int32) (d : Disk ι δ) :
    Option (Disk ι δ) :=
  let (pc, queue) := Queue.submitDiskRequest i b (d.cache.buf b).blockno type d.queue
  { d with queue := queue }.runToEnd i level 7 pc

end Disk

/-! ## Clients -/

/-- What the calls did. -/
inductive Event (δ : Type*)
  /-- `bread` returned a buffer with `data` for the block -/
  | bread (blockno : UInt32) (data : δ)
  | bwrite (blockno : UInt32) (data : δ)
  | brelse (b : BufIdx)
  deriving DecidableEq

/-- The contents of the blocks that were `block` at first: what `bwrite` last wrote. -/
def lastWrite (block : UInt32 → δ) (log : List (Event δ)) : UInt32 → δ :=
  log.foldl (fun m e =>
    match e with
    | .bwrite blockno data => Function.update m blockno data
    | _ => m) block

def Event.releases (b : BufIdx) : Event δ → Bool
  | .brelse b' => b' == b
  | _ => false

/-- When the buffer was last released: the number of events up to then, 0 if it never was. -/
def lastRelse (log : List (Event δ)) (b : BufIdx) : ℕ :=
  log.length - log.reverse.findIdx fun e => e.releases b

/-- Where a client is. `blockno` is the block it asked for, and `dirty` tells whether it has
modified the data since its `bread` or last `bwrite`. -/
inductive Client
  | idle
  /-- in `bread`, waiting for the lock of the buffer that `bget` found -/
  | waiting (b : BufIdx) (blockno : UInt32)
  | holding (b : BufIdx) (blockno : UInt32) (dirty : Bool)
  /-- a call has panicked or does not come back -/
  | stuck
  deriving DecidableEq

/-- The calls of a client. The levels of the processes are read when a request is dequeued. -/
inductive Action (ι δ : Type*)
  /-- `bread(dev, blockno)`, up to the lock of the buffer -/
  | bget (blockno : UInt32)
  /-- the rest of `bread` -/
  | await (level : ι → Int32)
  | modify (data : δ)
  | bwrite (level : ι → Int32)
  | brelse
  | setDiskPolicy (policy : Int32)

structure State (ι δ : Type*) where
  disk : Disk ι δ
  log : List (Event δ)

namespace State

/-- The rest of `bread` with the lock of `b` acquired. -/
def bread (i : ι) (level : ι → Int32) (b : BufIdx) (blockno : UInt32) (s : State ι δ) :
    Client × State ι δ :=
  let cache := s.disk.cache.modify b fun e => { e with holder := some i }
  let disk : Disk ι δ := { s.disk with cache := cache }
  if (cache.buf b).valid then
    (.holding b blockno false, ⟨disk, s.log ++ [.bread blockno (cache.buf b).data]⟩)
  else
    match disk.submitDiskRequest i level b diskReqRead with
    | none => (.stuck, s)
    | some disk =>
      let cache := disk.cache.modify b fun e => { e with valid := true }
      (.holding b blockno false,
        ⟨{ disk with cache := cache }, s.log ++ [.bread blockno (cache.buf b).data]⟩)

variable [DecidableEq ι]

def bwrite (i : ι) (level : ι → Int32) (b : BufIdx) (blockno : UInt32) (s : State ι δ) :
    Client × State ι δ :=
  let e := s.disk.cache.buf b
  -- `if(!holdingsleep(&b->lock)) panic("bwrite")`
  if e.holder ≠ some i then (.stuck, s)
  else
    match s.disk.submitDiskRequest i level b diskReqWrite with
    | none => (.stuck, s)
    | some disk => (.holding b blockno false, ⟨disk, s.log ++ [.bwrite e.blockno e.data]⟩)

def brelse (i : ι) (b : BufIdx) (s : State ι δ) : Client × State ι δ :=
  if (s.disk.cache.buf b).holder ≠ some i then (.stuck, s)
  else (.idle, ⟨{ s.disk with cache := s.disk.cache.brelse b }, s.log ++ [.brelse b]⟩)

/-- A step of the client `i`, on the device `dev`. -/
def next (dev : UInt32) (i : ι) (s : State ι δ) : Client → Action ι δ → Option (Client × State ι δ)
  | l, .setDiskPolicy policy =>
    let q := { s.disk.queue.q with policy := policy }
    some (l, { s with disk := { s.disk with queue := { s.disk.queue with q := q } } })
  | .idle, .bget blockno =>
    match s.disk.cache.bget dev blockno with
    | none => some (.stuck, s)
    | some (b, cache) =>
      some (.waiting b blockno, { s with disk := { s.disk with cache := cache } })
  | .waiting b blockno, .await level =>
    if (s.disk.cache.buf b).holder.isNone then some (s.bread i level b blockno) else none
  | .holding b blockno _, .modify data =>
    let cache := s.disk.cache.modify b fun e => { e with data := data }
    some (.holding b blockno true, { s with disk := { s.disk with cache := cache } })
  | .holding b blockno _, .bwrite level => some (s.bwrite i level b blockno)
  | .holding b _ _, .brelse => some (s.brelse i b)
  | _, _ => none

end State

/-- The clients `ι` of the device `dev`. -/
def cacheSystem [DecidableEq ι] (dev : UInt32) : System ι (Action ι δ) Client (State ι δ) where
  next i a l s := s.next dev i l a

/-- After `binit`, on a disk with the contents `block`. -/
def cacheStart (data : δ) (block : UInt32 → δ) : Cfg ι Client (State ι δ) :=
  ⟨fun _ => .idle, ⟨.binit data, ⟨Queue.binit BufIdx ι, []⟩, block⟩, []⟩

/-- How many buffers are referenced. -/
def Bcache.referenced (c : Bcache ι δ) : ℕ :=
  (Finset.univ.filter fun b => (c.buf b).refcnt ≠ 0).card

/-- What the clients keep to: `bread` only with a buffer left, and modified data is written before
the buffer is released. -/
def Contract (c : Cfg ι Client (State ι δ)) (i : ι) : Action ι δ → Prop
  | .bget _ => c.mem.disk.cache.referenced < nbuf
  | .brelse => ∀ b blockno, c.loc i ≠ .holding b blockno true
  | _ => True

def Client.isDirty : Client → Bool
  | .holding _ _ dirty => dirty
  | _ => false

theorem Client.isDirty_eq_false {l : Client} :
    l.isDirty = false ↔ ∀ b blockno, l ≠ .holding b blockno true := by
  cases l with
  | holding b n dirty => cases dirty <;> simp [Client.isDirty]
  | _ => simp [Client.isDirty]

instance (c : Cfg ι Client (State ι δ)) (i : ι) (a : Action ι δ) : Decidable (Contract c i a) :=
  match a with
  | .bget _ => inferInstanceAs (Decidable (_ < _))
  | .brelse => decidable_of_iff ((c.loc i).isDirty = false) Client.isDirty_eq_false
  | .await _ | .modify _ | .bwrite _ | .setDiskPolicy _ => inferInstanceAs (Decidable True)

end Xv6Swap.Cache
