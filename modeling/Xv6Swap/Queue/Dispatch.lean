import Xv6Swap.Foundations.Interleave
import Xv6Swap.Queue.Requests

/-!
# Submitting and dispatching disk requests

`submit_disk_request` and `run_disk_dispatcher` of `kernel/bio.c`, for any number of processes.
An atomic step is a section under `disk_queue.lock`, the computation of the latency between two of
them, or one call of `virtio_disk_rw`. A sleeping process may be woken at any time, and the policy
may change at any time.

The log records what happened to the entries of the pool. From it are read off the requests that
are submitted and not yet dispatched (`pending`), and the life of each entry (`life`): submitted by
a process, passed to `virtio_disk_rw` with the buffer and the direction of that submission, returned
to the submitter, in this order and over again.
-/

namespace Xv6Swap.Queue

open Pool Interleave

/-- Where a process is in `submit_disk_request`. `own` is its request, `r` the one it serves. -/
inductive Pc
  | idle
  /-- at the top of the dispatcher's loop, or about to enter it -/
  | dequeue (own : ReqIdx)
  /-- before the latency is computed, outside the lock -/
  | seek (own r : ReqIdx)
  | account (own r : ReqIdx) (latency : Int32)
  | transfer (own r : ReqIdx)
  | complete (own r : ReqIdx)
  /-- `run_disk_dispatcher` has returned -/
  | returned (own : ReqIdx)
  /-- in `sleep(req, &disk_queue.lock)` -/
  | sleeping (own : ReqIdx)
  /-- in `panic("submit_disk_request: request pool exhausted")` -/
  | panicked

/-- What happens to pool entries. -/
inductive Event (β ι : Type*)
  | submitted (i : ι) (r : ReqIdx) (b : β) (type : Int32)
  | dispatched (r : ReqIdx)
  | diskRw (r : ReqIdx) (b : Option β) (write : Bool)
  | returned (i : ι) (r : ReqIdx)

/-- The queue and the log. -/
structure DiskState (β ι : Type*) where
  q : DiskQueue β ι
  log : List (Event β ι)

/-- What a process may do: call `submit_disk_request`, go on (the dequeue reads the levels the
processes have at that time), or have the policy set. -/
inductive Action (β ι : Type*)
  | submit (b : β) (blockno : UInt32) (type : Int32)
  | run (level : ι → Int32)
  | setDiskPolicy (policy : Int32)

variable {β ι : Type*}

/-- `while(req->completed == 0) sleep(req, &disk_queue.lock); free_req(req)`, up to the next
sleep. -/
def awaitRequest (i : ι) (own : ReqIdx) (d : DiskState β ι) : Pc × DiskState β ι :=
  if (d.q.pool own).completed then (.idle, ⟨d.q.freeReq own, d.log ++ [.returned i own]⟩)
  else (.sleeping own, d)

/-- The request is filled in and enqueued. -/
def fillRequest (i : ι) (b : β) (blockno : UInt32) (type : Int32) (req : ReqIdx)
    (q : DiskQueue β ι) : DiskQueue β ι :=
  (q.modify req fun e =>
    { e with b := some b, blockno := blockno.toInt32, type := type, proc := some i }
    ).enqueueDiskRequestLocked req

/-- `submit_disk_request` up to the release of the lock. -/
def submitDiskRequest (i : ι) (b : β) (blockno : UInt32) (type : Int32) (d : DiskState β ι) :
    Pc × DiskState β ι :=
  match d.q.allocReq with
  | none => (.panicked, d)
  | some (req, q) =>
    let d : DiskState β ι :=
      ⟨fillRequest i b blockno type req q, d.log ++ [.submitted i req b type]⟩
    if d.q.busy = false then (.dequeue req, { d with q := { d.q with busy := true } })
    else awaitRequest i req d

/-- The section that books the request. -/
def accountRequest (r : ReqIdx) (latency : Int32) (q : DiskQueue β ι) : DiskQueue β ι :=
  { q with
    diskHead := (q.pool r).blockno
    totalLatency := q.totalLatency + latency.toInt64.toUInt64
    reqCount := q.reqCount + 1
    reads := if (q.pool r).type = diskReqRead then q.reads + 1 else q.reads
    writes := if (q.pool r).type = diskReqRead then q.writes else q.writes + 1 }

/-- The next step of a process inside `submit_disk_request`. -/
def runStep (i : ι) (level : ι → Int32) (d : DiskState β ι) : Pc → Option (Pc × DiskState β ι)
  | .idle => none
  | .dequeue own =>
    match d.q.dequeueDiskRequestLocked level with
    | (none, q) => some (.returned own, { d with q := { q with busy := false } })
    | (some r, q) => some (.seek own r, ⟨q, d.log ++ [.dispatched r]⟩)
  | .seek own r =>
    some (.account own r (DiskQueue.distance (d.q.pool r).blockno d.q.diskHead + diskLatencyC), d)
  | .account own r latency => some (.transfer own r, { d with q := accountRequest r latency d.q })
  | .transfer own r =>
    some (.complete own r,
      { d with log := d.log ++ [.diskRw r (d.q.pool r).b ((d.q.pool r).type == diskReqWrite)] })
  | .complete own r =>
    some (.dequeue own, { d with q := d.q.modify r fun e => { e with completed := true } })
  | .returned own => some (awaitRequest i own d)
  | .sleeping own => some (awaitRequest i own d)
  | .panicked => none

/-- The processes `ι` using the queue. -/
def diskSystem (β ι : Type*) : System ι (Action β ι) Pc (DiskState β ι) where
  next i a pc d :=
    match a, pc with
    | .setDiskPolicy policy, pc => some (pc, { d with q := { d.q with policy := policy } })
    | .submit b blockno type, .idle => some (submitDiskRequest i b blockno type d)
    | .run level, pc => runStep i level d pc
    | _, _ => none

/-- Nobody has submitted anything. -/
def diskStart (β ι : Type*) : Cfg ι Pc (DiskState β ι) := ⟨fun _ => .idle, ⟨binit β ι, []⟩⟩

/-! ## Reading the log -/

/-- The requests submitted and not yet dispatched, in the order of submission. -/
def pending (log : List (Event β ι)) : List ReqIdx :=
  log.foldl (fun l e =>
    match e with
    | .submitted _ r _ _ => l ++ [r]
    | .dispatched r => l.erase r
    | _ => l) []

/-- The life of an entry: free, submitted but not passed to the disk, or passed to the disk. -/
inductive Life (β ι : Type*)
  | free
  | pending (i : ι) (b : β) (type : Int32)
  | served (i : ι)

/-- The entry an event is about, as far as its life is concerned. -/
def Event.entry : Event β ι → Option ReqIdx
  | .submitted _ r _ _ => some r
  | .dispatched _ => none
  | .diskRw r _ _ => some r
  | .returned _ r => some r

/-- An entry is submitted when free, passed to the disk once with the buffer and direction of its
submission, and then returned to its submitter. Anything else is an error. -/
def Life.next [DecidableEq β] [DecidableEq ι] : Life β ι → Event β ι → Option (Life β ι)
  | .free, .submitted i _ b type => some (.pending i b type)
  | .pending i b type, .diskRw _ b' write =>
    if b' = some b ∧ write = (type == diskReqWrite) then some (.served i) else none
  | .served i, .returned j _ => if j = i then some .free else none
  | _, _ => none

/-- The life of entry `r` after the log, `none` after an error. -/
def life [DecidableEq β] [DecidableEq ι] (log : List (Event β ι)) (r : ReqIdx) :
    Option (Life β ι) :=
  log.foldl (fun s e => if e.entry = some r then s.bind (·.next e) else s) (some .free)

theorem pending_append_submitted (log : List (Event β ι)) (i : ι) (r : ReqIdx) (b : β)
    (type : Int32) : pending (log ++ [.submitted i r b type]) = pending log ++ [r] := by
  simp [pending]

theorem pending_append_dispatched (log : List (Event β ι)) (r : ReqIdx) :
    pending (log ++ [.dispatched r]) = (pending log).erase r := by
  simp [pending]

theorem pending_append_diskRw (log : List (Event β ι)) (r : ReqIdx) (b : Option β) (w : Bool) :
    pending (log ++ [.diskRw r b w]) = pending log := by
  simp [pending]

theorem pending_append_returned (log : List (Event β ι)) (i : ι) (r : ReqIdx) :
    pending (log ++ [.returned i r]) = pending log := by
  simp [pending]

/-- The queue after a request has been allocated, filled in and enqueued. -/
theorem fillRequest_spec (i : ι) (b : β) (blockno : UInt32) (type : Int32) {q₀ q : DiskQueue β ι}
    {r : ReqIdx} {l : List ReqIdx}
    (hq : q = (q₀.modify r fun e => { e with used := true, completed := false }).setNext r none)
    (hl : Linked q₀.next q₀.head l) (hr : r ∉ l) :
    ∃ e, (fillRequest i b blockno type r q).pool = Function.update q₀.pool r e ∧ e.used = true ∧
      e.completed = false ∧ e.b = some b ∧ e.type = type ∧
      (fillRequest i b blockno type r q).busy = q₀.busy ∧
      Linked (fillRequest i b blockno type r q).next (fillRequest i b blockno type r q).head
        (l ++ [r]) := by
  subst hq
  have hlinked := DiskQueue.linked_enqueueDiskRequestLocked
    (q := ((q₀.modify r fun e => { e with used := true, completed := false }).setNext r
      none).modify r fun e =>
        { e with b := some b, blockno := blockno.toInt32, type := type, proc := some i })
    (hl.congr fun a ha => Function.update_of_ne (fun e : a = r => hr (e ▸ ha)) _ _) hr
  obtain ⟨next, head, henq⟩ := DiskQueue.enqueueDiskRequestLocked_eq
    (((q₀.modify r fun e => { e with used := true, completed := false }).setNext r none).modify r
      fun e => { e with b := some b, blockno := blockno.toInt32, type := type, proc := some i }) r
  unfold fillRequest
  rw [henq] at hlinked ⊢
  refine ⟨⟨some b, blockno.toInt32, type, some i, true, false⟩, ?_, rfl, rfl, rfl, rfl, rfl,
    hlinked⟩
  simp [DiskQueue.modify, DiskQueue.setNext]

end Xv6Swap.Queue
