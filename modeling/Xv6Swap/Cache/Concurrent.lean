import Xv6Swap.Cache.Buffers
import Xv6Swap.Queue.Pool

/-!
# `bread` and `bwrite` by many processes

The buffer cache with the processes interleaved. An atomic step is a section under `bcache.lock`, an
operation on the sleep lock of a buffer, or a step of `submit_disk_request` as in `Queue.Dispatch`;
`virtio_disk_rw` moves the data of the buffer that the dispatched request names. A process calls
`bread`, `bwrite` and `brelse` in any order and for any blocks and buffers, and may hold several
buffers.

What a run does to the request queue is a run of the processes that use the queue
(`ioSystem_queue`), so that what holds of the queue under any use holds here; `ioPool_suffices` is
that the request pool does not run out.
-/

namespace Xv6Swap.Cache

open Interleave
open Queue (diskReqRead diskReqWrite diskSystem)

variable {ι δ : Type*}

/-- `releasesleep`, the first part of `brelse`. -/
def Bcache.releasesleep (b : BufIdx) (c : Bcache ι δ) : Bcache ι δ :=
  c.modify b fun e => { e with holder := none }

/-- The section under `bcache.lock`, the second part of `brelse`. -/
def Bcache.unref (b : BufIdx) (c : Bcache ι δ) : Bcache ι δ :=
  let c := c.modify b fun e => { e with refcnt := e.refcnt - 1 }
  if (c.buf b).refcnt = 0 then { c with links := (c.links.unlink b).pushFront b } else c

/-- Where a process is. -/
inductive Io
  /-- between two calls -/
  | ready
  /-- in `bget`, at `acquiresleep` -/
  | locking (b : BufIdx)
  /-- in `bread`, before `if(!b->valid)` -/
  | checking (b : BufIdx)
  /-- about to call `submit_disk_request` -/
  | calling (b : BufIdx) (type : Int32)
  /-- in `submit_disk_request`, which has returned if `pc` is `idle` -/
  | inside (b : BufIdx) (type : Int32) (pc : Queue.Pc)
  /-- in `brelse`, before it takes `bcache.lock` -/
  | releasing (b : BufIdx)
  /-- in the panic of `bget`, `bwrite` or `brelse` -/
  | panicked

/-- The call a process makes, or that it goes on. The levels of the processes are read when a
request is dequeued. -/
inductive IoAction (ι δ : Type*)
  | bread (dev blockno : UInt32)
  | modify (b : BufIdx) (data : δ)
  | bwrite (b : BufIdx)
  | brelse (b : BufIdx)
  | run (level : ι → Int32)
  | setDiskPolicy (policy : Int32)

namespace Disk

/-- The process goes on. -/
def ioRun [DecidableEq ι] (i : ι) (level : ι → Int32) (d : Disk ι δ) : Io → Option (Io × Disk ι δ)
  | .locking b =>
    if (d.cache.buf b).holder.isNone then
      some (.checking b, { d with cache := d.cache.modify b fun e => { e with holder := some i } })
    else none
  | .checking b => some (if (d.cache.buf b).valid then .ready else .calling b diskReqRead, d)
  | .calling b type =>
    let r := Queue.submitDiskRequest i b (d.cache.buf b).blockno type d.queue
    some (.inside b type r.1, { d with queue := r.2 })
  | .inside b type .idle =>
    some (.ready,
      if type = diskReqRead then
        { d with cache := d.cache.modify b fun e => { e with valid := true } }
      else d)
  | .inside b type pc => (d.runStep i level pc).map fun r => (.inside b type r.1, r.2)
  | .releasing b => some (.ready, { d with cache := d.cache.unref b })
  | .ready => none
  | .panicked => none

/-- A step of the process `i`. -/
def ioNext [DecidableEq ι] (i : ι) (d : Disk ι δ) : IoAction ι δ → Io → Option (Io × Disk ι δ)
  | .setDiskPolicy policy, l =>
    some (l, { d with queue := { d.queue with q := { d.queue.q with policy := policy } } })
  | .run level, l => d.ioRun i level l
  | .bread dev blockno, .ready =>
    match d.cache.bget dev blockno with
    | none => some (.panicked, d)
    | some (b, cache) => some (.locking b, { d with cache := cache })
  | .modify b data, .ready =>
    if (d.cache.buf b).holder = some i then
      some (.ready, { d with cache := d.cache.modify b fun e => { e with data := data } })
    else none
  | .bwrite b, .ready =>
    some (if (d.cache.buf b).holder = some i then .calling b diskReqWrite else .panicked, d)
  | .brelse b, .ready =>
    if (d.cache.buf b).holder = some i then
      some (.releasing b, { d with cache := d.cache.releasesleep b })
    else some (.panicked, d)
  | _, _ => none

end Disk

/-- The processes `ι` on the buffer cache. -/
def ioSystem (ι δ : Type*) [DecidableEq ι] : System ι (IoAction ι δ) Io (Disk ι δ) where
  next i a l d := d.ioNext i a l

/-- After `binit`, on a disk with the contents `block`. -/
def ioStart (data : δ) (block : UInt32 → δ) : Cfg ι Io (Disk ι δ) :=
  ⟨fun _ => .ready, ⟨.binit data, ⟨Queue.binit BufIdx ι, []⟩, block⟩⟩

/-! ## The queue -/

/-- Where the process is in `submit_disk_request`. -/
def Io.queuePc : Io → Queue.Pc
  | .inside _ _ pc => pc
  | _ => .idle

/-- The transfer does not touch the queue. -/
theorem Disk.runStep_queue {i : ι} {level : ι → Int32} {pc pc' : Queue.Pc} {d d' : Disk ι δ}
    (h : d.runStep i level pc = some (pc', d')) :
    Queue.runStep i level d.queue pc = some (pc', d'.queue) := by
  obtain ⟨⟨pc₁, queue⟩, hr, heq⟩ := Option.map_eq_some_iff.1 h
  rw [hr]
  have hrw : ∀ (b : BufIdx) (write : Bool) (d : Disk ι δ),
      (d.virtioDiskRw b write).queue = d.queue := by
    intro b write d
    cases write <;> rfl
  cases pc with
  | transfer own req =>
    obtain ⟨rfl, rfl⟩ := Prod.mk.inj heq
    dsimp only
    split
    · rw [hrw]
    · rfl
  | _ =>
    obtain ⟨rfl, rfl⟩ := Prod.mk.inj heq
    rfl

variable [DecidableEq ι]

/-- A step is one of the queue, or leaves the queue alone. -/
theorem ioSystem_queue (i : ι) (a : IoAction ι δ) (l : Io) (d : Disk ι δ) (l' : Io)
    (d' : Disk ι δ) (h : (ioSystem ι δ).next i a l d = some (l', d')) :
    l'.queuePc = l.queuePc ∧ d'.queue = d.queue ∨
      ∃ b, (diskSystem BufIdx ι).next i b l.queuePc d.queue = some (l'.queuePc, d'.queue) := by
  cases a with
  | setDiskPolicy policy =>
    obtain ⟨rfl, rfl⟩ := Prod.mk.inj (Option.some.inj h)
    exact .inr ⟨.setDiskPolicy policy, rfl⟩
  | run level =>
    cases l with
    | ready => cases h
    | panicked => cases h
    | locking b =>
      simp only [ioSystem, Disk.ioNext, Disk.ioRun] at h
      split at h
      · obtain ⟨rfl, rfl⟩ := Prod.mk.inj (Option.some.inj h)
        exact .inl ⟨rfl, rfl⟩
      · cases h
    | checking b =>
      obtain ⟨rfl, rfl⟩ := Prod.mk.inj (Option.some.inj h)
      refine .inl ⟨?_, rfl⟩
      split
      · rfl
      · rfl
    | calling b type =>
      obtain ⟨rfl, rfl⟩ := Prod.mk.inj (Option.some.inj h)
      exact .inr ⟨.submit b (d.cache.buf b).blockno type, rfl⟩
    | releasing b =>
      obtain ⟨rfl, rfl⟩ := Prod.mk.inj (Option.some.inj h)
      exact .inl ⟨rfl, rfl⟩
    | inside b type pc =>
      by_cases hpc : pc = .idle
      · subst hpc
        obtain ⟨rfl, rfl⟩ := Prod.mk.inj (Option.some.inj h)
        refine .inl ⟨rfl, ?_⟩
        split
        · rfl
        · rfl
      · -- a step of the queue, with the transfer of the data
        have hstep : (d.runStep i level pc).map (fun r => (Io.inside b type r.1, r.2)) =
            some (l', d') := by
          cases pc with
          | idle => exact absurd rfl hpc
          | _ => exact h
        obtain ⟨⟨pc', d₁⟩, hr, heq⟩ := Option.map_eq_some_iff.1 hstep
        obtain ⟨rfl, rfl⟩ := Prod.mk.inj heq
        exact .inr ⟨.run level, Disk.runStep_queue hr⟩
  | bread dev blockno =>
    cases l with
    | ready =>
      simp only [ioSystem, Disk.ioNext] at h
      split at h
      · obtain ⟨rfl, rfl⟩ := Prod.mk.inj (Option.some.inj h)
        exact .inl ⟨rfl, rfl⟩
      · obtain ⟨rfl, rfl⟩ := Prod.mk.inj (Option.some.inj h)
        exact .inl ⟨rfl, rfl⟩
    | _ => cases h
  | modify b data =>
    cases l with
    | ready =>
      simp only [ioSystem, Disk.ioNext] at h
      split at h
      · obtain ⟨rfl, rfl⟩ := Prod.mk.inj (Option.some.inj h)
        exact .inl ⟨rfl, rfl⟩
      · cases h
    | _ => cases h
  | bwrite b =>
    cases l with
    | ready =>
      obtain ⟨rfl, rfl⟩ := Prod.mk.inj (Option.some.inj h)
      refine .inl ⟨?_, rfl⟩
      split
      · rfl
      · rfl
    | _ => cases h
  | brelse b =>
    cases l with
    | ready =>
      simp only [ioSystem, Disk.ioNext] at h
      split at h
      · obtain ⟨rfl, rfl⟩ := Prod.mk.inj (Option.some.inj h)
        exact .inl ⟨rfl, rfl⟩
      · obtain ⟨rfl, rfl⟩ := Prod.mk.inj (Option.some.inj h)
        exact .inl ⟨rfl, rfl⟩
    | _ => cases h

/-- The processes inside `submit_disk_request`. -/
def ioSubmitters [Fintype ι] (c : Cfg ι Io (Disk ι δ)) : Finset ι :=
  Finset.univ.filter fun i => (c.loc i).queuePc.inSubmit = true

/-- **The request pool never runs out.** In every run of at most `NPROC` processes that call `bread`
and `bwrite` as they like, no more entries of the pool are in use than processes are inside
`submit_disk_request`; a process that is about to call it finds an entry, and no process is in its
panic. -/
theorem ioPool_suffices [Fintype ι] (hcard : Fintype.card ι ≤ 64) {data : δ} {block : UInt32 → δ}
    {c : Cfg ι Io (Disk ι δ)} (hrun : (ioSystem ι δ).Reaches System.any (ioStart data block) c) :
    c.mem.queue.q.usedReqs.card ≤ (ioSubmitters c).card ∧
      (∀ i, (c.loc i).queuePc = .idle → c.mem.queue.q.allocReq.isSome) ∧
      ∀ i, (c.loc i).queuePc ≠ .panicked :=
  Queue.pool_suffices hcard (hrun.map Io.queuePc Disk.queue ioSystem_queue)

/-- Two processes read a block each; the second finds the first one dispatching. -/
def twoReads : List (Fin 2 × IoAction (Fin 2) ℕ) :=
  [(0, .bread 1 5), (1, .bread 1 6), (0, .run fun _ => 0), (0, .run fun _ => 0),
    (0, .run fun _ => 0), (1, .run fun _ => 0), (1, .run fun _ => 0), (1, .run fun _ => 0)]

theorem twoReads_runs : (((ioSystem (Fin 2) ℕ).exec twoReads (ioStart 0 fun _ => 0)).map fun c =>
    c.mem.queue.q.usedReqs.card) = some 2 := by
  decide +kernel

theorem ioPool_suffices_twoReads : ∃ c : Cfg (Fin 2) Io (Disk (Fin 2) ℕ),
    (ioSystem (Fin 2) ℕ).Reaches System.any (ioStart 0 fun _ => 0) c ∧
      c.mem.queue.q.usedReqs.card = 2 ∧ 2 ≤ (ioSubmitters c).card ∧
      ∀ i, (c.loc i).queuePc ≠ .panicked := by
  obtain ⟨c, hexec, hused⟩ := Option.map_eq_some_iff.1 twoReads_runs
  have hrun := System.reaches_of_exec hexec
  obtain ⟨hle, -, hno⟩ := ioPool_suffices (by decide) hrun
  exact ⟨c, hrun, hused, hused.symm.trans_le hle, hno⟩

end Xv6Swap.Cache
