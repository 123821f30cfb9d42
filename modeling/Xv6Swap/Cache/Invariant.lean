import Xv6Swap.Cache.Buffers

/-!
# Transfers and buffers

A transfer with nobody else in the queue is `submitDiskRequest_spec`: it returns, under any policy,
and has moved the data of its buffer.

`BufInv` ties the buffers to the clients and the disk: `refcnt` counts the clients that use the
buffer, the lock is held by the one that got it from `bread`, a valid buffer that nobody has
modified holds what is on the disk, and no two buffers are for the same block. What it says about
one buffer is `BufOk`; a step changes one buffer (`BufOk.refer`, `recycle`, `acquire`, `keep`,
`release`) and leaves the others alone (`BufOk.frame`), which `BufInv.step` puts together.
-/

namespace Xv6Swap.Cache

open Pool Interleave
open Queue (DiskQueue DiskState ReqIdx diskReqRead diskReqWrite)

/-! ## A transfer -/

/-- No request is in the queue or being served. -/
structure QueueIdle {β ι : Type*} (q : DiskQueue β ι) : Prop where
  head : q.head = none
  busy : q.busy = false
  free : ∀ r, (q.pool r).used = false

section Transfer

variable {ι δ : Type*} {d d' : Disk ι δ} {pc' : Queue.Pc} {fuel : ℕ} (i : ι) (level : ι → Int32)

theorem runToEnd_succ (pc : Queue.Pc) (hpc : pc ≠ .idle)
    (h : d.runStep i level pc = some (pc', d')) :
    d.runToEnd i level (fuel + 1) pc = d'.runToEnd i level fuel pc' := by
  cases pc with
  | idle => exact absurd rfl hpc
  | _ => simp only [Disk.runToEnd, h, Option.bind_some]

theorem virtioDiskRw_queue (b : BufIdx) (write : Bool) (d : Disk ι δ) :
    (d.virtioDiskRw b write).queue = d.queue := by
  cases write <;> rfl

theorem virtioDiskRw_setQueue (b : BufIdx) (write : Bool) (d : Disk ι δ)
    (queue : DiskState BufIdx ι) :
    { d.virtioDiskRw b write with queue := queue } =
      { d with queue := queue }.virtioDiskRw b write := by
  cases write <;> rfl

/-- A step of the dispatcher that does not find a request. -/
theorem runStep_dequeue_none {own : ReqIdx} (hhead : d.queue.q.head = none) :
    d.runStep i level (.dequeue own) =
      some (.returned own,
        { d with queue := { d.queue with q := { d.queue.q with busy := false } } }) := by
  have hdeq := DiskQueue.dequeueDiskRequestLocked_nil level (q := d.queue.q) hhead
  simp only [Disk.runStep, Queue.runStep, hdeq, Option.map_some]

/-- A step of the dispatcher that finds the only request. -/
theorem runStep_dequeue_some (own : ReqIdx) {r : ReqIdx}
    (hlinked : Linked d.queue.q.next d.queue.q.head [r]) :
    ∃ next log, d.runStep i level (.dequeue own) = some (.seek own r,
      { d with queue := ⟨{ d.queue.q with next := next, head := none }, log⟩ }) := by
  obtain ⟨r', hr', next, head, hdeq, hlinked'⟩ :=
    DiskQueue.dequeueDiskRequestLocked_spec level hlinked (List.cons_ne_nil r [])
  obtain rfl : r' = r := List.mem_singleton.1 hr'
  obtain rfl : head = none := by simpa using hlinked'
  refine ⟨next, d.queue.log ++ [.dispatched r'], ?_⟩
  simp only [Disk.runStep, Queue.runStep, hdeq, Option.map_some]

/-- The transfer of the buffer of a request. -/
theorem runStep_transfer {own r : ReqIdx} {b : BufIdx} (hb : (d.queue.q.pool r).b = some b) :
    d.runStep i level (.transfer own r) = some (.complete own r,
      { d with queue := ⟨d.queue.q, d.queue.log ++
        [Queue.Event.diskRw r (some b) ((d.queue.q.pool r).type == diskReqWrite)]⟩ }.virtioDiskRw b
          ((d.queue.q.pool r).type == diskReqWrite)) := by
  simp only [Disk.runStep, Queue.runStep, Option.map_some, hb]

/-- The steps in between. -/
theorem runStep_other {pc : Queue.Pc} {queue : DiskState BufIdx ι}
    (hpc : ∀ own r, pc ≠ .transfer own r)
    (h : Queue.runStep i level d.queue pc = some (pc', queue)) :
    d.runStep i level pc = some (pc', { d with queue := queue }) := by
  cases pc with
  | transfer own r => exact absurd rfl (hpc own r)
  | _ => simp only [Disk.runStep, h, Option.map_some]

/-- The dispatcher after the transfer of the only request. -/
theorem runToEnd_complete {r : ReqIdx} (hhead : d.queue.q.head = none)
    (hfree : ∀ r', r' ≠ r → (d.queue.q.pool r').used = false) :
    ∃ queue, QueueIdle queue.q ∧ d.runToEnd i level 3 (.complete r r) =
      some { d with queue := queue } := by
  have hdone : (d.queue.q.modify r fun e => { e with completed := true }).pool r =
      { d.queue.q.pool r with completed := true } := Function.update_self ..
  rw [runToEnd_succ i level (.complete r r) nofun (runStep_other i level nofun rfl),
    runToEnd_succ i level (.dequeue r) nofun (runStep_dequeue_none i level (by exact hhead)),
    runToEnd_succ i level (.returned r) nofun (runStep_other i level nofun
      (by simp only [Queue.runStep, Queue.awaitRequest, hdone, if_true]; rfl))]
  refine ⟨_, ?_, by rw [Disk.runToEnd]⟩
  refine ⟨hhead, rfl, fun r' => ?_⟩
  by_cases hr : r' = r
  · subst hr
    simp [DiskQueue.freeReq, DiskQueue.modify, DiskQueue.setNext]
  · simp [DiskQueue.freeReq, DiskQueue.modify, DiskQueue.setNext, hr, hfree r' hr]

/-- The dispatcher serves the only request. -/
theorem runToEnd_spec {r : ReqIdx} {b : BufIdx}
    (hlinked : Linked d.queue.q.next d.queue.q.head [r]) (hb : (d.queue.q.pool r).b = some b)
    (hfree : ∀ r', r' ≠ r → (d.queue.q.pool r').used = false) :
    ∃ queue, QueueIdle queue.q ∧ d.runToEnd i level 7 (.dequeue r) =
      some ({ d with queue := queue }.virtioDiskRw b
        ((d.queue.q.pool r).type == diskReqWrite)) := by
  obtain ⟨next, log, hdeq⟩ := runStep_dequeue_some i level r hlinked
  rw [runToEnd_succ i level (.dequeue r) nofun hdeq,
    runToEnd_succ i level (.seek r r) nofun (runStep_other i level nofun rfl),
    runToEnd_succ i level (.account r r _) nofun (runStep_other i level nofun rfl)]
  rw [runToEnd_succ i level (.transfer r r) nofun (runStep_transfer i level (by exact hb))]
  refine (runToEnd_complete i level (by rw [virtioDiskRw_queue]; rfl)
    (by rw [virtioDiskRw_queue]; exact hfree)).imp fun queue h => ⟨h.1, h.2.trans ?_⟩
  exact congrArg some (virtioDiskRw_setQueue ..)

/-- **A disk transfer.** With nobody else in the queue, `submit_disk_request` returns and has
transferred the buffer, under any policy. -/
theorem submitDiskRequest_spec (b : BufIdx) (type : Int32) (hidle : QueueIdle d.queue.q) :
    ∃ queue, QueueIdle queue.q ∧ d.submitDiskRequest i level b type =
      some ({ d with queue := queue }.virtioDiskRw b (type == diskReqWrite)) := by
  cases halloc : d.queue.q.allocReq with
  | none =>
    have hused := DiskQueue.allocReq_eq_none halloc ⟨0, by decide⟩
    rw [hidle.free] at hused
    cases hused
  | some x =>
    obtain ⟨r, q⟩ := x
    obtain ⟨-, hq⟩ := DiskQueue.allocReq_eq_some halloc
    obtain ⟨e, hpool, -, -, hb, rfl, hbusy, hlinked⟩ :=
      Queue.fillRequest_spec i b (d.cache.buf b).blockno type hq
        (l := []) hidle.head (List.not_mem_nil)
    have hbusy' := hbusy.trans hidle.busy
    simp only [Disk.submitDiskRequest, Queue.submitDiskRequest, halloc, hbusy', if_true]
    have hr : (Queue.fillRequest i b (d.cache.buf b).blockno e.type r q).pool r = e := by
      rw [hpool, Function.update_self]
    refine (runToEnd_spec i level (by exact hlinked) (by rw [hr]; exact hb) ?_).imp
      fun queue h => ⟨h.1, h.2.trans (by rw [hr])⟩
    intro r' hr'
    rw [hpool, Function.update_of_ne hr']
    exact hidle.free r'

end Transfer

/-! ## Buffers and clients -/

/-- The buffer a client uses. -/
def Client.buf : Client → Option BufIdx
  | .waiting b _ => some b
  | .holding b _ _ => some b
  | _ => none

/-- How many clients use a buffer. -/
def users {ι : Type*} [Fintype ι] (loc : ι → Client) (b : BufIdx) : ℕ :=
  (Finset.univ.filter fun i => (loc i).buf = some b).card

/-- The buffer `b`, with the fields `e`, is in order. -/
structure BufOk {ι δ : Type*} [Fintype ι] (dev : UInt32) (block : UInt32 → δ) (loc : ι → Client)
    (b : BufIdx) (e : Buf ι δ) : Prop where
  devs : e.dev = 0 ∨ e.dev = dev
  count : e.refcnt = users loc b
  waiting : ∀ i n, loc i = .waiting b n → e.dev = dev ∧ e.blockno = n
  holding : ∀ i n dirty, loc i = .holding b n dirty →
    e.dev = dev ∧ e.blockno = n ∧ e.valid = true ∧ e.holder = some i
  holder : ∀ i, e.holder = some i → ∃ n dirty, loc i = .holding b n dirty
  loaded : e.valid = true → e.dev = dev
  /-- unless somebody has modified it, the data is that of the block -/
  clean : e.valid = true → (∀ i n, loc i ≠ .holding b n true) → e.data = block e.blockno

/-- The buffers, the clients and the blocks of the disk agree. -/
structure BufInv {ι δ : Type*} [Fintype ι] (dev : UInt32) (block : UInt32 → δ) (loc : ι → Client)
    (buf : BufIdx → Buf ι δ) : Prop where
  ok : ∀ b, BufOk dev block loc b (buf b)
  unique : ∀ a b, (buf a).dev = dev → (buf b).dev = dev → (buf a).blockno = (buf b).blockno → a = b

section Users

variable {ι : Type*} [Fintype ι] [DecidableEq ι] {loc : ι → Client} {i : ι} {l : Client}
  {b b' : BufIdx}

omit [DecidableEq ι] in
theorem users_eq_zero : users loc b = 0 ↔ ∀ i, (loc i).buf ≠ some b := by
  simp [users, Finset.filter_eq_empty_iff]

/-- A client that stays with its buffer. -/
theorem users_update (h : l.buf = (loc i).buf) :
    users (Function.update loc i l) b = users loc b := by
  refine congrArg Finset.card (Finset.filter_congr fun j _ => ?_)
  by_cases hj : j = i
  · subst hj
    simp [h]
  · simp [hj]

/-- A client that turns to a buffer. -/
theorem users_update_some (h : (loc i).buf = none) (hl : l.buf = some b) :
    users (Function.update loc i l) b' = users loc b' + if b' = b then 1 else 0 := by
  by_cases hb : b' = b
  · subst hb
    have hi : i ∉ Finset.univ.filter fun j => (loc j).buf = some b' := by simp [h]
    rw [if_pos rfl, users, users, ← Finset.card_insert_of_notMem hi]
    congr 1
    ext j
    by_cases hj : j = i
    · subst hj
      simp [hl]
    · simp [hj]
  · rw [if_neg hb, Nat.add_zero]
    refine congrArg Finset.card (Finset.filter_congr fun j _ => ?_)
    by_cases hj : j = i
    · subst hj
      simp [h, hl, Ne.symm hb]
    · simp [hj]

/-- A client that is done with its buffer. -/
theorem users_update_none (h : (loc i).buf = some b) (hl : l.buf = none) :
    users loc b' = users (Function.update loc i l) b' + if b' = b then 1 else 0 := by
  have hback : users (Function.update (Function.update loc i l) i (loc i)) b' = _ :=
    users_update_some (by simpa using hl) h
  simpa using hback

end Users

section Steps

variable {ι δ : Type*} [Fintype ι] [DecidableEq ι] {dev : UInt32} {block : UInt32 → δ}
  {loc : ι → Client} {i j : ι} {l : Client} {b : BufIdx} {n : UInt32} {dirty : Bool} {e : Buf ι δ}

omit [Fintype ι] in
/-- Where a client is after a step of `i`. -/
theorem update_eq {x : Client} (h : Function.update loc i l j = x) :
    j = i ∧ l = x ∨ j ≠ i ∧ loc j = x := by
  by_cases hj : j = i
  · subst hj
    rw [Function.update_self] at h
    exact .inl ⟨rfl, h⟩
  · rw [Function.update_of_ne hj] at h
    exact .inr ⟨hj, h⟩

/-- A step of a client concerns the buffer it uses only. -/
theorem BufOk.frame (h : BufOk dev block loc b e) (hi : (loc i).buf ≠ some b)
    (hl : l.buf ≠ some b) : BufOk dev block (Function.update loc i l) b e := by
  have hloc : ∀ j x, x.buf = some b → (Function.update loc i l j = x ↔ loc j = x) := by
    intro j x hx
    by_cases hj : j = i
    · subst hj
      rw [Function.update_self]
      exact ⟨fun he => absurd (he ▸ hx) hl, fun he => absurd (he ▸ hx) hi⟩
    · rw [Function.update_of_ne hj]
  refine ⟨h.devs, ?_, fun j n hj => h.waiting j n ((hloc j _ rfl).1 hj),
    fun j n dirty hj => h.holding j n dirty ((hloc j _ rfl).1 hj), fun j hj => ?_, h.loaded,
    fun hvalid hdirty => h.clean hvalid fun j n hj => hdirty j n ((hloc j _ rfl).2 hj)⟩
  · rw [h.count]
    refine congrArg Finset.card (Finset.filter_congr fun j _ => ?_)
    by_cases hj : j = i
    · subst hj
      simp [hi, hl]
    · simp [hj]
  · obtain ⟨n, dirty, hj⟩ := h.holder j hj
    exact ⟨n, dirty, (hloc j _ rfl).2 hj⟩

omit [DecidableEq ι] in
/-- Only one client holds a buffer. -/
theorem BufOk.eq_of_holding (h : BufOk dev block loc b e) {n' : UInt32} {dirty' : Bool}
    (hi : loc i = .holding b n dirty) (hj : loc j = .holding b n' dirty') : j = i :=
  Option.some.inj ((h.holding j n' dirty' hj).2.2.2.symm.trans (h.holding i n dirty hi).2.2.2)

/-- `bget` finds the block. -/
theorem BufOk.refer (h : BufOk dev block loc b e) (hi : loc i = .idle) (hdev : e.dev = dev)
    (hn : e.blockno = n) :
    BufOk dev block (Function.update loc i (.waiting b n)) b { e with refcnt := e.refcnt + 1 } := by
  have hkeep : ∀ j n' dirty, loc j = .holding b n' dirty →
      Function.update loc i (.waiting b n) j = .holding b n' dirty := by
    intro j n' dirty hj
    rw [Function.update_of_ne (fun hji => by rw [hji, hi] at hj; cases hj), hj]
  refine ⟨h.devs, ?_, fun j n' hj => ?_, fun j n' dirty hj => ?_, fun j hj => ?_, h.loaded,
    fun hvalid hdirty => h.clean hvalid fun j n' hj => hdirty j n' (hkeep j n' true hj)⟩
  · rw [users_update_some (by rw [hi]; rfl) rfl, if_pos rfl, ← h.count]
  · rcases update_eq hj with ⟨-, heq⟩ | ⟨-, hj⟩
    · obtain ⟨-, rfl⟩ := Client.waiting.inj heq
      exact ⟨hdev, hn⟩
    · exact h.waiting j n' hj
  · rcases update_eq hj with ⟨-, heq⟩ | ⟨-, hj⟩
    · cases heq
    · exact h.holding j n' dirty hj
  · obtain ⟨n', dirty, hj⟩ := h.holder j hj
    exact ⟨n', dirty, hkeep j n' dirty hj⟩

/-- `bget` takes a buffer that nobody uses. -/
theorem BufOk.recycle (h : BufOk dev block loc b e) (hi : loc i = .idle) (hfree : e.refcnt = 0) :
    BufOk dev block (Function.update loc i (.waiting b n)) b
      { e with dev := dev, blockno := n, valid := false, refcnt := 1 } := by
  have hnone : ∀ j, (loc j).buf ≠ some b := users_eq_zero.1 (h.count ▸ hfree)
  refine ⟨.inr rfl, ?_, fun j n' hj => ?_, fun j n' dirty hj => ?_, fun j hj => ?_, nofun, nofun⟩
  · rw [users_update_some (by rw [hi]; rfl) rfl, if_pos rfl, users_eq_zero.2 hnone]
  · rcases update_eq hj with ⟨-, heq⟩ | ⟨-, hj⟩
    · obtain ⟨-, rfl⟩ := Client.waiting.inj heq
      exact ⟨rfl, rfl⟩
    · exact absurd (by rw [hj]; rfl) (hnone j)
  · rcases update_eq hj with ⟨-, heq⟩ | ⟨-, hj⟩
    · cases heq
    · exact absurd (by rw [hj]; rfl) (hnone j)
  · obtain ⟨n', dirty, hj⟩ := h.holder j hj
    exact absurd (by rw [hj]; rfl) (hnone j)

/-- `bread` gets the lock and, if need be, the data. -/
theorem BufOk.acquire (h : BufOk dev block loc b e) (hi : loc i = .waiting b n)
    (hholder : e.holder = none) :
    BufOk dev block (Function.update loc i (.holding b n false)) b
      { e with holder := some i, valid := true, data := block e.blockno } := by
  obtain ⟨hdev, hn⟩ := h.waiting i n hi
  refine ⟨h.devs, ?_, fun j n' hj => ?_, fun j n' dirty hj => ?_, fun j hj => ?_, fun _ => hdev,
    fun _ _ => rfl⟩
  · rw [users_update (by rw [hi]; rfl), ← h.count]
  · rcases update_eq hj with ⟨-, heq⟩ | ⟨-, hj⟩
    · cases heq
    · exact h.waiting j n' hj
  · rcases update_eq hj with ⟨rfl, heq⟩ | ⟨-, hj⟩
    · obtain ⟨-, rfl, rfl⟩ := Client.holding.inj heq
      exact ⟨hdev, hn, rfl, rfl⟩
    · have hj' := (h.holding j n' dirty hj).2.2.2
      rw [hholder] at hj'
      cases hj'
  · obtain rfl : i = j := Option.some.inj hj
    exact ⟨n, false, Function.update_self ..⟩

/-- The holder of a buffer goes on with it, and the data may change. -/
theorem BufOk.keep (h : BufOk dev block loc b e) (hi : loc i = .holding b n dirty)
    (block' : UInt32 → δ) (data : δ) (dirty' : Bool)
    (hclean : dirty' = false → data = block' e.blockno) :
    BufOk dev block' (Function.update loc i (.holding b n dirty')) b { e with data := data } := by
  obtain ⟨hdev, hn, hvalid, hholder⟩ := h.holding i n dirty hi
  refine ⟨h.devs, ?_, fun j n' hj => ?_, fun j n' dirty hj => ?_, fun j hj => ?_, fun _ => hdev,
    fun _ hdirty => hclean ?_⟩
  · rw [users_update (by rw [hi]; rfl), ← h.count]
  · rcases update_eq hj with ⟨-, heq⟩ | ⟨-, hj⟩
    · cases heq
    · exact h.waiting j n' hj
  · rcases update_eq hj with ⟨rfl, heq⟩ | ⟨hne, hj⟩
    · obtain ⟨-, rfl, rfl⟩ := Client.holding.inj heq
      exact ⟨hdev, hn, hvalid, hholder⟩
    · exact absurd (h.eq_of_holding hi hj) hne
  · obtain rfl : i = j := Option.some.inj (hholder.symm.trans hj)
    exact ⟨n, dirty', Function.update_self ..⟩
  · cases dirty' with
    | false => rfl
    | true => exact absurd (Function.update_self ..) (hdirty i n)

/-- `brelse` by a client that has not modified the data. -/
theorem BufOk.release (h : BufOk dev block loc b e) (hi : loc i = .holding b n false) :
    BufOk dev block (Function.update loc i .idle) b
      { e with holder := none, refcnt := e.refcnt - 1 } := by
  refine ⟨h.devs, ?_, fun j n' hj => ?_, fun j n' dirty hj => ?_, nofun, h.loaded,
    fun hvalid hdirty => h.clean hvalid fun j n' hj => ?_⟩
  · have husers : users loc b = _ + if b = b then 1 else 0 :=
      users_update_none (l := .idle) (by rw [hi]; rfl) rfl
    rw [if_pos rfl, ← h.count] at husers
    rw [husers, Nat.add_sub_cancel]
  · rcases update_eq hj with ⟨-, heq⟩ | ⟨-, hj⟩
    · cases heq
    · exact h.waiting j n' hj
  · rcases update_eq hj with ⟨-, heq⟩ | ⟨hne, hj⟩
    · cases heq
    · exact absurd (h.eq_of_holding hi hj) hne
  · obtain rfl := h.eq_of_holding hi hj
    rw [hi] at hj
    cases hj

omit [DecidableEq ι] in
/-- A write to another block. -/
theorem BufOk.setBlock {block' : UInt32 → δ} (h : BufOk dev block loc b e)
    (hblock : e.valid = true → block' e.blockno = block e.blockno) : BufOk dev block' loc b e :=
  { h with clean := fun hvalid hdirty => (h.clean hvalid hdirty).trans (hblock hvalid).symm }

variable {buf : BufIdx → Buf ι δ}

/-- **A step of a client with one buffer.** -/
theorem BufInv.step {block' : UInt32 → δ} (h : BufInv dev block loc buf)
    (hi : ∀ a, a ≠ b → (loc i).buf ≠ some a) (hl : ∀ a, a ≠ b → l.buf ≠ some a)
    (hb : BufOk dev block' (Function.update loc i l) b e)
    (hunique : ∀ a, a ≠ b → e.dev = dev → (buf a).dev = dev → (buf a).blockno ≠ e.blockno)
    (hblock : ∀ a, a ≠ b → (buf a).valid = true → block' (buf a).blockno = block (buf a).blockno) :
    BufInv dev block' (Function.update loc i l) (Function.update buf b e) := by
  refine ⟨fun a => ?_, fun a a' ha ha' hn => ?_⟩
  · by_cases hab : a = b
    · subst hab
      rwa [Function.update_self]
    · rw [Function.update_of_ne hab]
      exact ((h.ok a).setBlock (hblock a hab)).frame (hi a hab) (hl a hab)
  · by_cases hab : a = b
    · by_cases hab' : a' = b
      · rw [hab, hab']
      · rw [hab, Function.update_self, Function.update_of_ne hab'] at hn
        rw [hab, Function.update_self] at ha
        rw [Function.update_of_ne hab'] at ha'
        exact absurd hn.symm (hunique a' hab' ha ha')
    · rw [Function.update_of_ne hab] at ha hn
      by_cases hab' : a' = b
      · rw [hab', Function.update_self] at ha' hn
        exact absurd hn (hunique a hab ha' ha)
      · rw [Function.update_of_ne hab'] at ha' hn
        exact h.unique a a' ha ha' hn

omit [DecidableEq ι] in
/-- A buffer that stays with its block is the only one for it. -/
theorem BufInv.blockno_ne (h : BufInv dev block loc buf) {a : BufIdx} (hab : a ≠ b)
    (hdev : (buf b).dev = dev) (ha : (buf a).dev = dev) : (buf a).blockno ≠ (buf b).blockno :=
  fun hn => hab (h.unique a b ha hdev hn)

end Steps

end Xv6Swap.Cache
