import Xv6Swap.Foundations.Mutex
import Xv6Swap.Virtio.Jobs

/-!
# The invariant of the driver

`Inv`: who is inside `vdisk_lock` holds it, the descriptors in use are those of the jobs, a request
that is filled in stays as it is (`Filled`), the requests in the rings and in the device are those
that processes wait for, and no `panic` has been met.

In a state with the invariant a step is one of `Moves`: no `panic` is met, the device finds the
request it looks for, and `free_chain` frees just the chain of the process (`moves_of_step`).
-/

namespace Xv6Swap.Virtio

open Raid (Byte Block bSize)
open Fifo (slot)

variable {ι κ β : Type*} {N : ℕ}

/-! ## What a process has -/

namespace Pc

/-- The process is inside `vdisk_lock`. -/
def holds : Pc N β → Bool
  | .idle | .acquire _ _ | .sleepFree _ _ | .sleepBuf _ _ _ => false
  | _ => true

/-- The job of a process that has descriptors. -/
def job : Pc N β → Option (Job N β)
  | .fill b write c | .ring b write c | .publish b write c | .check b write c | .sleepBuf b write c
  | .finish b write c => some ⟨b, write, c⟩
  | _ => none

/-- The job, from when it is filled in. -/
def filled : Pc N β → Option (Job N β)
  | .ring b write c | .publish b write c | .check b write c | .sleepBuf b write c
  | .finish b write c => some ⟨b, write, c⟩
  | _ => none

/-- The job, from when the device may take it. -/
def sent : Pc N β → Option (Job N β)
  | .check b write c | .sleepBuf b write c | .finish b write c => some ⟨b, write, c⟩
  | _ => none

/-- The job that is filled in and not sent. -/
def ready : Pc N β → Option (Job N β)
  | .ring b write c | .publish b write c => some ⟨b, write, c⟩
  | _ => none

/-- The job whose entry is in the ring and not yet counted in. -/
def publishing : Pc N β → Option (Job N β)
  | .publish b write c => some ⟨b, write, c⟩
  | _ => none

/-- The job that is done. -/
def finishing : Pc N β → Option (Job N β)
  | .finish b write c => some ⟨b, write, c⟩
  | _ => none

/-- Where a process goes on once it has `vdisk_lock`. -/
def locked : Pc N β → Option (Pc N β)
  | .acquire b write | .sleepFree b write => some (.alloc b write)
  | .sleepBuf b write c => some (.check b write c)
  | _ => none

variable {pc pc' : Pc N β} {j : Job N β}

theorem filled_of_sent (h : pc.sent = some j) : pc.filled = some j := by
  cases pc <;> first | exact h | cases h

theorem job_of_filled (h : pc.filled = some j) : pc.job = some j := by
  cases pc <;> first | exact h | cases h

theorem job_of_sent (h : pc.sent = some j) : pc.job = some j := job_of_filled (filled_of_sent h)

theorem filled_of_ready (h : pc.ready = some j) : pc.filled = some j := by
  cases pc <;> first | exact h | cases h

theorem sent_of_ready (h : pc.ready = some j) : pc.sent = none := by
  cases pc <;> first | rfl | cases h

theorem sent_of_finishing (h : pc.finishing = some j) : pc.sent = some j := by
  cases pc <;> first | exact h | cases h

theorem buf_of_job (h : pc.job = some j) : pc.buf = some j.b := by
  cases pc <;> first | (cases h; rfl) | cases h

theorem holds_of_publishing (h : pc.publishing = some j) : pc.holds = true := by
  cases pc <;> first | rfl | cases h

theorem holds_of_locked (h : pc.locked = some pc') : pc'.holds = true := by
  cases pc <;> first | (cases h; rfl) | cases h

/-- With the lock a process has what it had before. -/
structure Same (pc pc' : Pc N β) : Prop where
  buf : pc'.buf = pc.buf
  job : pc'.job = pc.job
  filled : pc'.filled = pc.filled
  ready : pc'.ready = pc.ready
  publishing : pc'.publishing = pc.publishing
  sent : pc'.sent = pc.sent
  finishing : pc'.finishing = pc.finishing

theorem same_of_locked (h : pc.locked = some pc') : pc.Same pc' := by
  cases pc <;> first | (cases h; exact ⟨rfl, rfl, rfl, rfl, rfl, rfl, rfl⟩) | cases h

end Pc

/-- The hart is inside `vdisk_lock`. -/
def IntrPc.holds : IntrPc → Bool
  | .idle | .acquire => false
  | _ => true

/-- The request that the device has executed and not yet counted in. -/
def Phase.head : Phase N → Option (Fin N)
  | .post head | .bump head => some head
  | _ => none

namespace State

/-- The requests that the device has not executed: in the ring, or taken off it. -/
def waiting [NeZero N] (s : State ι κ β N) : List (Fin N) :=
  Fifo.contents s.avail.ring s.takenIdx s.avail.idx ++ s.taken

/-- The requests that the device has executed and the driver has not seen. -/
def served [NeZero N] (s : State ι κ β N) : List (Fin N) :=
  s.phase.head.toList ++ Fifo.contents s.used.ring s.usedIdx s.used.idx

/-- What a job asks for. -/
def request (s : State ι κ β N) (j : Job N β) : BlkReq :=
  ⟨if j.write then .write else .read, sectorOf (s.buf j.b).blockno⟩

/-- A request as `virtio_disk_rw` has filled it in. -/
structure Filled [NeZero N] (s : State ι κ β N) (j : Job N β) : Prop where
  op : s.ops j.chain.head = s.request j
  head : s.desc j.chain.head = ⟨.op j.chain.head, blkReqSize, true, false, j.chain.data⟩
  data : s.desc j.chain.data = ⟨.data j.b, bSize, true, !j.write, j.chain.status⟩
  status : s.desc j.chain.status = ⟨.status j.chain.head, 1, false, true, 0⟩
  info : (s.info j.chain.head).b = some j.b

/-- Who is inside `vdisk_lock`. -/
def inside (s : State ι κ β N) : ι ⊕ κ → Bool :=
  Sum.elim (fun i => (s.pc i).holds) fun h => (s.intr h).holds

structure Inv [NeZero N] (s : State ι κ β N) : Prop where
  lock : Mutex.Guarded s.lock s.inside
  owned : Owned (fun i => (s.pc i).job) s.free
  exclusive : Exclusive fun i => (s.pc i).buf
  filled : ∀ {i j}, (s.pc i).filled = some j → s.Filled j
  ready : ∀ {i j}, (s.pc i).ready = some j →
    (s.buf j.b).disk = true ∧ (s.info j.chain.head).status = 0xff
  ring : ∀ {i j}, (s.pc i).publishing = some j →
    s.avail.ring (slot N s.avail.idx) = j.chain.head
  finished : ∀ {i j}, (s.pc i).finishing = some j → (s.buf j.b).disk = false
  posted : ∀ {d}, s.phase = .bump d → s.used.ring (slot N s.used.idx) = d
  tracked : Tracked s.waiting s.served (fun i => (s.pc i).sent) (fun b => (s.buf b).disk)
    fun d => (s.info d).status
  /-- no `panic` has been met -/
  pc : ∀ i e, s.pc i ≠ .panicked e
  intr : ∀ h e, s.intr h ≠ .panicked e
  phase : s.phase ≠ .broken

variable [NeZero N] {s s' : State ι κ β N} {a : Act ι κ β N} {i i' : ι} {j j' : Job N β}

/-! ## Consequences -/

/-- A request that the device may see is filled in. -/
theorem Inv.sent_of_mem (hs : s.Inv) {d : Fin N} (hd : d ∈ s.waiting ++ s.served) :
    ∃ i j, (s.pc i).sent = some j ∧ j.chain.head = d ∧ (s.buf j.b).disk = true :=
  (hs.tracked.mem_iff d).1 hd

/-- A request that is not sent is not on its way. -/
theorem Inv.notMem_of_sent_eq_none (hs : s.Inv) (hjob : (s.pc i).job = some j)
    (hsent : (s.pc i).sent = none) : j.chain.head ∉ s.waiting ++ s.served := by
  intro hmem
  obtain ⟨i', j', hsent', hhead, -⟩ := hs.sent_of_mem hmem
  obtain rfl := hs.owned.eq_of_head (Pc.job_of_sent hsent') hjob hhead
  rw [hsent] at hsent'
  cases hsent'

/-- The rings have room for a request that is not on its way. -/
theorem Inv.length_lt (hs : s.Inv) {d : Fin N} (hd : d ∉ s.waiting ++ s.served) :
    s.waiting.length + s.served.length < N := by
  have hnodup : (d :: (s.waiting ++ s.served)).Nodup := List.nodup_cons.2 ⟨hd, hs.tracked.nodup⟩
  have hcard := hnodup.length_le_card
  rw [List.length_cons, List.length_append, Fintype.card_fin] at hcard
  exact hcard

theorem Inv.count_avail_lt (hs : s.Inv) {d : Fin N} (hd : d ∉ s.waiting ++ s.served) :
    Fifo.count s.takenIdx s.avail.idx < N := by
  have hlt := hs.length_lt hd
  rw [waiting, List.length_append, Fifo.length_contents] at hlt
  omega

/-- The used ring has room for the request that the device has executed. -/
theorem Inv.count_used_lt (hs : s.Inv) {d : Fin N} (hd : s.phase.head = some d) :
    Fifo.count s.usedIdx s.used.idx < N := by
  have hnodup : (d :: Fifo.contents s.used.ring s.usedIdx s.used.idx).Nodup := by
    have hserved := hs.tracked.nodup.of_append_right
    rwa [served, hd] at hserved
  have hcard := hnodup.length_le_card
  rw [List.length_cons, Fifo.length_contents, Fintype.card_fin] at hcard
  exact hcard

/-- The device understands a request that is filled in. -/
theorem Filled.parseChain (h : s.Filled j) :
    s.parseChain j.chain.head = some (s.request j, j.b, j.chain.head) := by
  simp only [State.parseChain, h.head, h.data, h.status, h.op, request]
  cases j.write <;> rfl

omit [NeZero N] in
theorem transfer_eq [DecidableEq β] (s : State ι κ β N) (req : BlkReq) (b : β) (d : Fin N) :
    s.transfer req b d = { s with
      info := Function.update s.info d { s.info d with status := 0 }
      buf := (s.transfer req b d).buf
      medium := (s.transfer req b d).medium } := by
  cases req with
  | mk type sector => cases type <;> rfl

omit [NeZero N] in
theorem transfer_buf_of_ne [DecidableEq β] {b b' : β} (hb : b' ≠ b) (req : BlkReq) (d : Fin N) :
    (s.transfer req b d).buf b' = s.buf b' := by
  cases req with
  | mk type sector =>
    cases type with
    | read => exact Function.update_of_ne hb _ _
    | write => rfl

omit [NeZero N] in
theorem transfer_buf [DecidableEq β] (s : State ι κ β N) (req : BlkReq) (b b' : β) (d : Fin N) :
    ((s.transfer req b d).buf b').blockno = (s.buf b').blockno ∧
      ((s.transfer req b d).buf b').disk = (s.buf b').disk := by
  by_cases hb : b' = b
  · subst hb
    cases req with
    | mk type sector => cases type <;> simp [transfer]
  · rw [transfer_buf_of_ne hb]
    exact ⟨rfl, rfl⟩

/-- The process frees a request that is filled in. -/
theorem Inv.freeChain [DecidableEq β] (hs : s.Inv) (hfilled : (s.pc i).filled = some j)
    (info : Fin N → Info β) :
    freeChain N j.chain.head { s with info } = .ok (wakeup .free { s with
      info, desc := j.chain.set .clear s.desc, free := j.chain.set true s.free }) := by
  have hjob := Pc.job_of_filled hfilled
  have hfill := hs.filled hfilled
  exact freeChain_eq (s := { s with info }) (hs.owned.distinct hjob) hfill.head hfill.data
    hfill.status fun d hd => (hs.owned.free_iff d).2 ⟨i, j, hjob, hd⟩

/-! ## Steps from states with the invariant -/

section Moves

variable [DecidableEq ι] [DecidableEq κ] [DecidableEq β]

/-- The steps, one by one. -/
inductive Moves (s : State ι κ β N) : Act ι κ β N → State ι κ β N → Prop
  | call {i : ι} {b : β} {write : Bool} (hpc : s.pc i = .idle)
      (hfree : ∀ j, (s.pc j).buf ≠ some b) :
      Moves s (.call i b write) (s.goto i (.acquire b write))
  | lock {i : ι} {pc : Pc N β} (hpc : (s.pc i).locked = some pc) (hlock : s.lock = none)
      (hwoken : s.asleep i = none) : Moves s (.proc i) ({ s with lock := some (.inl i) }.goto i pc)
  | alloc {i : ι} {b : β} {write : Bool} {c : Chain N} (hpc : s.pc i = .alloc b write)
      (hc : c.Distinct) (hfree : ∀ d ∈ c, s.free d = true) :
      Moves s (.proc i) ({ s with free := c.set false s.free }.goto i (.fill b write c))
  | full {i : ι} {b : β} {write : Bool} {s' : State ι κ β N} (hpc : s.pc i = .alloc b write)
      (hcount : s.freeCount < 3) (htried : s.Tried s') :
      Moves s (.proc i) (s'.sleepOn i .free (.sleepFree b write))
  | fill {i : ι} {b : β} {write : Bool} {c : Chain N} (hpc : s.pc i = .fill b write c) :
      Moves s (.proc i) ((s.fillChain b write c).goto i (.ring b write c))
  | ring {i : ι} {b : β} {write : Bool} {c : Chain N} (hpc : s.pc i = .ring b write c) :
      Moves s (.proc i) ({ s with avail := { s.avail with
        ring := Function.update s.avail.ring (slot N s.avail.idx) c.head } }.goto i
          (.publish b write c))
  | publish {i : ι} {b : β} {write : Bool} {c : Chain N} (hpc : s.pc i = .publish b write c) :
      Moves s (.proc i) ({ s with avail := { s.avail with idx := s.avail.idx + 1 } }.goto i
        (.check b write c))
  | sleep {i : ι} {b : β} {write : Bool} {c : Chain N} (hpc : s.pc i = .check b write c)
      (hdisk : (s.buf b).disk = true) :
      Moves s (.proc i) (s.sleepOn i (.buf b) (.sleepBuf b write c))
  | done {i : ι} {b : β} {write : Bool} {c : Chain N} (hpc : s.pc i = .check b write c)
      (hdisk : (s.buf b).disk = false) :
      Moves s (.proc i) (s.goto i (.finish b write c))
  | ret {i : ι} {b : β} {write : Bool} {c : Chain N} (hpc : s.pc i = .finish b write c) :
      Moves s (.ret i) ({ wakeup .free { s with
        info := Function.update s.info c.head { s.info c.head with b := none }
        desc := c.set .clear s.desc
        free := c.set true s.free } with lock := none }.goto i .idle)
  | modify {b : β} {blockno : UInt32} {data : Block} (hfree : ∀ j, (s.pc j).buf ≠ some b) :
      Moves s (.modify b blockno data)
        { s with buf := Function.update s.buf b { s.buf b with blockno := blockno, data := data } }
  | kill {i : ι} : Moves s (.kill i) { s with asleep := Function.update s.asleep i none }
  | intrStart {h : κ} (hpc : s.intr h = .idle) (hstatus : s.intrStatus = true) :
      Moves s (.intr h) { s with intr := Function.update s.intr h .acquire }
  | intrLock {h : κ} (hpc : s.intr h = .acquire) (hlock : s.lock = none) :
      Moves s (.intr h) { s with lock := some (.inr h), intr := Function.update s.intr h .ack }
  | ack {h : κ} (hpc : s.intr h = .ack) :
      Moves s (.intr h) { s with intrStatus := false, intr := Function.update s.intr h .loop }
  | handle {h : κ} {i : ι} {j : Job N β} (hpc : s.intr h = .loop) (hne : s.usedIdx ≠ s.used.idx)
      (hid : s.used.ring (slot N s.usedIdx) = j.chain.head) (hsent : (s.pc i).sent = some j)
      (hdisk : (s.buf j.b).disk = true) : Moves s (.intr h) { wakeup (.buf j.b)
        { s with buf := Function.update s.buf j.b { s.buf j.b with disk := false } } with
        usedIdx := s.usedIdx + 1 }
  | intrEnd {h : κ} (hpc : s.intr h = .loop) (heq : s.usedIdx = s.used.idx) :
      Moves s (.intr h) { s with lock := none, intr := Function.update s.intr h .idle }
  | take (hne : s.takenIdx ≠ s.avail.idx) :
      Moves s (.dev .take) { s with
        taken := s.taken ++ [s.avail.ring (slot N s.takenIdx)], takenIdx := s.takenIdx + 1 }
  | execute {i : ι} {j : Job N β} (hphase : s.phase = .idle) (hmem : j.chain.head ∈ s.taken)
      (hsent : (s.pc i).sent = some j) :
      Moves s (.dev (.execute j.chain.head)) { s with
        info := Function.update s.info j.chain.head { s.info j.chain.head with status := 0 }
        buf := (s.transfer (s.request j) j.b j.chain.head).buf
        medium := (s.transfer (s.request j) j.b j.chain.head).medium
        taken := s.taken.erase j.chain.head
        phase := .post j.chain.head }
  | post {d : Fin N} (hphase : s.phase = .post d) :
      Moves s (.dev .post) { s with
        used := { s.used with ring := Function.update s.used.ring (slot N s.used.idx) d }
        phase := .bump d }
  | bump {d : Fin N} (hphase : s.phase = .bump d) :
      Moves s (.dev .bump) { s with used := { s.used with idx := s.used.idx + 1 }, phase := .raise }
  | raise (hphase : s.phase = .raise) :
      Moves s (.dev .raise) { s with intrStatus := true, phase := .idle }

omit [NeZero N] [DecidableEq κ] [DecidableEq β] in
theorem acquire_eq_some {pc : Pc N β} (h : s.acquire i pc = some s') :
    s.lock = none ∧ s.asleep i = none ∧ s' = { s with lock := some (.inl i) }.goto i pc := by
  rw [acquire] at h
  split_ifs at h with hfree
  exact ⟨hfree.1, hfree.2, (Option.some.inj h).symm⟩

theorem moves_of_procStep (h : s.procStep i = some s') : Moves s (.proc i) s' := by
  rw [procStep] at h
  cases hpc : s.pc i with
  | idle | finish b write c | panicked e => simp only [hpc, reduceCtorEq] at h
  | acquire b write | sleepFree b write | sleepBuf b write c =>
    simp only [hpc] at h
    obtain ⟨hlock, hwoken, rfl⟩ := acquire_eq_some h
    exact .lock (by rw [hpc]; rfl) hlock hwoken
  | alloc b write =>
    simp only [hpc] at h
    rcases s.alloc3Desc_cases with ⟨c, hc, hfree, heq⟩ | ⟨hcount, s₁, heq, htried⟩
    · simp only [heq, Option.some.injEq] at h
      exact h ▸ .alloc hpc hc hfree
    · simp only [heq, Option.some.injEq] at h
      exact h ▸ .full hpc hcount htried
  | fill b write c =>
    simp only [hpc, Option.some.injEq] at h
    exact h ▸ .fill hpc
  | ring b write c =>
    simp only [hpc, Option.some.injEq] at h
    exact h ▸ .ring hpc
  | publish b write c =>
    simp only [hpc, Option.some.injEq] at h
    exact h ▸ .publish hpc
  | check b write c =>
    simp only [hpc] at h
    split_ifs at h with hdisk
    · exact Option.some.inj h ▸ .sleep hpc hdisk
    · exact Option.some.inj h ▸ .done hpc (by simpa using hdisk)

theorem Inv.moves_of_procReturn (hs : s.Inv) (h : s.procReturn i = some s') :
    Moves s (.ret i) s' := by
  rw [procReturn] at h
  cases hpc : s.pc i with
  | finish b write c =>
    have hfilled : (s.pc i).filled = some ⟨b, write, c⟩ := by rw [hpc]; rfl
    simp only [hpc, hs.freeChain hfilled, Option.some.injEq] at h
    exact h ▸ .ret hpc
  | idle | acquire b write | alloc b write | sleepFree b write | fill b write c | ring b write c
  | publish b write c | check b write c | sleepBuf b write c | panicked e =>
    simp only [hpc, reduceCtorEq] at h

theorem Inv.moves_of_intrStep (hs : s.Inv) {h : κ} (hstep : s.intrStep h = some s') :
    Moves s (.intr h) s' := by
  rw [intrStep] at hstep
  cases hpc : s.intr h with
  | idle =>
    simp only [hpc] at hstep
    split_ifs at hstep with hstatus
    exact Option.some.inj hstep ▸ .intrStart hpc hstatus
  | acquire =>
    simp only [hpc] at hstep
    split_ifs at hstep with hlock
    exact Option.some.inj hstep ▸ .intrLock hpc hlock
  | ack =>
    simp only [hpc, Option.some.injEq] at hstep
    exact hstep ▸ .ack hpc
  | loop =>
    simp only [hpc] at hstep
    by_cases hne : s.usedIdx = s.used.idx
    · rw [if_neg (not_not_intro hne)] at hstep
      exact Option.some.inj hstep ▸ .intrEnd hpc hne
    · rw [if_pos hne] at hstep
      -- the first entry of the used ring is a request that has been sent and done
      have hserved : s.used.ring (slot N s.usedIdx) ∈ s.served := by
        rw [served, Fifo.contents_pop hne]
        exact List.mem_append_right _ List.mem_cons_self
      obtain ⟨i, j, hsent, hhead, hdisk⟩ := hs.sent_of_mem (List.mem_append_right _ hserved)
      have hnot : j.chain.head ∉ s.waiting := fun hmem =>
        List.disjoint_of_nodup_append hs.tracked.nodup hmem (hhead ▸ hserved)
      have hstatus : (s.info j.chain.head).status = 0 := (hs.tracked.status_iff hsent).2 hnot
      have hinfo := (hs.filled (Pc.filled_of_sent hsent)).info
      simp only [← hhead, hstatus, ne_eq, not_true_eq_false, if_false, hinfo,
        Option.some.injEq] at hstep
      exact hstep ▸ .handle hpc hne hhead.symm hsent hdisk
  | panicked e => simp only [hpc, reduceCtorEq] at hstep

theorem Inv.moves_of_devStep (hs : s.Inv) {a : DevAct N} (hstep : s.devStep a = some s') :
    Moves s (.dev a) s' := by
  cases a with
  | take =>
    simp only [devStep] at hstep
    split_ifs at hstep with hne
    exact Option.some.inj hstep ▸ .take hne
  | execute head =>
    cases hphase : s.phase with
    | idle =>
      simp only [devStep, hphase] at hstep
      by_cases hmem : head ∈ s.taken
      · have hout : head ∈ s.waiting ++ s.served :=
          List.mem_append_left _ (List.mem_append_right _ hmem)
        obtain ⟨i, j, hsent, rfl, -⟩ := hs.sent_of_mem hout
        have hparse := (hs.filled (Pc.filled_of_sent hsent)).parseChain
        simp only [if_pos hmem, hparse, Option.some.injEq] at hstep
        rw [transfer_eq] at hstep
        exact hstep ▸ .execute hphase hmem hsent
      · rw [if_neg hmem] at hstep
        cases hstep
    | post d | bump d | raise | broken => simp only [devStep, hphase, reduceCtorEq] at hstep
  | post =>
    cases hphase : s.phase with
    | post d =>
      simp only [devStep, hphase, Option.some.injEq] at hstep
      exact hstep ▸ .post hphase
    | idle | bump d | raise | broken => simp only [devStep, hphase, reduceCtorEq] at hstep
  | bump =>
    cases hphase : s.phase with
    | bump d =>
      simp only [devStep, hphase, Option.some.injEq] at hstep
      exact hstep ▸ .bump hphase
    | idle | post d | raise | broken => simp only [devStep, hphase, reduceCtorEq] at hstep
  | raise =>
    cases hphase : s.phase with
    | raise =>
      simp only [devStep, hphase, Option.some.injEq] at hstep
      exact hstep ▸ .raise hphase
    | idle | post d | bump d | broken => simp only [devStep, hphase, reduceCtorEq] at hstep

theorem Inv.moves_of_step (hs : s.Inv) (h : s.Step a s') : Moves s a s' := by
  obtain ⟨hcontract, hstep⟩ := h
  cases a with
  | call i b write =>
    rw [step] at hstep
    split at hstep
    · exact Option.some.inj hstep ▸ .call ‹_› hcontract
    · cases hstep
  | proc i => exact moves_of_procStep hstep
  | ret i => exact hs.moves_of_procReturn hstep
  | modify b blockno data => exact Option.some.inj hstep ▸ .modify hcontract
  | kill i => exact Option.some.inj hstep ▸ .kill
  | intr h => exact hs.moves_of_intrStep hstep
  | dev a => exact hs.moves_of_devStep hstep

end Moves

end State

end Xv6Swap.Virtio
