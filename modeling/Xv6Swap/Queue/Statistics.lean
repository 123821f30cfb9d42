import Xv6Swap.Queue.Invariant

/-!
# The disk statistics

`run_disk_dispatcher` books each request it serves: the head moves to the request's block, and the
counters and the total latency grow. The distance is computed outside the lock, from a head that
only a dispatcher writes; so the numbers are exact because there is one dispatcher at a time
(`DispatchInv.unique`), not because of the lock.

A history variable holds the booked requests in the order of booking. `statistics_exact` says that
the statistics are those of the history, for the runs in which no latency overflows an `int`
(`SeeksFit`). The total is a `uint64` but the latency of a single request is an `int`, and a seek
over nearly the whole range of block numbers does not fit (`latency_overflows`).
-/

namespace Xv6Swap.Queue

open Pool Interleave

/-- `get_avg_disk_latency` -/
def DiskQueue.getAvgDiskLatency {β ι : Type*} (q : DiskQueue β ι) : UInt64 :=
  if q.reqCount > 0 then q.totalLatency / q.reqCount else 0

/-! ## The history -/

/-- A request that has been booked. -/
structure Booked where
  blockno : ℤ
  type : Int32
  deriving DecidableEq

/-- The block of the last request, the initial head if there is none. -/
def lastBlock (hist : List Booked) : ℤ := (hist.map Booked.blockno).getLastD 0

/-- The sum of the latencies of the requests, from a head at `head`. -/
def latencySum (head : ℤ) : List Booked → ℕ
  | [] => 0
  | x :: hist => (x.blockno - head).natAbs + 5 + latencySum x.blockno hist

theorem lastBlock_append (hist : List Booked) (x : Booked) :
    lastBlock (hist ++ [x]) = x.blockno := by
  simp [lastBlock]

theorem latencySum_append (hist : List Booked) (x : Booked) (head : ℤ) :
    latencySum head (hist ++ [x]) = latencySum head hist +
      ((x.blockno - (hist.map Booked.blockno).getLastD head).natAbs + 5) := by
  induction hist generalizing head with
  | nil => simp [latencySum]
  | cons y hist ih =>
    have hlast : ((y :: hist).map Booked.blockno).getLastD head =
        (hist.map Booked.blockno).getLastD y.blockno := by
      rw [List.map_cons, List.getLastD_cons]
    rw [List.cons_append, latencySum, latencySum, ih, hlast]
    omega

theorem length_le_latencySum (hist : List Booked) (head : ℤ) :
    5 * hist.length ≤ latencySum head hist := by
  induction hist generalizing head with
  | nil => simp
  | cons y hist ih =>
    have := ih y.blockno
    simp only [latencySum, List.length_cons]
    omega

variable {β ι : Type*}

/-- The section that books a request takes the dispatcher from `account` to `transfer`. -/
def recordBooked (_ : ι) (before after : Pc × DiskState β ι) (hist : List Booked) : List Booked :=
  match before.1, after.1 with
  | .account _ r _, .transfer _ _ =>
    hist ++ [⟨(before.2.q.pool r).blockno.toInt, (before.2.q.pool r).type⟩]
  | _, _ => hist

/-- The queue with the history of booked requests. -/
def bookedSystem (β ι : Type*) : System ι (Action β ι) Pc (DiskState β ι × List Booked) :=
  (diskSystem β ι).withGhost recordBooked

def bookedStart (β ι : Type*) : Cfg ι Pc (DiskState β ι × List Booked) :=
  ⟨fun _ => .idle, ⟨binit β ι, []⟩, []⟩

/-! ## Arithmetic -/

theorem toInt_toInt32_nonneg {n : UInt32} (h : n.toNat < 2 ^ 31) : 0 ≤ n.toInt32.toInt := by
  have hnat : n.toInt32.toInt = n.toNat := BitVec.toInt_eq_toNat_of_lt (by
    change 2 * n.toNat < 2 ^ 32
    omega)
  omega

/-- The latency added to the total, if it fits an `int`. -/
theorem toUInt64_latency {a b : Int32} (ha : 0 ≤ a.toInt) (hb : 0 ≤ b.toInt)
    (hfit : (a.toInt - b.toInt).natAbs + 5 < 2 ^ 31) :
    (DiskQueue.distance a b + diskLatencyC).toInt64.toUInt64 =
      UInt64.ofNat ((a.toInt - b.toInt).natAbs + 5) := by
  have hsum : (DiskQueue.distance a b + diskLatencyC).toInt =
      ((a.toInt - b.toInt).natAbs : ℤ) + 5 := by
    have hc : diskLatencyC.toInt = 5 := rfl
    rw [Int32.toInt_add, DiskQueue.toInt_distance ha hb, hc]
    exact Int.bmod_eq_of_le (by omega) (by omega)
  have hcast : (((a.toInt - b.toInt).natAbs + 5 : ℕ) : ℤ) =
      ((a.toInt - b.toInt).natAbs : ℤ) + 5 := by push_cast; rfl
  rw [← Int64.ofInt_int32ToInt, hsum, ← hcast, Int64.ofInt_eq_ofNat, ← UInt64.toInt64_ofNat',
    UInt64.toUInt64_toInt64]

/-! ## Steps -/

/-- A step with action `a` that books nothing: the statistics stay, and so does the block number of
every request in use; a new block number is the one submitted. -/
structure Unbooked (a : Action β ι) (q q' : DiskQueue β ι) : Prop where
  diskHead : q'.diskHead = q.diskHead
  reads : q'.reads = q.reads
  writes : q'.writes = q.writes
  totalLatency : q'.totalLatency = q.totalLatency
  reqCount : q'.reqCount = q.reqCount
  used : ∀ r, (q.pool r).used = true → (q'.pool r).blockno = (q.pool r).blockno
  fresh : ∀ r, (q'.pool r).blockno = (q.pool r).blockno ∨
    ∃ b blockno type, a = .submit b blockno type ∧ (q'.pool r).blockno = blockno.toInt32

theorem Unbooked.refl (a : Action β ι) (q : DiskQueue β ι) : Unbooked a q q :=
  ⟨rfl, rfl, rfl, rfl, rfl, fun _ _ => rfl, fun _ => .inl rfl⟩

theorem Unbooked.modify (a : Action β ι) (q : DiskQueue β ι) (r : ReqIdx)
    {f : DiskRequest β ι → DiskRequest β ι} (hf : (f (q.pool r)).blockno = (q.pool r).blockno) :
    Unbooked a q (q.modify r f) := by
  have hpool : ∀ s, ((q.modify r f).pool s).blockno = (q.pool s).blockno := by
    intro s
    simp only [DiskQueue.modify, Function.update_apply]
    split
    · rename_i hs
      rw [hf, hs]
    · rfl
  exact ⟨rfl, rfl, rfl, rfl, rfl, fun s _ => hpool s, fun s => .inl (hpool s)⟩

theorem unbooked_awaitRequest (a : Action β ι) (i : ι) (own : ReqIdx) (d : DiskState β ι) :
    Unbooked a d.q (awaitRequest i own d).2.q := by
  unfold awaitRequest
  split
  · have h := Unbooked.modify a d.q own (f := fun e => { e with used := false, completed := false })
      rfl
    exact ⟨h.diskHead, h.reads, h.writes, h.totalLatency, h.reqCount, h.used, h.fresh⟩
  · exact .refl a d.q

/-- The request a process is about to book, and its latency. -/
def Pc.booking : Pc → Option (ReqIdx × Int32)
  | .account _ r latency => some (r, latency)
  | _ => none

theorem booking_awaitRequest (i : ι) (own : ReqIdx) (d : DiskState β ι) :
    (awaitRequest i own d).1.booking = none := by
  unfold awaitRequest
  split <;> rfl

/-- The entry is allocated and filled in; nothing else changes but the list. -/
theorem fillRequest_eq (i : ι) (b : β) (blockno : UInt32) (type : Int32) {req : ReqIdx}
    {q q' : DiskQueue β ι} (halloc : q.allocReq = some (req, q')) :
    ∃ e next head, fillRequest i b blockno type req q' =
      { q with pool := Function.update q.pool req e, next := next, head := head } ∧
        e.blockno = blockno.toInt32 ∧ e.completed = false := by
  obtain ⟨-, rfl⟩ := DiskQueue.allocReq_eq_some halloc
  obtain ⟨next, head, h⟩ := DiskQueue.enqueueDiskRequestLocked_eq
    (((q.modify req fun e => { e with used := true, completed := false }).setNext req none).modify
      req fun e => { e with b := some b, blockno := blockno.toInt32, type := type, proc := some i })
    req
  refine ⟨⟨some b, blockno.toInt32, type, some i, true, false⟩, next, head, h.trans ?_, rfl, rfl⟩
  simp [DiskQueue.modify, DiskQueue.setNext]

theorem unbooked_fillRequest (i : ι) (b : β) (blockno : UInt32) (type : Int32) {req : ReqIdx}
    {q q' : DiskQueue β ι} (halloc : q.allocReq = some (req, q')) :
    Unbooked (.submit b blockno type) q (fillRequest i b blockno type req q') := by
  obtain ⟨e, next, head, heq, hblock, -⟩ := fillRequest_eq i b blockno type halloc
  obtain ⟨hfree, -⟩ := DiskQueue.allocReq_eq_some halloc
  rw [heq]
  refine ⟨rfl, rfl, rfl, rfl, rfl, fun r hused => ?_, fun r => ?_⟩
  · have hr : r ≠ req := by
      rintro rfl
      rw [hfree] at hused
      cases hused
    exact congrArg DiskRequest.blockno (Function.update_of_ne hr e q.pool)
  · by_cases hr : r = req
    · subst hr
      refine .inr ⟨b, blockno, type, rfl, ?_⟩
      exact (congrArg DiskRequest.blockno (Function.update_self r e q.pool)).trans hblock
    · exact .inl (congrArg DiskRequest.blockno (Function.update_of_ne hr e q.pool))

theorem DiskQueue.dequeueDiskRequestLocked_eq (level : ι → Int32) (q : DiskQueue β ι) :
    ∃ o next head,
      q.dequeueDiskRequestLocked level = (o, { q with next := next, head := head }) := by
  unfold dequeueDiskRequestLocked
  split
  · exact ⟨none, q.next, q.head, rfl⟩
  · rename_i h _
    dsimp only
    generalize (if q.policy = 1 then _ else _ : Selection) = s
    obtain ⟨next, head, hunlink⟩ := q.unlink_eq s
    exact ⟨some s.selected, next, head, by rw [hunlink]⟩

/-- What a step does to the statistics. -/
inductive BookStep (a : Action β ι) : Pc → DiskState β ι → Pc → DiskState β ι → Prop
  | seek (own r : ReqIdx) (d : DiskState β ι) (level : ι → Int32) (ha : a = .run level) :
      BookStep a (.seek own r) d
        (.account own r (DiskQueue.distance (d.q.pool r).blockno d.q.diskHead + diskLatencyC)) d
  | account (own r : ReqIdx) (latency : Int32) (d : DiskState β ι) :
      BookStep a (.account own r latency) d (.transfer own r)
        { d with q := accountRequest r latency d.q }
  | other {pc pc' : Pc} {d d' : DiskState β ι} (hq : Unbooked a d.q d'.q)
      (hpc : pc' = pc ∨ pc.booking = none ∧ pc'.booking = none) : BookStep a pc d pc' d'

theorem bookStep_of_runStep {i : ι} {level : ι → Int32} {pc pc' : Pc} {d d' : DiskState β ι}
    (h : runStep i level d pc = some (pc', d')) : BookStep (.run level) pc d pc' d' := by
  cases pc with
  | idle => cases h
  | panicked => cases h
  | dequeue own =>
    obtain ⟨o, next, head, hdeq⟩ := d.q.dequeueDiskRequestLocked_eq level
    simp only [runStep, hdeq] at h
    cases o with
    | none =>
      obtain ⟨rfl, rfl⟩ := Prod.mk.inj (Option.some.inj h)
      exact .other ⟨rfl, rfl, rfl, rfl, rfl, fun _ _ => rfl, fun _ => .inl rfl⟩ (.inr ⟨rfl, rfl⟩)
    | some r =>
      obtain ⟨rfl, rfl⟩ := Prod.mk.inj (Option.some.inj h)
      exact .other ⟨rfl, rfl, rfl, rfl, rfl, fun _ _ => rfl, fun _ => .inl rfl⟩ (.inr ⟨rfl, rfl⟩)
  | seek own r =>
    obtain ⟨rfl, rfl⟩ := Prod.mk.inj (Option.some.inj h)
    exact .seek own r d level rfl
  | account own r latency =>
    obtain ⟨rfl, rfl⟩ := Prod.mk.inj (Option.some.inj h)
    exact .account own r latency d
  | transfer own r =>
    obtain ⟨rfl, rfl⟩ := Prod.mk.inj (Option.some.inj h)
    exact .other (.refl _ d.q) (.inr ⟨rfl, rfl⟩)
  | complete own r =>
    obtain ⟨rfl, rfl⟩ := Prod.mk.inj (Option.some.inj h)
    exact .other (.modify (f := fun e => { e with completed := true }) _ d.q r rfl)
      (.inr ⟨rfl, rfl⟩)
  | returned own =>
    obtain ⟨rfl, rfl⟩ := Prod.mk.inj (Option.some.inj h)
    exact .other (unbooked_awaitRequest _ i own d) (.inr ⟨rfl, booking_awaitRequest i own d⟩)
  | sleeping own =>
    obtain ⟨rfl, rfl⟩ := Prod.mk.inj (Option.some.inj h)
    exact .other (unbooked_awaitRequest _ i own d) (.inr ⟨rfl, booking_awaitRequest i own d⟩)

theorem bookStep_of_submit (i : ι) (b : β) (blockno : UInt32) (type : Int32)
    (d : DiskState β ι) : BookStep (.submit b blockno type) .idle d
      (submitDiskRequest i b blockno type d).1 (submitDiskRequest i b blockno type d).2 := by
  unfold submitDiskRequest
  cases halloc : d.q.allocReq with
  | none => exact .other (.refl _ d.q) (.inr ⟨rfl, rfl⟩)
  | some x =>
    obtain ⟨req, q⟩ := x
    have hfill := unbooked_fillRequest i b blockno type halloc
    dsimp only
    split
    · exact .other ⟨hfill.diskHead, hfill.reads, hfill.writes, hfill.totalLatency,
        hfill.reqCount, hfill.used, hfill.fresh⟩ (.inr ⟨rfl, rfl⟩)
    · -- the new request is not completed, so the process goes to sleep
      obtain ⟨e, next, head, heq, -, hcompleted⟩ := fillRequest_eq i b blockno type halloc
      have hsleep : ((fillRequest i b blockno type req q).pool req).completed = false := by
        rw [heq]
        exact (congrArg DiskRequest.completed (Function.update_self req e d.q.pool)).trans
          hcompleted
      rw [awaitRequest, if_neg (by simp [hsleep])]
      exact .other hfill (.inr ⟨rfl, rfl⟩)

theorem bookStep_of_next {i : ι} {a : Action β ι} {pc pc' : Pc} {d d' : DiskState β ι}
    (h : (diskSystem β ι).next i a pc d = some (pc', d')) : BookStep a pc d pc' d' := by
  cases a with
  | setDiskPolicy policy =>
    obtain ⟨rfl, rfl⟩ := Prod.mk.inj (Option.some.inj h)
    exact .other ⟨rfl, rfl, rfl, rfl, rfl, fun _ _ => rfl, fun _ => .inl rfl⟩ (.inl rfl)
  | run level => exact bookStep_of_runStep h
  | submit b blockno type =>
    cases pc with
    | idle =>
      have hstep := bookStep_of_submit i b blockno type d
      rwa [Option.some.inj h] at hstep
    | _ => cases h

/-! ## The invariant -/

variable [DecidableEq β] [DecidableEq ι]

omit [DecidableEq β] [DecidableEq ι] in
/-- The statistics are those of the history, as far as the counters reach. -/
structure Booking (hist : List Booked) (q : DiskQueue β ι) : Prop where
  diskHead : q.diskHead.toInt = lastBlock hist
  reads : q.reads = UInt64.ofNat (hist.countP fun x => x.type = diskReqRead)
  writes : q.writes = UInt64.ofNat (hist.countP fun x => x.type ≠ diskReqRead)
  totalLatency : q.totalLatency = UInt64.ofNat (latencySum 0 hist)
  reqCount : q.reqCount = UInt64.ofNat hist.length

/-- The submitted block numbers are below `2^31`, and a dispatcher computes a latency only where it
fits an `int`. -/
def SeeksFit (c : Cfg ι Pc (DiskState β ι × List Booked)) (i : ι) (a : Action β ι) : Prop :=
  match a, c.loc i with
  | .submit _ blockno _, _ => blockno.toNat < 2 ^ 31
  | .run _, .seek _ r =>
    ((c.mem.1.q.pool r).blockno.toInt - c.mem.1.q.diskHead.toInt).natAbs + 5 < 2 ^ 31
  | _, _ => True

instance (c : Cfg ι Pc (DiskState β ι × List Booked)) (i : ι) (a : Action β ι) :
    Decidable (SeeksFit c i a) := by
  unfold SeeksFit
  split <;> infer_instance

structure StatInv (c : Cfg ι Pc (DiskState β ι × List Booked)) : Prop where
  dispatch : DispatchInv c.erase
  head_nonneg : 0 ≤ c.mem.1.q.diskHead.toInt
  nonneg : ∀ r, 0 ≤ (c.mem.1.q.pool r).blockno.toInt
  /-- a latency that is about to be booked is still the right one -/
  latency : ∀ i r latency, (c.loc i).booking = some (r, latency) →
    latency = DiskQueue.distance (c.mem.1.q.pool r).blockno c.mem.1.q.diskHead + diskLatencyC ∧
      ((c.mem.1.q.pool r).blockno.toInt - c.mem.1.q.diskHead.toInt).natAbs + 5 < 2 ^ 31
  booking : Booking c.mem.2 c.mem.1.q

theorem statInv_start : StatInv (bookedStart β ι) where
  dispatch := dispatchInv_start
  head_nonneg := le_refl _
  nonneg _ := le_refl _
  latency i r latency h := by cases h
  booking := ⟨rfl, rfl, rfl, rfl, rfl⟩

theorem DispatchInv.used_of_hand {c : Cfg ι Pc (DiskState β ι)} (hinv : DispatchInv c) {i : ι}
    {r : ReqIdx} {m : Bool} (h : (c.loc i).hand = some (r, m)) :
    (c.mem.q.pool r).used = true := by
  have hentry := hinv.entry r
  unfold EntryInv at hentry
  generalize life c.mem.log r = st at hentry
  cases hentry with
  | free _ _ _ hhand => exact absurd ⟨i, h⟩ (hhand m)
  | queued hused => exact hused
  | inHand hused => exact hused
  | moved hused => exact hused
  | completed hused => exact hused

omit [DecidableEq β] [DecidableEq ι] in
theorem Pc.hand_of_booking {pc : Pc} {r : ReqIdx} {latency : Int32}
    (h : pc.booking = some (r, latency)) : pc.hand = some (r, false) := by
  cases pc with
  | account own s l =>
    obtain ⟨rfl, rfl⟩ := Prod.mk.inj (Option.some.inj h)
    rfl
  | _ => cases h

omit [DecidableEq β] [DecidableEq ι] in
theorem recordBooked_of_booking {i : ι} {pc pc' : Pc} {d d' : DiskState β ι}
    (hpc : pc' = pc ∨ pc.booking = none ∧ pc'.booking = none) (hist : List Booked) :
    recordBooked i (pc, d) (pc', d') hist = hist := by
  cases pc with
  | account own r latency =>
    rcases hpc with rfl | ⟨h, -⟩
    · rfl
    · cases h
  | _ => rfl

omit [DecidableEq β] [DecidableEq ι] in
/-- Booking a request whose latency is right. -/
theorem Booking.account {hist : List Booked} {q : DiskQueue β ι} (h : Booking hist q) {r : ReqIdx}
    (hhead : 0 ≤ q.diskHead.toInt) (hblock : 0 ≤ (q.pool r).blockno.toInt)
    (hfit : ((q.pool r).blockno.toInt - q.diskHead.toInt).natAbs + 5 < 2 ^ 31) :
    Booking (hist ++ [⟨(q.pool r).blockno.toInt, (q.pool r).type⟩])
      (accountRequest r (DiskQueue.distance (q.pool r).blockno q.diskHead + diskLatencyC) q) := by
  refine ⟨?_, ?_, ?_, ?_, ?_⟩
  · rw [lastBlock_append]
    rfl
  · rw [List.countP_append, UInt64.ofNat_add, ← h.reads]
    simp only [accountRequest, List.countP_singleton, decide_eq_true_eq]
    split <;> simp
  · rw [List.countP_append, UInt64.ofNat_add, ← h.writes]
    simp only [accountRequest, List.countP_singleton, decide_eq_true_eq, ne_eq, ite_not]
    split <;> simp
  · rw [latencySum_append, UInt64.ofNat_add, ← h.totalLatency]
    change q.totalLatency + _ = q.totalLatency + _
    rw [toUInt64_latency hblock hhead hfit, h.diskHead]
    rfl
  · rw [List.length_append, UInt64.ofNat_add, ← h.reqCount]
    rfl

section Step

variable {c : Cfg ι Pc (DiskState β ι × List Booked)} {i : ι} {a : Action β ι}

theorem StatInv.step (hinv : StatInv c) (hok : SeeksFit c i a) {l : Pc}
    {g : DiskState β ι × List Booked}
    (h : (bookedSystem β ι).next i a (c.loc i) c.mem = some (l, g)) :
    StatInv ⟨Function.update c.loc i l, g⟩ := by
  obtain ⟨hn, hghost⟩ := System.withGhost_next h
  have hdispatch := hinv.dispatch.step hn
  obtain ⟨d', hist'⟩ := g
  dsimp only at hghost hn
  subst hghost
  have hstep := bookStep_of_next hn
  generalize hpc : c.loc i = pc at hstep hdispatch
  generalize hmem : c.mem.1 = d at hstep
  cases hstep with
  | seek own r d level ha =>
    subst ha hmem
    simp only [SeeksFit, hpc] at hok
    refine ⟨hdispatch, hinv.head_nonneg, hinv.nonneg, fun j s latency hj => ?_, hinv.booking⟩
    by_cases hji : j = i
    · subst hji
      simp only [Function.update_self, Pc.booking, Option.some.injEq, Prod.mk.injEq] at hj
      obtain ⟨rfl, rfl⟩ := hj
      exact ⟨rfl, hok⟩
    · simp only [Function.update_of_ne hji] at hj
      exact hinv.latency j s latency hj
  | account own r latency d =>
    subst hmem
    have hi : (c.loc i).inDispatcher := by
      rw [hpc]
      trivial
    obtain ⟨rfl, hfit⟩ := hinv.latency i r latency (by rw [hpc]; rfl)
    refine ⟨hdispatch, hinv.nonneg r, hinv.nonneg, fun j s latency hj => ?_,
      hinv.booking.account hinv.head_nonneg (hinv.nonneg r) hfit⟩
    by_cases hji : j = i
    · subst hji
      simp only [Function.update_self] at hj
      cases hj
    · -- nobody else is in the dispatcher, so no other latency was computed from the old head
      simp only [Function.update_of_ne hji] at hj
      have hj' : (c.loc j).inDispatcher := Pc.inDispatcher_of_hand (Pc.hand_of_booking hj)
      exact absurd (hinv.dispatch.unique j i hj' hi) hji
  | other hq hpc' =>
    subst hmem hpc
    rw [recordBooked_of_booking hpc']
    have hbook := hinv.booking
    refine ⟨hdispatch, ?_, fun r => ?_, fun j r latency hj => ?_, ?_⟩
    · rw [hq.diskHead]
      exact hinv.head_nonneg
    · rcases hq.fresh r with heq | ⟨b, blockno, type, rfl, heq⟩
      · rw [heq]
        exact hinv.nonneg r
      · rw [heq]
        exact toInt_toInt32_nonneg hok
    · have hj' : (c.loc j).booking = some (r, latency) := by
        by_cases hji : j = i
        · subst hji
          simp only [Function.update_self] at hj
          rcases hpc' with rfl | ⟨-, hnone⟩
          · exact hj
          · rw [hnone] at hj
            cases hj
        · simpa only [Function.update_of_ne hji] using hj
      have hused := hinv.dispatch.used_of_hand (Pc.hand_of_booking hj')
      rw [hq.used r hused, hq.diskHead]
      exact hinv.latency j r latency hj'
    · exact ⟨hq.diskHead ▸ hbook.diskHead, hq.reads ▸ hbook.reads, hq.writes ▸ hbook.writes,
        hq.totalLatency ▸ hbook.totalLatency, hq.reqCount ▸ hbook.reqCount⟩

end Step

/-! ## The statistics -/

/-- The statistics are exactly those of the history. -/
structure Exact (hist : List Booked) (q : DiskQueue β ι) : Prop where
  reqCount : q.reqCount.toNat = hist.length
  reads : q.reads.toNat = hist.countP fun x => x.type = diskReqRead
  writes : q.writes.toNat = hist.countP fun x => x.type ≠ diskReqRead
  writes_of_types : (∀ x ∈ hist, x.type = diskReqRead ∨ x.type = diskReqWrite) →
    q.writes.toNat = hist.countP fun x => x.type = diskReqWrite
  sum : q.reads.toNat + q.writes.toNat = hist.length
  diskHead : q.diskHead.toInt = lastBlock hist
  totalLatency : q.totalLatency.toNat = latencySum 0 hist
  average_zero : hist = [] → q.getAvgDiskLatency = 0
  average : hist ≠ [] → q.getAvgDiskLatency.toNat = latencySum 0 hist / hist.length ∧
    5 ≤ q.getAvgDiskLatency.toNat

omit [DecidableEq β] [DecidableEq ι] in
theorem Booking.exact {hist : List Booked} {q : DiskQueue β ι} (h : Booking hist q)
    (hwrap : latencySum 0 hist < 2 ^ 64) : Exact hist q := by
  have hlen := length_le_latencySum hist 0
  have htoNat : ∀ n ≤ hist.length, (UInt64.ofNat n).toNat = n := fun n hn =>
    UInt64.toNat_ofNat_of_lt' (by simp only [UInt64.size]; omega)
  have hcount : q.reqCount.toNat = hist.length := by rw [h.reqCount, htoNat _ le_rfl]
  have hreads : q.reads.toNat = hist.countP fun x => x.type = diskReqRead := by
    rw [h.reads, htoNat _ List.countP_le_length]
  have hwrites : q.writes.toNat = hist.countP fun x => x.type ≠ diskReqRead := by
    rw [h.writes, htoNat _ List.countP_le_length]
  have htotal : q.totalLatency.toNat = latencySum 0 hist := by
    rw [h.totalLatency]
    exact UInt64.toNat_ofNat_of_lt' hwrap
  refine ⟨hcount, hreads, hwrites, fun htypes => ?_, ?_, h.diskHead, htotal, fun hnil => ?_,
    fun hne => ?_⟩
  · rw [hwrites]
    refine List.countP_congr fun x hx => ?_
    rcases htypes x hx with heq | heq <;> simp [heq, diskReqRead, diskReqWrite]
  · rw [hreads, hwrites, List.length_eq_countP_add_countP (fun x => x.type = diskReqRead)]
    simp
  · subst hnil
    rw [DiskQueue.getAvgDiskLatency, if_neg]
    rw [h.reqCount]
    decide
  · have hpos : 0 < hist.length := List.length_pos_iff.2 hne
    have havg : q.getAvgDiskLatency = q.totalLatency / q.reqCount := by
      refine if_pos ?_
      rw [gt_iff_lt, UInt64.lt_iff_toNat_lt, hcount]
      exact hpos
    rw [havg, UInt64.toNat_div, htotal, hcount]
    exact ⟨rfl, (Nat.le_div_iff_mul_le hpos).2 hlen⟩

/-- **The disk statistics are the history of the booked requests**, in every run in which the block
numbers are below `2^31` and every latency fits an `int`, as long as the total has not wrapped. -/
theorem statistics_exact (c : Cfg ι Pc (DiskState β ι × List Booked))
    (hrun : (bookedSystem β ι).Reaches SeeksFit (bookedStart β ι) c)
    (hwrap : latencySum 0 c.mem.2 < 2 ^ 64) : Exact c.mem.2 c.mem.1.q := by
  have hinv : StatInv c :=
    hrun.inv (fun _ _ _ _ _ hok hinv hn => hinv.step hok hn) statInv_start
  exact hinv.booking.exact hwrap

theorem overlappingSubmits_fit : ((bookedSystem ℕ (Fin 2)).execWhile SeeksFit overlappingSubmits
    (bookedStart ℕ (Fin 2))).isSome := by
  decide +kernel

/-- One request has been booked, the read of block 100. -/
theorem statistics_exact_overlappingSubmits :
    ∃ c : Cfg (Fin 2) Pc (DiskState ℕ (Fin 2) × List Booked),
      c.mem.2 = [⟨100, diskReqRead⟩] ∧ c.mem.1.q.totalLatency.toNat = 105 := by
  have hhist : ((((bookedSystem ℕ (Fin 2)).execWhile SeeksFit overlappingSubmits
      (bookedStart ℕ (Fin 2))).get overlappingSubmits_fit).mem).2 = [⟨100, diskReqRead⟩] := by
    decide +kernel
  have hexact := statistics_exact _
    (System.reaches_of_execWhile (Option.some_get overlappingSubmits_fit).symm)
    (by rw [hhist]; decide)
  refine ⟨_, hhist, ?_⟩
  rw [hexact.totalLatency, hhist]
  rfl

/-- A read of the last block below `2^31`, up to its booking. -/
def farSeek : List (Fin 1 × Action ℕ (Fin 1)) :=
  [(0, .submit 7 2147483647 diskReqRead), (0, .run fun _ => 0), (0, .run fun _ => 0),
    (0, .run fun _ => 0)]

theorem farSeek_runs :
    ((bookedSystem ℕ (Fin 1)).exec farSeek (bookedStart ℕ (Fin 1))).isSome := by
  decide +kernel

/-- The distance fits an `int`, the latency does not: it becomes negative. -/
theorem latency_overflows : ∃ c : Cfg (Fin 1) Pc (DiskState ℕ (Fin 1) × List Booked),
    (bookedSystem ℕ (Fin 1)).Reaches System.any (bookedStart ℕ (Fin 1)) c ∧
      c.mem.2 = [⟨2147483647, diskReqRead⟩] ∧ latencySum 0 c.mem.2 = 2147483652 ∧
      c.mem.1.q.totalLatency.toNat = 2 ^ 64 - 2147483644 := by
  refine ⟨_, System.reaches_of_exec (Option.some_get farSeek_runs).symm, ?_, ?_, ?_⟩
  · decide +kernel
  · decide +kernel
  · decide +kernel

end Xv6Swap.Queue
