import Xv6Swap.Queue.Dispatch

/-!
# Every request is served exactly once

The invariant `DispatchInv` of the disk queue ties the log to the linked list and the fields of the
pool. Its core is `EntryOk`, the possible states of one pool entry: free, queued, in the hands of
the dispatcher before or after the transfer, or completed. Each step of a process moves one entry
from one of these states to the next and leaves the others alone (`EntryInv.frame`), so the proof is
one lemma for each step. `queue_serves_once` states the result.
-/

namespace Xv6Swap.Queue

open Pool Interleave

variable {β ι : Type*}

/-! ## The invariant -/

/-- The request of the process. -/
def Pc.own : Pc → Option ReqIdx
  | .idle => none
  | .dequeue own => some own
  | .seek own _ => some own
  | .account own _ _ => some own
  | .transfer own _ => some own
  | .complete own _ => some own
  | .returned own => some own
  | .sleeping own => some own
  | .panicked => none

/-- The request the process is serving, and whether it has been passed to the disk. -/
def Pc.hand : Pc → Option (ReqIdx × Bool)
  | .seek _ r => some (r, false)
  | .account _ r _ => some (r, false)
  | .transfer _ r => some (r, false)
  | .complete _ r => some (r, true)
  | _ => none

/-- The process is inside `run_disk_dispatcher`, or about to enter it. -/
def Pc.inDispatcher : Pc → Prop
  | .dequeue _ => True
  | .seek _ _ => True
  | .account _ _ _ => True
  | .transfer _ _ => True
  | .complete _ _ => True
  | _ => False

/-- The states of an entry `e`: whether it is queued, who owns it and whether some process serves
it (before or after the transfer) agree with its fields and its life. -/
inductive EntryOk (e : DiskRequest β ι) (queued : Prop) (owns : ι → Prop) (hand : Bool → Prop) :
    Option (Life β ι) → Prop
  | free (hused : e.used = false) (hq : ¬ queued) (howns : ∀ i, ¬ owns i) (hhand : ∀ m, ¬ hand m) :
      EntryOk e queued owns hand (some .free)
  | queued {i : ι} {b : β} (hused : e.used = true) (hcompleted : e.completed = false)
      (hb : e.b = some b) (hq : queued) (howns : ∀ j, owns j ↔ j = i) (hhand : ∀ m, ¬ hand m) :
      EntryOk e queued owns hand (some (.pending i b e.type))
  | inHand {i : ι} {b : β} (hused : e.used = true) (hcompleted : e.completed = false)
      (hb : e.b = some b) (hq : ¬ queued) (howns : ∀ j, owns j ↔ j = i)
      (hhand : ∀ m, hand m ↔ m = false) : EntryOk e queued owns hand (some (.pending i b e.type))
  | moved {i : ι} (hused : e.used = true) (hcompleted : e.completed = false) (hq : ¬ queued)
      (howns : ∀ j, owns j ↔ j = i) (hhand : ∀ m, hand m ↔ m = true) :
      EntryOk e queued owns hand (some (.served i))
  | completed {i : ι} (hused : e.used = true) (hcompleted : e.completed = true) (hq : ¬ queued)
      (howns : ∀ j, owns j ↔ j = i) (hhand : ∀ m, ¬ hand m) :
      EntryOk e queued owns hand (some (.served i))

theorem EntryOk.congr {e : DiskRequest β ι} {queued queued' : Prop} {owns owns' : ι → Prop}
    {hand hand' : Bool → Prop} {s : Option (Life β ι)} (h : EntryOk e queued owns hand s)
    (hq : queued' ↔ queued) (howns : ∀ i, owns' i ↔ owns i) (hhand : ∀ m, hand' m ↔ hand m) :
    EntryOk e queued' owns' hand' s := by
  obtain rfl : queued' = queued := propext hq
  obtain rfl : owns' = owns := funext fun i => propext (howns i)
  obtain rfl : hand' = hand := funext fun m => propext (hhand m)
  exact h

variable [DecidableEq β] [DecidableEq ι]

/-- Entry `r` is in order in the configuration `c`. -/
def EntryInv (c : Cfg ι Pc (DiskState β ι)) (r : ReqIdx) : Prop :=
  EntryOk (c.mem.q.pool r) (r ∈ pending c.mem.log) (fun i => (c.loc i).own = some r)
    (fun m => ∃ i, (c.loc i).hand = some (r, m)) (life c.mem.log r)

structure DispatchInv (c : Cfg ι Pc (DiskState β ι)) : Prop where
  /-- the list from `disk_queue.head` -/
  linked : Linked c.mem.q.next c.mem.q.head (pending c.mem.log)
  busy_iff : c.mem.q.busy = true ↔ ∃ i, (c.loc i).inDispatcher
  unique : ∀ i j, (c.loc i).inDispatcher → (c.loc j).inDispatcher → i = j
  busy_of_pending : pending c.mem.log ≠ [] → c.mem.q.busy = true
  entry : ∀ r, EntryInv c r
  returned : ∀ i own, c.loc i = .returned own → (c.mem.q.pool own).completed = true

theorem dispatchInv_start : DispatchInv (diskStart β ι) where
  linked := rfl
  busy_iff := by simp [diskStart, binit, Pc.inDispatcher]
  unique i j hi := by simp [diskStart, Pc.inDispatcher] at hi
  busy_of_pending h := absurd rfl h
  entry r := .free rfl (by simp [diskStart, pending]) (by simp [diskStart, Pc.own])
    (by simp [diskStart, Pc.hand])
  returned i own h := by simp [diskStart] at h

theorem life_append_of_ne {log : List (Event β ι)} {e : Event β ι} {r : ReqIdx}
    (h : e.entry ≠ some r) : life (log ++ [e]) r = life log r := by
  simp [life, h]

theorem life_append {log : List (Event β ι)} {e : Event β ι} {r : ReqIdx}
    (h : e.entry = some r) : life (log ++ [e]) r = (life log r).bind (·.next e) := by
  simp [life, h]

/-! ## Steps -/

section Step

variable {c : Cfg ι Pc (DiskState β ι)} {i : ι} {l : Pc} {d : DiskState β ι}

omit [DecidableEq β] in
theorem own_update {j : ι} {r : ReqIdx} : (Function.update c.loc i l j).own = some r ↔
    (j = i ∧ l.own = some r) ∨ (j ≠ i ∧ (c.loc j).own = some r) := by
  by_cases hj : j = i
  · subst hj
    simp
  · simp [hj]

omit [DecidableEq β] in
theorem hand_update {x : ReqIdx × Bool} : (∃ j, (Function.update c.loc i l j).hand = some x) ↔
    l.hand = some x ∨ ∃ j ≠ i, (c.loc j).hand = some x := by
  constructor
  · rintro ⟨j, hj⟩
    by_cases hji : j = i
    · subst hji
      exact .inl (by simpa using hj)
    · exact .inr ⟨j, hji, by simpa [hji] using hj⟩
  · rintro (h | ⟨j, hji, hj⟩)
    · exact ⟨i, by simpa using h⟩
    · exact ⟨j, by simpa [hji] using hj⟩

theorem Pc.inDispatcher_of_hand {pc : Pc} {x : ReqIdx × Bool} (h : pc.hand = some x) :
    pc.inDispatcher := by
  cases pc <;> simp_all [Pc.hand, Pc.inDispatcher]

/-- Entries a step has nothing to do with stay in order. -/
theorem EntryInv.frame {r : ReqIdx} (h : EntryInv c r) (hpool : d.q.pool r = c.mem.q.pool r)
    (hpend : r ∈ pending d.log ↔ r ∈ pending c.mem.log) (hlife : life d.log r = life c.mem.log r)
    (hown : l.own = some r ↔ (c.loc i).own = some r)
    (hhand : ∀ m, l.hand = some (r, m) ↔ (c.loc i).hand = some (r, m)) :
    EntryInv ⟨Function.update c.loc i l, d⟩ r := by
  unfold EntryInv
  rw [hpool, hlife]
  refine EntryOk.congr h hpend (fun j => ?_) fun m => ?_
  · rw [own_update]
    by_cases hj : j = i
    · subst hj
      simp [hown]
    · simp [hj]
  · rw [hand_update, hhand m]
    constructor
    · rintro (h | ⟨j, -, h⟩)
      · exact ⟨i, h⟩
      · exact ⟨j, h⟩
    · rintro ⟨j, h⟩
      by_cases hj : j = i
      · exact .inl (hj ▸ h)
      · exact .inr ⟨j, hj, h⟩

/-- Only the dispatcher serves requests. -/
theorem DispatchInv.hand_update (hinv : DispatchInv c) (hi : (c.loc i).inDispatcher)
    {x : ReqIdx × Bool} :
    (∃ j, (Function.update c.loc i l j).hand = some x) ↔ l.hand = some x := by
  rw [Queue.hand_update]
  refine or_iff_left ?_
  rintro ⟨j, hj, h⟩
  exact hj (hinv.unique j i (Pc.inDispatcher_of_hand h) hi)

/-- A step that neither enters nor leaves the dispatcher. -/
theorem DispatchInv.dispatcher_keep (hinv : DispatchInv c)
    (hl : l.inDispatcher ↔ (c.loc i).inDispatcher) (hbusy : d.q.busy = c.mem.q.busy) :
    (d.q.busy = true ↔ ∃ j, (Function.update c.loc i l j).inDispatcher) ∧
      ∀ j k, (Function.update c.loc i l j).inDispatcher →
        (Function.update c.loc i l k).inDispatcher → j = k := by
  have hsame : ∀ j, (Function.update c.loc i l j).inDispatcher ↔ (c.loc j).inDispatcher := by
    intro j
    by_cases hj : j = i
    · subst hj
      simpa using hl
    · simp [hj]
  simp only [hsame, hbusy]
  exact ⟨hinv.busy_iff, hinv.unique⟩

theorem DispatchInv.not_inDispatcher (hinv : DispatchInv c) (hbusy : c.mem.q.busy = false)
    (j : ι) : ¬ (c.loc j).inDispatcher := by
  intro h
  have := hinv.busy_iff.2 ⟨j, h⟩
  simp [hbusy] at this

/-- A process whose dispatcher has returned is not affected by a step that completes requests or
changes only the entry `r` of the process taking it. -/
theorem DispatchInv.returned_step (hinv : DispatchInv c)
    (hl : ∀ own, l = .returned own → (d.q.pool own).completed = true)
    (hpool : ∀ r, (c.mem.q.pool r).completed = true →
      (d.q.pool r).completed = true ∨ ∀ j ≠ i, (c.loc j).own ≠ some r)
    (j : ι) (own : ReqIdx) (hj : Function.update c.loc i l j = .returned own) :
    (d.q.pool own).completed = true := by
  by_cases hji : j = i
  · subst hji
    exact hl own (by simpa using hj)
  · rw [Function.update_of_ne hji] at hj
    rcases hpool own (hinv.returned j own hj) with h | h
    · exact h
    · exact absurd (by rw [hj]; rfl) (h j hji)

/-- A step of a process that changes neither the pool nor the list nor the log. -/
theorem DispatchInv.local_step (hinv : DispatchInv c) (hown : l.own = (c.loc i).own)
    (hhand : l.hand = (c.loc i).hand) (hdisp : l.inDispatcher ↔ (c.loc i).inDispatcher)
    (hret : ∀ own, l = .returned own → (c.mem.q.pool own).completed = true) {q : DiskQueue β ι}
    (hpool : q.pool = c.mem.q.pool) (hnext : q.next = c.mem.q.next)
    (hhead : q.head = c.mem.q.head) (hbusy : q.busy = c.mem.q.busy) :
    DispatchInv ⟨Function.update c.loc i l, ⟨q, c.mem.log⟩⟩ := by
  obtain ⟨hbusy', hunique⟩ := hinv.dispatcher_keep (d := ⟨q, c.mem.log⟩) hdisp hbusy
  refine ⟨?_, hbusy', hunique, ?_, fun r => ?_, ?_⟩
  · rw [hnext, hhead]
    exact hinv.linked
  · rw [hbusy]
    exact hinv.busy_of_pending
  · exact (hinv.entry r).frame (congrFun hpool r) Iff.rfl rfl (by rw [hown]) fun m => by rw [hhand]
  · refine hinv.returned_step (fun own h => ?_) fun r h => .inl ?_
    · rw [hpool]
      exact hret own h
    · rw [hpool]
      exact h

/-- The queue is empty: the dispatcher returns, and its own request has been completed. -/
theorem DispatchInv.dispatcher_returns (hinv : DispatchInv c) {own : ReqIdx}
    (hpc : c.loc i = .dequeue own) (hempty : pending c.mem.log = []) :
    DispatchInv ⟨Function.update c.loc i (.returned own),
      { c.mem with q := { c.mem.q with busy := false } }⟩ := by
  have hi : (c.loc i).inDispatcher := by simp [hpc, Pc.inDispatcher]
  have hnone : ∀ j, ¬ (Function.update c.loc i (Pc.returned own) j).inDispatcher := by
    intro j
    by_cases hj : j = i
    · subst hj
      simp [Pc.inDispatcher]
    · rw [Function.update_of_ne hj]
      exact fun h => hj (hinv.unique j i h hi)
  -- nobody serves a request at this point, so what is not queued has been completed
  have hcompleted : (c.mem.q.pool own).completed = true := by
    have hhand : ∀ m, ¬ ∃ j, (c.loc j).hand = some (own, m) := by
      rintro m ⟨j, hj⟩
      obtain rfl := hinv.unique j i (Pc.inDispatcher_of_hand hj) hi
      simp [hpc, Pc.hand] at hj
    have howns : (c.loc i).own = some own := by simp [hpc, Pc.own]
    have hentry := hinv.entry own
    unfold EntryInv at hentry
    generalize life c.mem.log own = st at hentry
    cases hentry with
    | free _ _ h => exact absurd howns (h i)
    | queued _ _ _ h => simp [hempty] at h
    | inHand _ _ _ _ _ h => exact absurd ((h false).2 rfl) (hhand false)
    | moved _ _ _ _ h => exact absurd ((h true).2 rfl) (hhand true)
    | completed _ h => exact h
  refine ⟨hinv.linked, ?_, fun j k hj => absurd hj (hnone j), fun h => absurd hempty h,
    fun r => ?_, hinv.returned_step (fun own' h => ?_) fun r h => .inl h⟩
  · simp [hnone]
  · exact (hinv.entry r).frame rfl Iff.rfl rfl (by simp [hpc, Pc.own]) fun m => by
      simp [hpc, Pc.hand]
  · obtain rfl := Pc.returned.inj h
    exact hcompleted

/-- The dispatcher takes a request off the queue. -/
theorem DispatchInv.dispatches (hinv : DispatchInv c) {own r : ReqIdx}
    (hpc : c.loc i = .dequeue own) (hr : r ∈ pending c.mem.log) {next : ReqIdx → Option ReqIdx}
    {head : Option ReqIdx} (hlinked : Linked next head ((pending c.mem.log).erase r)) :
    DispatchInv ⟨Function.update c.loc i (.seek own r),
      ⟨{ c.mem.q with next := next, head := head }, c.mem.log ++ [.dispatched r]⟩⟩ := by
  have hi : (c.loc i).inDispatcher := by simp [hpc, Pc.inDispatcher]
  have hnodup := hinv.linked.nodup
  set d : DiskState β ι :=
    ⟨{ c.mem.q with next := next, head := head }, c.mem.log ++ [.dispatched r]⟩ with hd
  have hlife : ∀ s, life d.log s = life c.mem.log s := fun s =>
    life_append_of_ne (by simp [Event.entry])
  obtain ⟨hbusy, hunique⟩ := hinv.dispatcher_keep (i := i) (l := .seek own r) (d := d)
    (by simp [hpc, Pc.inDispatcher]) rfl
  refine ⟨?_, hbusy, hunique, fun _ => hinv.busy_iff.2 ⟨i, hi⟩, fun s => ?_,
    hinv.returned_step (fun own' h => by cases h) fun s h => .inl h⟩
  · rw [hd, pending_append_dispatched]
    exact hlinked
  by_cases hs : s = r
  · subst hs
    unfold EntryInv
    rw [hlife]
    have hentry := hinv.entry s
    unfold EntryInv at hentry
    generalize life c.mem.log s = st at hentry
    have hq : s ∉ pending d.log := by
      rw [hd, pending_append_dispatched]
      exact hnodup.not_mem_erase
    have hown : ∀ j, (Function.update c.loc i (Pc.seek own s) j).own = some s ↔
        (c.loc j).own = some s := by
      intro j
      rw [own_update]
      by_cases hj : j = i
      · subst hj
        simp [hpc, Pc.own]
      · simp [hj]
    have hhand : ∀ m, (∃ j, (Function.update c.loc i (Pc.seek own s) j).hand = some (s, m)) ↔
        m = false := by
      intro m
      rw [hinv.hand_update hi]
      simp [Pc.hand, eq_comm]
    cases hentry with
    | queued hused hcompleted hb _ howns _ =>
      exact .inHand hused hcompleted hb hq (fun j => (hown j).trans (howns j)) hhand
    | free _ h => exact absurd hr h
    | inHand _ _ _ h => exact absurd hr h
    | moved _ _ h => exact absurd hr h
    | completed _ _ h => exact absurd hr h
  · refine (hinv.entry s).frame rfl ?_ (hlife s) (by simp [hpc, Pc.own]) fun m => ?_
    · rw [hd, pending_append_dispatched]
      exact List.mem_erase_of_ne hs
    · simp [hpc, Pc.hand, Ne.symm hs]

/-- The dispatcher passes the request it serves to the disk. -/
theorem DispatchInv.transfers (hinv : DispatchInv c) {own r : ReqIdx}
    (hpc : c.loc i = .transfer own r) :
    DispatchInv ⟨Function.update c.loc i (.complete own r), { c.mem with
      log := c.mem.log ++
        [.diskRw r (c.mem.q.pool r).b ((c.mem.q.pool r).type == diskReqWrite)] }⟩ := by
  have hi : (c.loc i).inDispatcher := by simp [hpc, Pc.inDispatcher]
  have hpend := pending_append_diskRw c.mem.log r (c.mem.q.pool r).b
    ((c.mem.q.pool r).type == diskReqWrite)
  obtain ⟨hbusy, hunique⟩ := hinv.dispatcher_keep (i := i) (l := .complete own r) (d := c.mem)
    (by simp [hpc, Pc.inDispatcher]) rfl
  refine ⟨?_, hbusy, hunique, fun _ => hinv.busy_iff.2 ⟨i, hi⟩, fun s => ?_,
    hinv.returned_step (fun own' h => by cases h) fun s h => .inl h⟩
  · rw [hpend]
    exact hinv.linked
  by_cases hs : s = r
  · subst hs
    unfold EntryInv
    rw [hpend, life_append rfl]
    have hentry := hinv.entry s
    unfold EntryInv at hentry
    generalize life c.mem.log s = st at hentry
    have hserved : ∃ j, (c.loc j).hand = some (s, false) := ⟨i, by simp [hpc, Pc.hand]⟩
    have hown : ∀ j, (Function.update c.loc i (Pc.complete own s) j).own = some s ↔
        (c.loc j).own = some s := by
      intro j
      rw [own_update]
      by_cases hj : j = i
      · subst hj
        simp [hpc, Pc.own]
      · simp [hj]
    have hhand : ∀ m, (∃ j, (Function.update c.loc i (Pc.complete own s) j).hand = some (s, m)) ↔
        m = true := by
      intro m
      rw [hinv.hand_update hi]
      simp [Pc.hand, eq_comm]
    cases hentry with
    | @inHand k b hused hcompleted hb hq howns _ =>
      simp only [hb, Option.bind_some, Life.next, and_self, if_true]
      exact .moved hused hcompleted hq (fun j => (hown j).trans (howns j)) hhand
    | free _ _ _ h => exact absurd hserved (h false)
    | queued _ _ _ _ _ h => exact absurd hserved (h false)
    | moved _ _ _ _ h => simpa using (h false).1 hserved
    | completed _ _ _ _ h => exact absurd hserved (h false)
  · refine (hinv.entry s).frame rfl (by rw [hpend])
      (life_append_of_ne (by simp [Event.entry, Ne.symm hs])) (by simp [hpc, Pc.own]) fun m => ?_
    simp [hpc, Pc.hand, Ne.symm hs]

/-- The dispatcher marks the request it has served as completed. -/
theorem DispatchInv.completes (hinv : DispatchInv c) {own r : ReqIdx}
    (hpc : c.loc i = .complete own r) :
    DispatchInv ⟨Function.update c.loc i (.dequeue own), { c.mem with
      q := c.mem.q.modify r fun e => { e with completed := true } }⟩ := by
  have hi : (c.loc i).inDispatcher := by simp [hpc, Pc.inDispatcher]
  set d : DiskState β ι :=
    { c.mem with q := c.mem.q.modify r fun e => { e with completed := true } } with hd
  have hself : d.q.pool r = { c.mem.q.pool r with completed := true } := by
    simp [hd, DiskQueue.modify]
  have hother : ∀ s ≠ r, d.q.pool s = c.mem.q.pool s := fun s hs => by
    simp [hd, DiskQueue.modify, hs]
  obtain ⟨hbusy, hunique⟩ := hinv.dispatcher_keep (i := i) (l := .dequeue own) (d := d)
    (by simp [hpc, Pc.inDispatcher]) rfl
  refine ⟨hinv.linked, hbusy, hunique, fun _ => hinv.busy_iff.2 ⟨i, hi⟩, fun s => ?_,
    hinv.returned_step (fun own' h => by cases h) fun s h => .inl ?_⟩
  · by_cases hs : s = r
    · subst hs
      unfold EntryInv
      rw [hself]
      have hentry := hinv.entry s
      unfold EntryInv at hentry
      change EntryOk _ _ _ _ (life c.mem.log s)
      generalize life c.mem.log s = st at hentry
      have hserved : ∃ j, (c.loc j).hand = some (s, true) := ⟨i, by simp [hpc, Pc.hand]⟩
      have hown : ∀ j, (Function.update c.loc i (Pc.dequeue own) j).own = some s ↔
          (c.loc j).own = some s := by
        intro j
        rw [own_update]
        by_cases hj : j = i
        · subst hj
          simp [hpc, Pc.own]
        · simp [hj]
      have hhand : ∀ m, ¬ ∃ j, (Function.update c.loc i (Pc.dequeue own) j).hand = some (s, m) := by
        intro m
        rw [hinv.hand_update hi]
        simp [Pc.hand]
      cases hentry with
      | moved hused _ hq howns _ =>
        exact .completed hused rfl hq (fun j => (hown j).trans (howns j)) hhand
      | free _ _ _ h => exact absurd hserved (h true)
      | queued _ _ _ _ _ h => exact absurd hserved (h true)
      | inHand _ _ _ _ _ h => simpa using (h true).1 hserved
      | completed _ _ _ _ h => exact absurd hserved (h true)
    · refine (hinv.entry s).frame (hother s hs) Iff.rfl rfl (by simp [hpc, Pc.own]) fun m => ?_
      simp [hpc, Pc.hand, Ne.symm hs]
  · by_cases hs : s = r
    · subst hs
      simp [hself]
    · rwa [hother s hs]

/-- The owner of a completed request frees it and returns. -/
theorem DispatchInv.frees (hinv : DispatchInv c) {own : ReqIdx} (hown : (c.loc i).own = some own)
    (hhand : (c.loc i).hand = none) (hdisp : ¬ (c.loc i).inDispatcher)
    (hcompleted : (c.mem.q.pool own).completed = true) :
    DispatchInv ⟨Function.update c.loc i .idle,
      ⟨c.mem.q.freeReq own, c.mem.log ++ [.returned i own]⟩⟩ := by
  have hpend := pending_append_returned c.mem.log i own
  set d : DiskState β ι := ⟨c.mem.q.freeReq own, c.mem.log ++ [.returned i own]⟩ with hd
  have hself : (d.q.pool own).used = false := by
    simp [hd, DiskQueue.freeReq, DiskQueue.modify, DiskQueue.setNext]
  have hother : ∀ s ≠ own, d.q.pool s = c.mem.q.pool s := fun s hs => by
    simp [hd, DiskQueue.freeReq, DiskQueue.modify, DiskQueue.setNext, hs]
  -- a completed request is neither queued nor served
  obtain ⟨hq, hserved, howner, hlife⟩ : own ∉ pending c.mem.log ∧
      (∀ m, ¬ ∃ j, (c.loc j).hand = some (own, m)) ∧
      (∀ j, (c.loc j).own = some own ↔ j = i) ∧ life c.mem.log own = some (.served i) := by
    have hentry := hinv.entry own
    unfold EntryInv at hentry
    generalize life c.mem.log own = st at hentry
    cases hentry with
    | @completed k _ _ hq howns hhand =>
      obtain rfl := (howns i).1 hown
      exact ⟨hq, hhand, howns, rfl⟩
    | free _ _ h => exact absurd hown (h i)
    | queued _ h => simp [hcompleted] at h
    | inHand _ h => simp [hcompleted] at h
    | moved _ h => simp [hcompleted] at h
  obtain ⟨hbusy, hunique⟩ := hinv.dispatcher_keep (i := i) (l := .idle) (d := d)
    (iff_of_false id hdisp) rfl
  refine ⟨?_, hbusy, hunique, fun h => ?_, fun s => ?_,
    hinv.returned_step (fun own' h => by cases h) fun s h => ?_⟩
  · rw [hd, hpend]
    exact hinv.linked.congr fun a ha => Function.update_of_ne (fun e : a = own => hq (e ▸ ha)) _ _
  · rw [hd, hpend] at h
    exact hinv.busy_of_pending h
  · by_cases hs : s = own
    · subst hs
      unfold EntryInv
      rw [life_append rfl, hlife]
      simp only [Option.bind_some, Life.next, if_true]
      refine .free hself (by rw [hpend]; exact hq) (fun j => ?_) fun m => ?_
      · rw [own_update, howner j]
        simp [Pc.own]
      · rw [Queue.hand_update]
        rintro (h | ⟨j, -, h⟩)
        · simp [Pc.hand] at h
        · exact hserved m ⟨j, h⟩
    · refine (hinv.entry s).frame (hother s hs) (by rw [hd, hpend])
        (life_append_of_ne (by simp [Event.entry, Ne.symm hs])) ?_ fun m => ?_
      · rw [hown]
        simp [Pc.own, Ne.symm hs]
      · rw [hhand]
        simp [Pc.hand]
  · by_cases hs : s = own
    · subst hs
      exact .inr fun j hj e => hj ((howner j).1 e)
    · exact .inl (by rwa [hother s hs])

/-- A process submits a request in the free entry `r`, and becomes the dispatcher if there is
none. -/
theorem DispatchInv.submits (hinv : DispatchInv c) (hpc : c.loc i = .idle) {r : ReqIdx} {b : β}
    {type : Int32} {q : DiskQueue β ι} {e : DiskRequest β ι}
    (hfree : (c.mem.q.pool r).used = false) (hpool : q.pool = Function.update c.mem.q.pool r e)
    (hused : e.used = true) (hcompleted : e.completed = false) (hb : e.b = some b)
    (htype : e.type = type) (hlinked : Linked q.next q.head (pending c.mem.log ++ [r]))
    (hbusy : q.busy = true) (hown : l.own = some r) (hhand : l.hand = none)
    (hdisp : l.inDispatcher ↔ c.mem.q.busy = false) (hret : ∀ own, l ≠ .returned own) :
    DispatchInv ⟨Function.update c.loc i l, ⟨q, c.mem.log ++ [.submitted i r b type]⟩⟩ := by
  have hpend := pending_append_submitted c.mem.log i r b type
  have hother : ∀ s ≠ r, q.pool s = c.mem.q.pool s := fun s hs => by simp [hpool, hs]
  obtain ⟨hnobody, hserved, hlife⟩ : (∀ j, (c.loc j).own ≠ some r) ∧
      (∀ m, ¬ ∃ j, (c.loc j).hand = some (r, m)) ∧ life c.mem.log r = some .free := by
    have hentry := hinv.entry r
    unfold EntryInv at hentry
    generalize life c.mem.log r = st at hentry
    cases hentry with
    | free _ _ howns hhand => exact ⟨howns, hhand, rfl⟩
    | queued h => simp [hfree] at h
    | inHand h => simp [hfree] at h
    | moved h => simp [hfree] at h
    | completed h => simp [hfree] at h
  -- the dispatcher is the old one, or this process if there was none
  have hdispatcher : ∀ j, (Function.update c.loc i l j).inDispatcher ↔
      (j = i ∧ c.mem.q.busy = false) ∨ (c.loc j).inDispatcher := by
    intro j
    by_cases hj : j = i
    · subst hj
      rw [Function.update_self, hdisp, hpc]
      simp [Pc.inDispatcher]
    · simp [hj]
  refine ⟨?_, ?_, fun j k hj hk => ?_, fun _ => hbusy, fun s => ?_,
    hinv.returned_step (fun own h => absurd h (hret own)) fun s h => ?_⟩
  · rw [hpend]
    exact hlinked
  · simp only [hdispatcher, hbusy, true_iff]
    cases hold : c.mem.q.busy with
    | false => exact ⟨i, .inl ⟨rfl, rfl⟩⟩
    | true =>
      obtain ⟨j, hj⟩ := hinv.busy_iff.1 hold
      exact ⟨j, .inr hj⟩
  · rcases (hdispatcher j).1 hj with ⟨rfl, hold⟩ | hj'
    · rcases (hdispatcher k).1 hk with ⟨rfl, -⟩ | hk'
      · rfl
      · exact absurd hk' (hinv.not_inDispatcher hold k)
    · rcases (hdispatcher k).1 hk with ⟨rfl, hold⟩ | hk'
      · exact absurd hj' (hinv.not_inDispatcher hold j)
      · exact hinv.unique j k hj' hk'
  · by_cases hs : s = r
    · subst hs
      unfold EntryInv
      rw [life_append rfl, hlife, hpend]
      have hself : q.pool s = e := by simp [hpool]
      simp only [Option.bind_some, Life.next, hself, ← htype]
      refine .queued hused hcompleted hb (by simp) (fun j => ?_) fun m => ?_
      · rw [own_update]
        simp [hown, hnobody j]
      · rw [Queue.hand_update, hhand]
        rintro (h | ⟨j, -, h⟩)
        · cases h
        · exact hserved m ⟨j, h⟩
    · refine (hinv.entry s).frame (hother s hs) (by simp [hpend, hs])
        (life_append_of_ne (by simp [Event.entry, Ne.symm hs])) ?_ fun m => ?_
      · rw [hown, hpc]
        simp [Pc.own, Ne.symm hs]
      · rw [hhand, hpc]
        simp [Pc.hand]
  · by_cases hs : s = r
    · subst hs
      exact .inr fun j _ => hnobody j
    · exact .inl (by rwa [hother s hs])

/-- One check of the loop that waits for the process's own request. -/
theorem DispatchInv.awaits (hinv : DispatchInv c) {own : ReqIdx} (hown : (c.loc i).own = some own)
    (hhand : (c.loc i).hand = none) (hdisp : ¬ (c.loc i).inDispatcher) :
    DispatchInv ⟨Function.update c.loc i (awaitRequest i own c.mem).1,
      (awaitRequest i own c.mem).2⟩ := by
  unfold awaitRequest
  split
  · rename_i hcompleted
    exact hinv.frees hown hhand hdisp hcompleted
  · refine hinv.local_step ?_ ?_ (iff_of_false id hdisp) (fun own h => by cases h) rfl rfl rfl rfl
    · exact hown.symm
    · exact hhand.symm

theorem DispatchInv.submitDiskRequest (hinv : DispatchInv c) (hpc : c.loc i = .idle) (b : β)
    (blockno : UInt32) (type : Int32) :
    DispatchInv ⟨Function.update c.loc i (submitDiskRequest i b blockno type c.mem).1,
      (submitDiskRequest i b blockno type c.mem).2⟩ := by
  unfold Queue.submitDiskRequest
  cases halloc : c.mem.q.allocReq with
  | none =>
    refine hinv.local_step ?_ ?_ ?_ (fun own h => by cases h) rfl rfl rfl rfl <;>
      rw [hpc] <;> rfl
  | some p =>
    obtain ⟨r, q⟩ := p
    obtain ⟨hfree, hq⟩ := DiskQueue.allocReq_eq_some halloc
    have hr : r ∉ pending c.mem.log := by
      intro hr
      have hentry := hinv.entry r
      unfold EntryInv at hentry
      generalize life c.mem.log r = st at hentry
      cases hentry with
      | free _ h => exact h hr
      | queued h => simp [hfree] at h
      | inHand h => simp [hfree] at h
      | moved h => simp [hfree] at h
      | completed h => simp [hfree] at h
    obtain ⟨e, hpool, hused, hcompleted, hb, htype, hbusy', hlinked⟩ :=
      fillRequest_spec i b blockno type hq hinv.linked hr
    dsimp only
    generalize fillRequest i b blockno type r q = q' at hpool hbusy' hlinked ⊢
    cases hbusy : c.mem.q.busy with
    | false =>
      rw [if_pos (hbusy'.trans hbusy)]
      exact hinv.submits hpc hfree hpool hused hcompleted hb htype hlinked rfl rfl rfl
        (iff_of_true trivial hbusy) fun own h => by cases h
    | true =>
      have hself : (q'.pool r).completed = false := by rw [hpool, Function.update_self, hcompleted]
      rw [if_neg (by simp [hbusy', hbusy]), awaitRequest, if_neg (by simp [hself])]
      exact hinv.submits hpc hfree hpool hused hcompleted hb htype hlinked (hbusy'.trans hbusy) rfl
        rfl (iff_of_false id (by simp [hbusy])) fun own h => by cases h

theorem DispatchInv.runStep (hinv : DispatchInv c) {level : ι → Int32}
    (h : runStep i level c.mem (c.loc i) = some (l, d)) :
    DispatchInv ⟨Function.update c.loc i l, d⟩ := by
  cases hpc : c.loc i with
  | idle => simp [hpc, Queue.runStep] at h
  | panicked => simp [hpc, Queue.runStep] at h
  | dequeue own =>
    by_cases hempty : pending c.mem.log = []
    · have hdeq := DiskQueue.dequeueDiskRequestLocked_nil level (hempty ▸ hinv.linked)
      simp only [hpc, Queue.runStep, hdeq, Option.some.injEq, Prod.mk.injEq] at h
      obtain ⟨rfl, rfl⟩ := h
      exact hinv.dispatcher_returns hpc hempty
    · obtain ⟨r, hr, next, head, hdeq, hlinked⟩ :=
        DiskQueue.dequeueDiskRequestLocked_spec level hinv.linked hempty
      simp only [hpc, Queue.runStep, hdeq, Option.some.injEq, Prod.mk.injEq] at h
      obtain ⟨rfl, rfl⟩ := h
      exact hinv.dispatches hpc hr hlinked
  | seek own r =>
    simp only [hpc, Queue.runStep, Option.some.injEq, Prod.mk.injEq] at h
    obtain ⟨rfl, rfl⟩ := h
    refine hinv.local_step ?_ ?_ ?_ (fun own h => by cases h) rfl rfl rfl rfl <;>
      rw [hpc] <;> rfl
  | account own r latency =>
    simp only [hpc, Queue.runStep, Option.some.injEq, Prod.mk.injEq] at h
    obtain ⟨rfl, rfl⟩ := h
    refine hinv.local_step ?_ ?_ ?_ (fun own h => by cases h) rfl rfl rfl rfl <;>
      rw [hpc] <;> rfl
  | transfer own r =>
    simp only [hpc, Queue.runStep, Option.some.injEq, Prod.mk.injEq] at h
    obtain ⟨rfl, rfl⟩ := h
    exact hinv.transfers hpc
  | complete own r =>
    simp only [hpc, Queue.runStep, Option.some.injEq, Prod.mk.injEq] at h
    obtain ⟨rfl, rfl⟩ := h
    exact hinv.completes hpc
  | returned own =>
    simp only [hpc, Queue.runStep, Option.some.injEq] at h
    have hown : (c.loc i).own = some own := by rw [hpc]; rfl
    have hstep := hinv.awaits hown (by rw [hpc]; rfl) (by rw [hpc]; exact id)
    rwa [h] at hstep
  | sleeping own =>
    simp only [hpc, Queue.runStep, Option.some.injEq] at h
    have hown : (c.loc i).own = some own := by rw [hpc]; rfl
    have hstep := hinv.awaits hown (by rw [hpc]; rfl) (by rw [hpc]; exact id)
    rwa [h] at hstep

theorem DispatchInv.step (hinv : DispatchInv c) {a : Action β ι}
    (h : (diskSystem β ι).next i a (c.loc i) c.mem = some (l, d)) :
    DispatchInv ⟨Function.update c.loc i l, d⟩ := by
  cases a with
  | setDiskPolicy policy =>
    simp only [diskSystem, Option.some.injEq, Prod.mk.injEq] at h
    obtain ⟨rfl, rfl⟩ := h
    exact hinv.local_step rfl rfl Iff.rfl (fun own h => hinv.returned i own h) rfl rfl rfl rfl
  | run level => exact hinv.runStep h
  | submit b blockno type =>
    cases hpc : c.loc i <;> simp only [diskSystem, hpc, Option.some.injEq, reduceCtorEq] at h
    have hstep := hinv.submitDiskRequest hpc b blockno type
    rwa [h] at hstep

end Step

/-- **The disk queue serves every request exactly once.** In every reachable state the list from
`disk_queue.head` consists of the requests submitted and not yet dispatched, in the order of
submission; it is empty unless `busy` is set; `busy` is set if and only if exactly one process is
in the dispatcher, and two never are; the life of every pool entry is in order; and a process for
which `run_disk_dispatcher` has returned finds its own request completed. -/
theorem queue_serves_once (c : Cfg ι Pc (DiskState β ι))
    (hrun : (diskSystem β ι).Reaches System.any (diskStart β ι) c) :
    Linked c.mem.q.next c.mem.q.head (pending c.mem.log) ∧ (pending c.mem.log).Nodup ∧
      (pending c.mem.log ≠ [] → c.mem.q.busy = true) ∧
      (c.mem.q.busy = true ↔ ∃! i, (c.loc i).inDispatcher) ∧
      (∀ i j, (c.loc i).inDispatcher → (c.loc j).inDispatcher → i = j) ∧
      (∀ r, (life c.mem.log r).isSome) ∧
      ∀ i own, c.loc i = .returned own → (c.mem.q.pool own).completed = true := by
  have hinv : DispatchInv c :=
    hrun.inv (fun _ _ _ _ _ _ hinv hn => hinv.step hn) dispatchInv_start
  refine ⟨hinv.linked, hinv.linked.nodup, hinv.busy_of_pending, ?_, hinv.unique, fun r => ?_,
    hinv.returned⟩
  · rw [hinv.busy_iff]
    constructor
    · rintro ⟨i, hi⟩
      exact ⟨i, hi, fun j hj => hinv.unique j i hj hi⟩
    · rintro ⟨i, hi, -⟩
      exact ⟨i, hi⟩
  · have hentry := hinv.entry r
    unfold EntryInv at hentry
    generalize life c.mem.log r = st at hentry
    cases hentry <;> rfl

/-- Process 0 submits a read and is serving it while process 1 submits a write. -/
def overlappingSubmits : List (Fin 2 × Action ℕ (Fin 2)) :=
  [(0, .submit 7 100 diskReqRead), (0, .run fun _ => 0), (1, .submit 8 50 diskReqWrite),
    (0, .run fun _ => 0), (0, .run fun _ => 0), (0, .run fun _ => 0)]

theorem overlappingSubmits_runs :
    ((diskSystem ℕ (Fin 2)).exec overlappingSubmits (diskStart ℕ (Fin 2))).isSome := rfl

theorem queue_serves_overlappingSubmits : ∃ c : Cfg (Fin 2) Pc (DiskState ℕ (Fin 2)),
    pending c.mem.log = [⟨1, by decide⟩] ∧ life c.mem.log ⟨0, by decide⟩ = some (.served 0) ∧
      Linked c.mem.q.next c.mem.q.head (pending c.mem.log) ∧ c.mem.q.busy = true := by
  have hserves := queue_serves_once _
    (System.reaches_of_exec (Option.some_get overlappingSubmits_runs).symm)
  exact ⟨_, rfl, rfl, hserves.1, hserves.2.2.1 (List.cons_ne_nil _ _)⟩

end Xv6Swap.Queue
