import Mathlib.Data.List.FinRange
import Xv6Swap.Foundations.Linked

/-!
# The disk request queue

The request pool and the pending queue of `kernel/bio.c`: `alloc_req`, `free_req`,
`enqueue_disk_request_locked` and `dequeue_disk_request_locked`, all of which run with
`disk_queue.lock` held. Pool entries are named by their index in `req_pool`, and a null pointer is
`none`. The `next` fields of the entries form a map of their own, next to the pool.

What the queue holds is given by `Pool.Linked`: enqueueing appends the entry
(`linked_enqueueDiskRequestLocked`), and dequeueing takes one member out and leaves the others in
order (`dequeueDiskRequestLocked_spec`), under either policy and whatever the block numbers and
levels.
-/

namespace Xv6Swap.Queue

open Pool

def maxDiskReqs : ℕ := 64

def diskLatencyC : Int32 := 5

def diskReqRead : Int32 := 0

def diskReqWrite : Int32 := 1

/-- An entry of `req_pool`. -/
abbrev ReqIdx := Fin maxDiskReqs

/-- `struct disk_request` without its link, for buffers `β` and processes `ι`. -/
structure DiskRequest (β ι : Type*) where
  b : Option β
  blockno : Int32
  type : Int32
  proc : Option ι
  used : Bool
  completed : Bool

/-- `req_pool`, `disk_queue` and the variables around them. -/
structure DiskQueue (β ι : Type*) where
  pool : ReqIdx → DiskRequest β ι
  next : ReqIdx → Option ReqIdx
  head : Option ReqIdx
  busy : Bool
  policy : Int32
  diskHead : Int32
  reads : UInt64
  writes : UInt64
  totalLatency : UInt64
  reqCount : UInt64

variable {β ι : Type*}

/-- The state `binit` leaves. -/
def binit (β ι : Type*) : DiskQueue β ι where
  pool := fun _ => ⟨none, 0, 0, none, false, false⟩
  next := fun _ => none
  head := none
  busy := false
  policy := 0
  diskHead := 0
  reads := 0
  writes := 0
  totalLatency := 0
  reqCount := 0

namespace DiskQueue

/-- Change the fields of one entry. -/
def modify (q : DiskQueue β ι) (r : ReqIdx) (f : DiskRequest β ι → DiskRequest β ι) :
    DiskQueue β ι :=
  { q with pool := Function.update q.pool r (f (q.pool r)) }

def setNext (q : DiskQueue β ι) (r : ReqIdx) (s : Option ReqIdx) : DiskQueue β ι :=
  { q with next := Function.update q.next r s }

def allocReq (q : DiskQueue β ι) : Option (ReqIdx × DiskQueue β ι) :=
  ((List.finRange maxDiskReqs).find? fun r => !(q.pool r).used).map fun r =>
    (r, (q.modify r fun e => { e with used := true, completed := false }).setNext r none)

def freeReq (r : ReqIdx) (q : DiskQueue β ι) : DiskQueue β ι :=
  (q.modify r fun e => { e with used := false, completed := false }).setNext r none

def enqueueDiskRequestLocked (req : ReqIdx) (q : DiskQueue β ι) : DiskQueue β ι :=
  let q := q.setNext req none
  match q.head with
  | none => { q with head := some req }
  -- `while(cur->next) cur = cur->next`
  | some h => q.setNext (lastFrom q.next maxDiskReqs h) (some req)

/-- The variables of the selection loop. -/
structure Selection where
  minDist : Int32
  selected : ReqIdx
  selectedPrev : Option ReqIdx

/-- `cur->proc ? cur->proc->level : 3` -/
def levelOf (level : ι → Int32) (q : DiskQueue β ι) (r : ReqIdx) : Int32 :=
  match (q.pool r).proc with
  | some p => level p
  | none => 3

/-- The distance of a block from the head. -/
def distance (blockno head : Int32) : Int32 :=
  let dist := blockno - head
  if dist < 0 then -dist else dist

/-- One round of the selection loop. -/
def selectStep (level : ι → Int32) (q : DiskQueue β ι) (cur : ReqIdx) (prev : Option ReqIdx)
    (s : Selection) : Selection :=
  let dist := distance (q.pool cur).blockno q.diskHead
  if dist < s.minDist ∨
      dist = s.minDist ∧ q.levelOf level cur < q.levelOf level s.selected then
    ⟨dist, cur, prev⟩
  else s

/-- The loop `while(cur)`, in at most `fuel` rounds. -/
def selectLoop (level : ι → Int32) (q : DiskQueue β ι) :
    ℕ → Option ReqIdx → Option ReqIdx → Selection → Selection
  | fuel + 1, some cur, prev, s =>
    q.selectLoop level fuel (q.next cur) (some cur) (q.selectStep level cur prev s)
  | _, _, _, s => s

/-- Take `selected` out of the list, behind `selectedPrev`. -/
def unlink (s : Selection) (q : DiskQueue β ι) : DiskQueue β ι :=
  let q := match s.selectedPrev with
    | none => { q with head := q.next s.selected }
    | some p => q.setNext p (q.next s.selected)
  q.setNext s.selected none

def dequeueDiskRequestLocked (level : ι → Int32) (q : DiskQueue β ι) :
    Option ReqIdx × DiskQueue β ι :=
  match q.head with
  | none => (none, q)
  | some h =>
    let s : Selection := ⟨0x7fffffff, h, none⟩
    let s := if q.policy = 1 then q.selectLoop level maxDiskReqs (some h) none s else s
    (some s.selected, q.unlink s)

/-! ## Distances -/

/-- Between block numbers below `2 ^ 31` the distance does not overflow. -/
theorem toInt_distance {a b : Int32} (ha : 0 ≤ a.toInt) (hb : 0 ≤ b.toInt) :
    (distance a b).toInt = (a.toInt - b.toInt).natAbs := by
  have ha' := a.toInt_lt
  have hb' := b.toInt_lt
  have hsub : (a - b).toInt = a.toInt - b.toInt := by
    rw [Int32.toInt_sub]
    exact Int.bmod_eq_of_le (by omega) (by omega)
  simp only [distance]
  split
  · rename_i hneg
    rw [Int32.lt_iff_toInt_lt, Int32.toInt_zero, hsub] at hneg
    rw [Int32.toInt_neg, hsub, Int.bmod_eq_of_le (by omega) (by omega)]
    omega
  · rename_i hneg
    rw [Int32.lt_iff_toInt_lt, Int32.toInt_zero, hsub] at hneg
    omega

/-! ## Allocation -/

theorem allocReq_eq_some {q q' : DiskQueue β ι} {r : ReqIdx} (h : q.allocReq = some (r, q')) :
    (q.pool r).used = false ∧
      q' = (q.modify r fun e => { e with used := true, completed := false }).setNext r none := by
  simp only [allocReq, Option.map_eq_some_iff, Prod.mk.injEq] at h
  obtain ⟨r', hfind, rfl, rfl⟩ := h
  have hused := List.find?_some hfind
  exact ⟨by simpa using hused, rfl⟩

/-- Allocation fails only if every entry is in use. -/
theorem allocReq_eq_none {q : DiskQueue β ι} (h : q.allocReq = none) (r : ReqIdx) :
    (q.pool r).used = true := by
  simp only [allocReq, Option.map_eq_none_iff, List.find?_eq_none, List.mem_finRange] at h
  simpa using h r

/-! ## Enqueueing -/

theorem linked_enqueueDiskRequestLocked {q : DiskQueue β ι} {l : List ReqIdx} {req : ReqIdx}
    (hl : Linked q.next q.head l) (hreq : req ∉ l) :
    Linked (q.enqueueDiskRequestLocked req).next (q.enqueueDiskRequestLocked req).head
      (l ++ [req]) := by
  cases l with
  | nil =>
    have hhead : q.head = none := hl
    simp [enqueueDiskRequestLocked, setNext, hhead]
  | cons h l =>
    have hhead : q.head = some h := hl.1
    have hl' : Linked (Function.update q.next req none) (some h) (h :: l) := by
      rw [← hhead]
      exact hl.congr fun a ha => Function.update_of_ne (fun e : a = req => hreq (e ▸ ha)) _ _
    have hlen : l.length ≤ maxDiskReqs := by
      have := hl.length_le
      simp only [List.length_cons, Fintype.card_fin] at this
      omega
    have happend := hl.append (List.cons_ne_nil h l) hreq
    rw [← hl'.lastFrom_eq hlen] at happend
    simpa only [enqueueDiskRequestLocked, setNext, hhead] using happend

theorem enqueueDiskRequestLocked_eq (q : DiskQueue β ι) (req : ReqIdx) :
    ∃ next head, q.enqueueDiskRequestLocked req = { q with next := next, head := head } := by
  simp only [enqueueDiskRequestLocked]
  split
  · exact ⟨_, _, rfl⟩
  · exact ⟨_, _, rfl⟩

/-! ## Dequeueing -/

/-- The selection loop over the members of the queue. -/
def selectFold (level : ι → Int32) (q : DiskQueue β ι) :
    List ReqIdx → Option ReqIdx → Selection → Selection
  | [], _, s => s
  | cur :: l, prev, s => q.selectFold level l (some cur) (q.selectStep level cur prev s)

theorem selectLoop_eq_selectFold (level : ι → Int32) {q : DiskQueue β ι} {h : Option ReqIdx}
    {l : List ReqIdx} (hl : Linked q.next h l) {fuel : ℕ} (hfuel : l.length ≤ fuel)
    (prev : Option ReqIdx) (s : Selection) :
    q.selectLoop level fuel h prev s = q.selectFold level l prev s := by
  induction l generalizing h fuel prev s with
  | nil =>
    obtain rfl : h = none := hl
    cases fuel <;> rfl
  | cons a l ih =>
    obtain ⟨rfl, hl⟩ := hl
    obtain ⟨fuel, rfl⟩ : ∃ n, fuel = n + 1 := ⟨fuel - 1, by simp at hfuel; omega⟩
    exact ih hl (by simpa using hfuel) _ _

/-- The selection names a member of the list and the member before it. -/
def Selection.At (s : Selection) (l : List ReqIdx) : Prop :=
  ∃ l₁ l₂, l = l₁ ++ s.selected :: l₂ ∧ s.selectedPrev = l₁.getLast?

theorem selectFold_at (level : ι → Int32) (q : DiskQueue β ι) {l : List ReqIdx}
    (l₁ l₂ : List ReqIdx) (hl : l = l₁ ++ l₂) {s : Selection} (hs : s.At l) :
    (q.selectFold level l₂ l₁.getLast? s).At l := by
  induction l₂ generalizing l₁ s with
  | nil => exact hs
  | cons cur l₂ ih =>
    have hstep : (q.selectStep level cur l₁.getLast? s).At l := by
      simp only [selectStep]
      split
      · exact ⟨l₁, l₂, hl, rfl⟩
      · exact hs
    have hnext := ih (l₁ ++ [cur]) (by simp [hl]) hstep
    rwa [List.getLast?_concat] at hnext

theorem linked_unlink {q : DiskQueue β ι} {l : List ReqIdx} (hl : Linked q.next q.head l)
    {s : Selection} (hs : s.At l) :
    Linked (q.unlink s).next (q.unlink s).head (l.erase s.selected) := by
  obtain ⟨l₁, l₂, rfl, hprev⟩ := hs
  have hnodup := hl.nodup
  have hnotin : s.selected ∉ l₁ := fun h => by
    rw [List.nodup_append] at hnodup
    exact hnodup.2.2 _ h _ List.mem_cons_self rfl
  rw [List.erase_append_right _ hnotin, List.erase_cons_head]
  rcases List.eq_nil_or_concat l₁ with rfl | ⟨l₀, c, rfl⟩
  · have hnone : s.selectedPrev = none := hprev
    simpa [unlink, setNext, hnone] using hl.unlink_head
  · have hsome : s.selectedPrev = some c := by simpa using hprev
    rw [List.concat_eq_append, List.append_assoc] at hl ⊢
    have hcut := hl.unlink
    simpa [unlink, setNext, hsome] using hcut

theorem unlink_eq (q : DiskQueue β ι) (s : Selection) :
    ∃ next head, q.unlink s = { q with next := next, head := head } := by
  unfold unlink
  split
  · exact ⟨_, _, rfl⟩
  · exact ⟨_, _, rfl⟩

theorem dequeueDiskRequestLocked_nil (level : ι → Int32) {q : DiskQueue β ι}
    (hl : Linked q.next q.head []) : q.dequeueDiskRequestLocked level = (none, q) := by
  have hhead : q.head = none := hl
  simp only [dequeueDiskRequestLocked, hhead]

/-- What is dequeued: the member the loop selects under policy 1, the head under any other. -/
theorem dequeueDiskRequestLocked_selects (level : ι → Int32) {q : DiskQueue β ι} {h : ReqIdx}
    {l : List ReqIdx} (hl : Linked q.next q.head (h :: l)) :
    ∃ s : Selection, s.At (h :: l) ∧
      q.dequeueDiskRequestLocked level = (some s.selected, q.unlink s) ∧
      s = if q.policy = 1 then q.selectFold level (h :: l) none ⟨0x7fffffff, h, none⟩
        else ⟨0x7fffffff, h, none⟩ := by
  have hhead : q.head = some h := hl.1
  have hlen : (h :: l).length ≤ maxDiskReqs := by
    have := hl.length_le
    rwa [Fintype.card_fin] at this
  have hstart : Selection.At ⟨0x7fffffff, h, none⟩ (h :: l) := ⟨[], l, rfl, rfl⟩
  simp only [dequeueDiskRequestLocked, hhead]
  split
  · refine ⟨_, ?_, ?_, rfl⟩
    · exact selectFold_at level q [] (h :: l) rfl hstart
    · rw [selectLoop_eq_selectFold level (hhead ▸ hl) hlen]
  · exact ⟨_, hstart, rfl, rfl⟩

theorem Selection.At.mem {s : Selection} {l : List ReqIdx} (hs : s.At l) : s.selected ∈ l := by
  obtain ⟨l₁, l₂, hsplit, -⟩ := hs
  rw [hsplit]
  exact List.mem_append_right _ List.mem_cons_self

/-- Dequeueing takes one member out of a non-empty queue. -/
theorem dequeueDiskRequestLocked_spec (level : ι → Int32) {q : DiskQueue β ι} {l : List ReqIdx}
    (hl : Linked q.next q.head l) (hne : l ≠ []) :
    ∃ r ∈ l, ∃ next head,
      q.dequeueDiskRequestLocked level = (some r, { q with next := next, head := head }) ∧
        Linked next head (l.erase r) := by
  obtain ⟨h, l, rfl⟩ := List.exists_cons_of_ne_nil hne
  obtain ⟨s, hs, heq, -⟩ := dequeueDiskRequestLocked_selects level hl
  have hlinked := linked_unlink hl hs
  obtain ⟨next, head, hunlink⟩ := q.unlink_eq s
  rw [hunlink] at heq hlinked
  exact ⟨s.selected, hs.mem, next, head, heq, hlinked⟩

end DiskQueue

end Xv6Swap.Queue
