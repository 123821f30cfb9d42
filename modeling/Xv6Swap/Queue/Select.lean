import Mathlib.Data.List.MinMax
import Mathlib.Data.Prod.Lex
import Xv6Swap.Queue.Requests

/-!
# Which request is dequeued

The selection loop of `dequeue_disk_request_locked` keeps the best request seen so far. Its rank is
the distance from the head and then the level of the process, and a later request replaces it only
if its rank is strictly smaller: the loop computes the first request of minimal rank
(`selectFold_eq_argmin`). The start value of `min_dist` is the largest distance there is, and a
request at that distance still ties with itself at the head of the queue.

`Arrivals` orders the queue by the time of enqueueing. `dequeue_selects` states the result for both
policies.
-/

namespace Xv6Swap.Queue

open Pool

namespace DiskQueue

variable {β ι : Type*}

/-! ## The rank of a request -/

/-- Distance from the head first, then the level of the process. -/
def rank (level : ι → Int32) (q : DiskQueue β ι) (r : ReqIdx) : ℤ ×ₗ ℤ :=
  toLex (|(q.pool r).blockno.toInt - q.diskHead.toInt|, (q.levelOf level r).toInt)

/-- The head and the blocks of the members are numbers in `[0, 2 ^ 31)`. -/
structure InRange (q : DiskQueue β ι) (l : List ReqIdx) : Prop where
  head : 0 ≤ q.diskHead.toInt
  blockno : ∀ r ∈ l, 0 ≤ (q.pool r).blockno.toInt

theorem InRange.toInt_distance {q : DiskQueue β ι} {l : List ReqIdx} (hq : q.InRange l)
    {r : ReqIdx} (hr : r ∈ l) :
    (distance (q.pool r).blockno q.diskHead).toInt =
      |(q.pool r).blockno.toInt - q.diskHead.toInt| := by
  rw [DiskQueue.toInt_distance (hq.blockno r hr) hq.head, Int.natCast_natAbs]

/-! ## The selection loop -/

/-- `min_dist` is the distance of the selected request. -/
def Selection.Exact (q : DiskQueue β ι) (s : Selection) : Prop :=
  s.minDist = distance (q.pool s.selected).blockno q.diskHead

/-- A round compares ranks. -/
theorem better_iff_rank_lt (level : ι → Int32) {q : DiskQueue β ι} {l : List ReqIdx}
    (hq : q.InRange l) {s : Selection} (hs : s.Exact q) (hsel : s.selected ∈ l) {cur : ReqIdx}
    (hcur : cur ∈ l) :
    (distance (q.pool cur).blockno q.diskHead < s.minDist ∨
        distance (q.pool cur).blockno q.diskHead = s.minDist ∧
          q.levelOf level cur < q.levelOf level s.selected) ↔
      q.rank level cur < q.rank level s.selected := by
  rw [hs, Int32.lt_iff_toInt_lt, Int32.lt_iff_toInt_lt, ← Int32.toInt_inj, hq.toInt_distance hcur,
    hq.toInt_distance hsel]
  exact Iff.symm (Prod.Lex.toLex_lt_toLex (α := ℤ) (β := ℤ))

/-- What a round does to the selection, in terms of ranks. -/
theorem selectStep_rank (level : ι → Int32) {q : DiskQueue β ι} {l : List ReqIdx}
    (hq : q.InRange l) {s : Selection} (hs : s.Exact q) (hsel : s.selected ∈ l) {cur : ReqIdx}
    (hcur : cur ∈ l) (prev : Option ReqIdx) :
    (q.selectStep level cur prev s).Exact q ∧
      (q.selectStep level cur prev s).selected =
        if q.rank level cur < q.rank level s.selected then cur else s.selected := by
  have hbetter := better_iff_rank_lt level hq hs hsel hcur
  simp only [selectStep]
  split
  · rename_i h
    exact ⟨rfl, (if_pos (hbetter.1 h)).symm⟩
  · rename_i h
    exact ⟨hs, (if_neg (mt hbetter.2 h)).symm⟩

/-- From an exact selection on, the loop folds the members as `List.argmin` does. -/
theorem selectFold_eq_foldl (level : ι → Int32) {q : DiskQueue β ι} {l : List ReqIdx}
    (hq : q.InRange l) (l₂ : List ReqIdx) (hl₂ : l₂ ⊆ l) {s : Selection} (hs : s.Exact q)
    (hsel : s.selected ∈ l) (prev : Option ReqIdx) :
    some (q.selectFold level l₂ prev s).selected =
      l₂.foldl (List.argAux fun a b => q.rank level a < q.rank level b) (some s.selected) := by
  induction l₂ generalizing s prev with
  | nil => rfl
  | cons cur l₂ ih =>
    have hcur : cur ∈ l := hl₂ List.mem_cons_self
    obtain ⟨hexact, hselected⟩ := selectStep_rank level hq hs hsel hcur prev
    have hmem : (q.selectStep level cur prev s).selected ∈ l := by
      rw [hselected]
      split
      · exact hcur
      · exact hsel
    have hnext := ih (fun r hr => hl₂ (List.mem_cons_of_mem cur hr)) hexact hmem (some cur)
    simp only [selectFold, List.foldl_cons, List.argAux]
    rw [hnext, hselected, apply_ite some]

/-- The first round accepts the head of the queue, whatever its distance. -/
theorem selectStep_head (level : ι → Int32) (q : DiskQueue β ι) (h : ReqIdx) :
    (q.selectStep level h none ⟨0x7fffffff, h, none⟩).Exact q ∧
      (q.selectStep level h none ⟨0x7fffffff, h, none⟩).selected = h := by
  simp only [selectStep]
  split
  · exact ⟨rfl, rfl⟩
  · rename_i hbetter
    refine ⟨?_, rfl⟩
    -- no distance exceeds the start value
    have hle := (distance (q.pool h).blockno q.diskHead).toInt_lt
    have hge : ¬ (distance (q.pool h).blockno q.diskHead).toInt < (0x7fffffff : Int32).toInt :=
      fun hlt => hbetter (.inl (Int32.lt_iff_toInt_lt.2 hlt))
    have hmax : (0x7fffffff : Int32).toInt = 2 ^ 31 - 1 := by decide
    change (0x7fffffff : Int32) = distance (q.pool h).blockno q.diskHead
    rw [← Int32.toInt_inj, hmax]
    omega

/-- **The loop selects the first request of minimal rank.** -/
theorem selectFold_eq_argmin (level : ι → Int32) {q : DiskQueue β ι} {h : ReqIdx} {l : List ReqIdx}
    (hq : q.InRange (h :: l)) :
    some (q.selectFold level (h :: l) none ⟨0x7fffffff, h, none⟩).selected =
      (h :: l).argmin (q.rank level) := by
  obtain ⟨hexact, hselected⟩ := selectStep_head level q h
  have hmem : (q.selectStep level h none ⟨0x7fffffff, h, none⟩).selected ∈ h :: l := by
    rw [hselected]
    exact List.mem_cons_self
  have hfold := selectFold_eq_foldl level hq l (List.subset_cons_self h l) hexact hmem (some h)
  rw [hselected] at hfold
  exact hfold

/-! ## The order of arrival -/

/-- The queue is the list `l`, in the order in which its members were enqueued. -/
structure Arrivals (q : DiskQueue β ι) (stamp : ReqIdx → ℕ) (l : List ReqIdx) : Prop where
  linked : Linked q.next q.head l
  sorted : l.Pairwise fun a b => stamp a < stamp b

/-- A request enqueued after all members. -/
theorem Arrivals.enqueue {q : DiskQueue β ι} {stamp : ReqIdx → ℕ} {l : List ReqIdx}
    (hq : q.Arrivals stamp l) {req : ReqIdx} (hlast : ∀ r ∈ l, stamp r < stamp req) :
    (q.enqueueDiskRequestLocked req).Arrivals stamp (l ++ [req]) := by
  refine ⟨linked_enqueueDiskRequestLocked hq.linked fun hmem => ?_, ?_⟩
  · exact lt_irrefl _ (hlast req hmem)
  · refine List.pairwise_append.2 ⟨hq.sorted, List.pairwise_singleton _ _, fun a ha b hb => ?_⟩
    rw [List.mem_singleton.1 hb]
    exact hlast a ha

/-- An earlier place in the queue is an earlier arrival. -/
theorem Arrivals.stamp_le {q : DiskQueue β ι} {stamp : ReqIdx → ℕ} {l : List ReqIdx}
    (hq : q.Arrivals stamp l) {a b : ReqIdx} (ha : a ∈ l) (hb : b ∈ l)
    (hle : l.idxOf a ≤ l.idxOf b) : stamp a ≤ stamp b := by
  rcases hle.eq_or_lt with heq | hlt
  · rw [(List.idxOf_inj ha).1 heq]
  · have hlt' := List.pairwise_iff_getElem.1 hq.sorted _ _ (List.idxOf_lt_length_of_mem ha)
      (List.idxOf_lt_length_of_mem hb) hlt
    rw [List.getElem_idxOf, List.getElem_idxOf] at hlt'
    exact hlt'.le

/-- The members left behind a dequeued one, and its own link. -/
theorem Arrivals.unlink {q : DiskQueue β ι} {stamp : ReqIdx → ℕ} {l : List ReqIdx}
    (hq : q.Arrivals stamp l) {s : Selection} (hs : s.At l) :
    (q.unlink s).Arrivals stamp (l.erase s.selected) ∧ (q.unlink s).next s.selected = none :=
  ⟨⟨linked_unlink hq.linked hs, hq.sorted.sublist List.erase_sublist⟩, Function.update_self _ _ _⟩

/-- **What is dequeued.** Under SSTF it is the request of minimal rank, and the first to arrive
among those of that rank; under FCFS the first to arrive. It leaves the queue with its link cleared,
the others keep their order, and nothing but the links changes. -/
theorem dequeue_selects (level : ι → Int32) {q : DiskQueue β ι} {stamp : ReqIdx → ℕ}
    {l : List ReqIdx} (hq : q.Arrivals stamp l) (hne : l ≠ []) (hrange : q.InRange l) :
    ∃ r ∈ l, ∃ q', q.dequeueDiskRequestLocked level = (some r, q') ∧
      q'.Arrivals stamp (l.erase r) ∧ q'.next r = none ∧
      q' = { q with next := q'.next, head := q'.head } ∧
      (q.policy = 1 → ∀ x ∈ l, q.rank level r ≤ q.rank level x ∧
        (q.rank level x = q.rank level r → stamp r ≤ stamp x)) ∧
      (q.policy = 0 → ∀ x ∈ l, stamp r ≤ stamp x) := by
  obtain ⟨h, l, rfl⟩ := List.exists_cons_of_ne_nil hne
  obtain ⟨s, hs, heq, hsel⟩ := dequeueDiskRequestLocked_selects level hq.linked
  obtain ⟨harrivals, hnext⟩ := hq.unlink hs
  have hframe : q.unlink s = { q with next := (q.unlink s).next, head := (q.unlink s).head } := by
    obtain ⟨next, head, hunlink⟩ := q.unlink_eq s
    rw [hunlink]
  refine ⟨s.selected, hs.mem, q.unlink s, heq, harrivals, hnext, hframe, ?_, ?_⟩
  · intro hpolicy x hx
    rw [if_pos hpolicy] at hsel
    have hargmin : (h :: l).argmin (q.rank level) = some s.selected := by
      rw [hsel, selectFold_eq_argmin level hrange]
    obtain ⟨-, hmin, hfirst⟩ := List.argmin_eq_some_iff.1 hargmin
    exact ⟨hmin x hx, fun htie => hq.stamp_le hs.mem hx (hfirst x hx htie.le)⟩
  · intro hpolicy x hx
    have hhead : s.selected = h := by
      rw [hsel, if_neg (by rw [hpolicy]; decide)]
    rw [hhead]
    exact hq.stamp_le List.mem_cons_self hx (by rw [List.idxOf_cons_self]; exact Nat.zero_le _)

/-- The first entries of the pool. -/
def req (i : Fin 3) : ReqIdx := i.castLE (by decide)

/-- Requests of the processes at levels 1, 0 and 0 for blocks 10, 30 and 10, with the head at 20. -/
def tiedQueue : DiskQueue Unit (Fin 4) :=
  let entry (blockno : Int32) (p : Fin 4) : DiskRequest Unit (Fin 4) :=
    ⟨some (), blockno, diskReqRead, some p, true, false⟩
  let q := binit Unit (Fin 4)
  let q := { q with policy := 1, diskHead := 20 }
  let q := (q.modify (req 0) fun _ => entry 10 1).enqueueDiskRequestLocked (req 0)
  let q := (q.modify (req 1) fun _ => entry 30 0).enqueueDiskRequestLocked (req 1)
  (q.modify (req 2) fun _ => entry 10 0).enqueueDiskRequestLocked (req 2)

theorem tiedQueue_arrivals : tiedQueue.Arrivals Fin.val [req 0, req 1, req 2] :=
  ⟨⟨by decide, by decide, by decide, rfl⟩, by decide⟩

/-- The process `p` is at level `p`. -/
def levels (p : Fin 4) : Int32 := Int32.ofNat p

/-- All three are at the same distance; the first of those at level 0 is dequeued. -/
theorem dequeue_selects_tied :
    (tiedQueue.dequeueDiskRequestLocked levels).1 = some (req 1) ∧
      ∀ x ∈ [req 0, req 1, req 2], tiedQueue.rank levels (req 1) ≤
        tiedQueue.rank levels x := by
  have hfirst : (tiedQueue.dequeueDiskRequestLocked levels).1 = some (req 1) := by
    decide
  have hrange : tiedQueue.InRange [req 0, req 1, req 2] := ⟨by decide, by decide⟩
  obtain ⟨r, -, q', heq, -, -, -, hsstf, -⟩ :=
    dequeue_selects levels tiedQueue_arrivals (by decide) hrange
  rw [heq] at hfirst
  obtain rfl := Option.some.inj hfirst
  exact ⟨by rw [heq], fun x hx => (hsstf rfl x hx).1⟩

end DiskQueue

end Xv6Swap.Queue
