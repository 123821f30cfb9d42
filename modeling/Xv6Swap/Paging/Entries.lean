import Xv6Swap.Paging.Invariant

/-!
# The tables through the critical sections

How the invariant of the frame table and the swap map (`TablesOk`) is carried through each critical
section: `TablesOk.evict`, `TablesOk.register`, `TablesOk.map`, `TablesOk.freeFrame`,
`TablesOk.releaseSwap`, `TablesOk.freeProc`. The page table entries change along with the tables, so
most of these take the entries before and after.
-/

namespace Xv6Swap.Paging

open Raid (pgSize)

theorem pgSize_pos : 0 < pgSize := by decide

namespace Tables

/-- The used entries of the frame table. -/
def usedFrames (t : Tables) : Finset FrameIdx :=
  Finset.univ.filter fun i => (t.frameTable i).used = true

theorem mem_usedFrames {t : Tables} {i : FrameIdx} :
    i ∈ t.usedFrames ↔ (t.frameTable i).used = true := by
  simp [usedFrames]

theorem usedFrames_congr {t t' : Tables}
    (h : ∀ i, (t'.frameTable i).used = (t.frameTable i).used) : t'.usedFrames = t.usedFrames := by
  ext i
  simp [mem_usedFrames, h i]

theorem usedFrames_erase {t t' : Tables} {i : FrameIdx} (hi : (t'.frameTable i).used = false)
    (h : ∀ j ≠ i, (t'.frameTable j).used = (t.frameTable j).used) :
    t'.usedFrames = t.usedFrames.erase i := by
  ext j
  by_cases hj : j = i
  · subst hj
    simp [mem_usedFrames, hi]
  · simp [mem_usedFrames, h j hj, hj]

theorem usedFrames_insert {t t' : Tables} {i : FrameIdx} (hi : (t'.frameTable i).used = true)
    (h : ∀ j ≠ i, (t'.frameTable j).used = (t.frameTable j).used) :
    t'.usedFrames = insert i t.usedFrames := by
  ext j
  by_cases hj : j = i
  · subst hj
    simp [mem_usedFrames, hi]
  · simp [mem_usedFrames, h j hj, hj]

theorem SameEntries.used {t t' : Tables} (h : SameEntries t t') (i : FrameIdx) :
    (t'.frameTable i).used = (t.frameTable i).used :=
  congrArg (fun e => e.1) (h.frame i)

end Tables

open Tables

section TablesOk

variable {t t' : Tables} {np np' : ProcIdx → ℕ} {pte pte' : ProcIdx → ℕ → Option Pte}
  {pend : Option (ProcIdx × ℕ)} {p : ProcIdx} {v : ℕ}

theorem TablesOk.count_eq (h : TablesOk t np pte pend) :
    t.userFrameCount = t.usedFrames.card := h.count

/-- A page in swap is found by a search for it. -/
theorem TablesOk.findSwap_eq (h : TablesOk t np pte pend) {i : SlotIdx} {va : ℕ}
    (hi : (t.swapMap i).Holds p va) : t.findSwap p va = some i := by
  cases hf : t.findSwap p va with
  | none => exact absurd hi (findSwap_eq_none hf i)
  | some j => rw [h.swap_inj j i p va (findSwap_eq_some hf) hi]

/-- The entry of a page in swap names its own slot. -/
theorem TablesOk.swapMap_eq (h : TablesOk t np pte pend) {i : SlotIdx} {va : ℕ}
    (hi : (t.swapMap i).Holds p va) : t.swapMap i = ⟨true, some p, va, some i⟩ := by
  obtain ⟨q, w, heq, -⟩ := h.swap_ok i hi.1
  obtain ⟨-, hp, hva⟩ := hi
  rw [heq] at hp hva ⊢
  obtain rfl := Option.some.inj hp
  rw [← hva]

/-- A page in swap is not mapped. -/
theorem TablesOk.swap_pte (h : TablesOk t np pte pend) {i : SlotIdx}
    (hi : (t.swapMap i).Holds p (v * pgSize)) : v < np p ∧ pte p v = none := by
  obtain ⟨q, w, heq, hlt, hnone⟩ := h.swap_ok i hi.1
  obtain ⟨-, hp, hva⟩ := hi
  rw [heq] at hp hva
  obtain rfl := Option.some.inj hp
  obtain rfl := Nat.eq_of_mul_eq_mul_right pgSize_pos hva
  exact ⟨hlt, hnone⟩

/-- A page with a frame entry is below the size. -/
theorem TablesOk.frame_lt (h : TablesOk t np pte pend) {i : FrameIdx}
    (hi : (t.frameTable i).entry = (true, true, some p, v * pgSize)) : v < np p := by
  obtain ⟨q, w, hentry, hw, -⟩ := h.frame_ok i (congrArg (·.1) hi)
  obtain ⟨-, -, hq, hva⟩ := by simpa only [Prod.mk.injEq] using hi.symm.trans hentry
  obtain rfl := Option.some.inj hq
  obtain rfl := Nat.eq_of_mul_eq_mul_right pgSize_pos hva
  exact hw

theorem TablesOk.same (h : TablesOk t np pte pend) (hs : SameEntries t t') :
    TablesOk t' np pte pend where
  frame_ok i hi := by
    rw [hs.frame]
    exact h.frame_ok i (hs.used i ▸ hi)
  frame_inj i j hi hij := h.frame_inj i j (hs.used i ▸ hi) (by rw [← hs.frame, ← hs.frame, hij])
  count := by
    rw [hs.count, h.count_eq]
    exact congrArg Finset.card (usedFrames_congr hs.used).symm
  used_iff i := by rw [hs.swapUsed, hs.swapMap, h.used_iff]
  swap_ok i := by
    rw [hs.swapMap]
    exact h.swap_ok i
  swap_inj := by
    rw [hs.swapMap]
    exact h.swap_inj

/-- The entries of the tables speak only about some pages; on the others sizes and page tables may
change. -/
theorem TablesOk.congr (h : TablesOk t np pte pend)
    (hframe : ∀ i q w, (t.frameTable i).entry = (true, true, some q, w * pgSize) →
      w < np q → w < np' q ∧ pte' q w = pte q w)
    (hswap : ∀ i q w, (t.swapMap i).Holds q (w * pgSize) →
      w < np q → w < np' q ∧ pte' q w = pte q w) : TablesOk t np' pte' pend :=
  { h with
    frame_ok := fun i hi => by
      obtain ⟨q, w, heq, hlt, hor⟩ := h.frame_ok i hi
      obtain ⟨hlt', hpte⟩ := hframe i q w heq hlt
      exact ⟨q, w, heq, hlt', hpte ▸ hor⟩
    swap_ok := fun i hi => by
      obtain ⟨q, w, heq, hlt, hnone⟩ := h.swap_ok i hi
      obtain ⟨hlt', hpte⟩ := hswap i q w (by simp [heq, SwapEntry.Holds]) hlt
      exact ⟨q, w, heq, hlt', hpte ▸ hnone⟩ }

/-- A frame entry that is dropped. -/
theorem TablesOk.drop_frame (h : TablesOk t np pte pend) {i : FrameIdx}
    (hi : (t.frameTable i).used = true) (hi' : (t'.frameTable i).used = false)
    (hframe : ∀ j ≠ i, (t'.frameTable j).entry = (t.frameTable j).entry)
    (hcount : t'.userFrameCount = t.userFrameCount - 1)
    (hmap : t'.swapMap = t.swapMap) (hused : t'.swapUsed = t.swapUsed) :
    TablesOk t' np pte pend where
  frame_ok j hj := by
    have hji : j ≠ i := by
      rintro rfl
      simp [hi'] at hj
    have hjused : (t'.frameTable j).used = (t.frameTable j).used := congrArg (·.1) (hframe j hji)
    rw [hframe j hji]
    exact h.frame_ok j (hjused ▸ hj)
  frame_inj j j' hj hjj' := by
    have hji : j ≠ i := by
      rintro rfl
      simp [hi'] at hj
    have hj'i : j' ≠ i := by
      rintro rfl
      have := congrArg (·.1) hjj'
      simp only [Frame.entry] at this
      simp [this, hi'] at hj
    rw [hframe j hji, hframe j' hj'i] at hjj'
    have hjused : (t'.frameTable j).used = (t.frameTable j).used := congrArg (·.1) (hframe j hji)
    exact h.frame_inj j j' (hjused ▸ hj) hjj'
  count := by
    have hsame : ∀ j ≠ i, (t'.frameTable j).used = (t.frameTable j).used :=
      fun j hj => congrArg (·.1) (hframe j hj)
    rw [hcount, h.count_eq, ← Finset.card_erase_of_mem (mem_usedFrames.2 hi),
      ← usedFrames_erase hi' hsame]
    rfl
  used_iff j := by rw [hused, hmap, h.used_iff]
  swap_ok j := by
    rw [hmap]
    exact h.swap_ok j
  swap_inj := by
    rw [hmap]
    exact h.swap_inj

/-- `register_user_frame` -/
theorem TablesOk.register (h : TablesOk t np pte none) (hv : v < np p) (hpte : pte p v = none)
    (hreg : t.registerUserFrame p (v * pgSize) = some t') :
    TablesOk t' np pte (some (p, v)) := by
  obtain ⟨i, hi, rfl⟩ := registerUserFrame_eq_some hreg
  have hother : ∀ j ≠ i, (t.setFrame i ⟨true, true, some p, v * pgSize, true⟩).frameTable j =
      t.frameTable j := fun j hj => by simp [setFrame, hj]
  have hself : (t.setFrame i ⟨true, true, some p, v * pgSize, true⟩).frameTable i =
      ⟨true, true, some p, v * pgSize, true⟩ := by simp [setFrame]
  -- the page has no entry yet, because it is not mapped
  have hfresh : ∀ j, (t.frameTable j).entry ≠ (true, true, some p, v * pgSize) := by
    intro j hj
    have hjused : (t.frameTable j).used = true := congrArg (·.1) hj
    obtain ⟨q, w, heq, -, ⟨pa, hpa⟩ | ⟨hpend, -⟩⟩ := h.frame_ok j hjused
    · rw [heq] at hj
      simp only [Prod.mk.injEq, Option.some.injEq, true_and] at hj
      obtain ⟨rfl, hw⟩ := hj
      obtain rfl := Nat.eq_of_mul_eq_mul_right pgSize_pos hw
      simp [hpte] at hpa
    · simp at hpend
  refine ⟨fun j hj => ?_, fun j j' hj hjj' => ?_, ?_, h.used_iff, h.swap_ok, h.swap_inj⟩
  · by_cases hji : j = i
    · subst hji
      refine ⟨p, v, ?_, hv, .inr ⟨rfl, hpte⟩⟩
      dsimp only
      rw [hself]
      rfl
    · dsimp only at hj ⊢
      rw [hother j hji] at hj ⊢
      obtain ⟨q, w, heq, hlt, hpa | ⟨hpend, -⟩⟩ := h.frame_ok j hj
      · exact ⟨q, w, heq, hlt, .inl hpa⟩
      · simp at hpend
  · dsimp only at hj hjj'
    by_cases hji : j = i <;> by_cases hj'i : j' = i
    · rw [hji, hj'i]
    · rw [hji, hself, hother j' hj'i] at hjj'
      exact absurd hjj'.symm (hfresh j')
    · rw [hj'i, hself, hother j hji] at hjj'
      exact absurd hjj' (hfresh j)
    · rw [hother j hji, hother j' hj'i] at hjj'
      rw [hother j hji] at hj
      exact h.frame_inj j j' hj hjj'
  · have hins : usedFrames { t.setFrame i ⟨true, true, some p, v * pgSize, true⟩ with
        userFrameCount := t.userFrameCount + 1 } = insert i t.usedFrames :=
      usedFrames_insert (by simp [hself]) fun j hj => by simp [hother j hj]
    change t.userFrameCount + 1 = (usedFrames _).card
    rw [hins, Finset.card_insert_of_notMem (by simp [mem_usedFrames, hi]), h.count_eq]

/-- The pending page is mapped. -/
theorem TablesOk.map (h : TablesOk t np pte (some (p, v)))
    (hswap : ∀ i, ¬ (t.swapMap i).Holds p (v * pgSize)) {pa : PA}
    (hself : pte' p v = some ⟨pa, .userRw⟩) (hother : ∀ q w, (q, w) ≠ (p, v) → pte' q w = pte q w) :
    TablesOk t np pte' none :=
  { h with
    frame_ok := fun i hi => by
      obtain ⟨q, w, heq, hlt, hor⟩ := h.frame_ok i hi
      by_cases hqw : (q, w) = (p, v)
      · obtain ⟨rfl, rfl⟩ := Prod.mk.inj hqw
        exact ⟨q, w, heq, hlt, .inl ⟨pa, hself⟩⟩
      · refine ⟨q, w, heq, hlt, .inl ?_⟩
        rw [hother q w hqw]
        exact hor.resolve_right fun hpend => hqw (Option.some.inj hpend.1).symm
    swap_ok := fun i hi => by
      obtain ⟨q, w, heq, hlt, hnone⟩ := h.swap_ok i hi
      have hqw : (q, w) ≠ (p, v) := by
        rintro ⟨⟩
        exact hswap i (by simp [heq, SwapEntry.Holds])
      exact ⟨q, w, heq, hlt, (hother q w hqw).trans hnone⟩ }

/-- The frame entry of a page goes away, along with its mapping. -/
theorem TablesOk.freeFrame (h : TablesOk t np pte pend) (hpend : pend = none ∨ pend = some (p, v))
    (hself : pte' p v = none) (hother : ∀ q w, (q, w) ≠ (p, v) → pte' q w = pte q w) :
    TablesOk (t.freeFrameEntry (some p) (v * pgSize)) np pte' none := by
  -- first the entry, then the mapping
  have hdrop : TablesOk (t.freeFrameEntry (some p) (v * pgSize)) np pte pend ∧
      ∀ i, ((t.freeFrameEntry (some p) (v * pgSize)).frameTable i).entry ≠
        (true, true, some p, v * pgSize) := by
    unfold freeFrameEntry
    cases hf : t.findFrame (some p) (v * pgSize) with
    | none => exact ⟨h, findFrame_eq_none hf⟩
    | some i =>
      have hi := findFrame_eq_some hf
      have hused : (t.frameTable i).used = true := congrArg (·.1) hi
      refine ⟨h.drop_frame hused (by simp [decCount, setFrame, Frame.clear])
        (fun j hj => by simp [decCount, setFrame, hj]) rfl rfl rfl, fun j hj => ?_⟩
      by_cases hji : j = i
      · simp [hji, decCount, setFrame, Frame.clear, Frame.entry] at hj
      · simp only [decCount, setFrame, Function.update_of_ne hji] at hj
        have hjused : (t.frameTable j).used = true := congrArg (·.1) hj
        exact hji (h.frame_inj j i hjused (hj.trans hi.symm))
  obtain ⟨h', hnot⟩ := hdrop
  exact { h' with
    frame_ok := fun i hi => by
      obtain ⟨q, w, heq, hlt, hor⟩ := h'.frame_ok i hi
      have hqw : (q, w) ≠ (p, v) := by
        rintro ⟨⟩
        exact hnot i heq
      refine ⟨q, w, heq, hlt, .inl ?_⟩
      rw [hother q w hqw]
      refine hor.resolve_right fun hp => ?_
      rcases hpend with hpend | hpend
      · simp [hpend] at hp
      · exact hqw (Option.some.inj (hp.1.symm.trans hpend))
    swap_ok := fun i hi => by
      obtain ⟨q, w, heq, hlt, hnone⟩ := h'.swap_ok i hi
      refine ⟨q, w, heq, hlt, ?_⟩
      by_cases hqw : (q, w) = (p, v)
      · obtain ⟨rfl, rfl⟩ := Prod.mk.inj hqw
        exact hself
      · rw [hother q w hqw, hnone] }

/-- No frame entry belongs to nobody. -/
theorem TablesOk.freeFrame_none (h : TablesOk t np pte pend) (va : ℕ) :
    t.freeFrameEntry none va = t := by
  unfold freeFrameEntry
  cases hf : t.findFrame none va with
  | none => rfl
  | some i =>
    have hi := findFrame_eq_some hf
    obtain ⟨q, w, heq, -⟩ := h.frame_ok i (congrArg (·.1) hi)
    rw [heq] at hi
    simp at hi

/-- A page leaves swap. -/
theorem TablesOk.releaseSwap (h : TablesOk t np pte pend) {i : SlotIdx}
    (hi : (t.swapMap i).used = true) : TablesOk (t.releaseSwap i (some i)) np pte pend := by
  have hself : (t.releaseSwap i (some i)).swapMap i = .clear := by
    simp [Tables.releaseSwap, setSwap]
  have hother : ∀ j ≠ i, (t.releaseSwap i (some i)).swapMap j = t.swapMap j :=
    fun j hj => by simp [Tables.releaseSwap, setSwap, releaseSlot, setSwapUsed, hj]
  have hne : ∀ j, ((t.releaseSwap i (some i)).swapMap j).used = true → j ≠ i := by
    rintro j hj rfl
    simp [hself, SwapEntry.clear] at hj
  refine { h with used_iff := fun j => ?_, swap_ok := fun j hj => ?_,
                  swap_inj := fun j j' q va hj hj' => ?_ }
  · by_cases hji : j = i
    · subst hji
      rw [hself]
      simp [Tables.releaseSwap, setSwap, releaseSlot, setSwapUsed, SwapEntry.clear]
    · rw [hother j hji, ← h.used_iff]
      simp [Tables.releaseSwap, setSwap, releaseSlot, setSwapUsed, hji]
  · have hji := hne j hj
    rw [hother j hji] at hj ⊢
    exact h.swap_ok j hj
  · have hji := hne j hj.1
    have hj'i := hne j' hj'.1
    rw [hother j hji] at hj
    rw [hother j' hj'i] at hj'
    exact h.swap_inj j j' q va hj hj'

/-- Which pages are in swap after a page has left it. -/
theorem TablesOk.releaseSwap_holds (h : TablesOk t np pte pend) {i : SlotIdx}
    (hi : (t.swapMap i).Holds p (v * pgSize)) :
    (∀ j, ¬ ((t.releaseSwap i (some i)).swapMap j).Holds p (v * pgSize)) ∧
      ∀ j q w, (q, w) ≠ (p, v) → (((t.releaseSwap i (some i)).swapMap j).Holds q (w * pgSize) ↔
        (t.swapMap j).Holds q (w * pgSize)) := by
  have hself : (t.releaseSwap i (some i)).swapMap i = .clear := by
    simp [Tables.releaseSwap, setSwap]
  have hother : ∀ j ≠ i, (t.releaseSwap i (some i)).swapMap j = t.swapMap j :=
    fun j hj => by simp [Tables.releaseSwap, setSwap, releaseSlot, setSwapUsed, hj]
  have hclear : ∀ {q va}, ¬ SwapEntry.clear.Holds q va := by
    rintro q va ⟨hc, -⟩
    simp [SwapEntry.clear] at hc
  refine ⟨fun j hj => ?_, fun j q w hqw => ?_⟩
  · by_cases hji : j = i
    · rw [hji, hself] at hj
      exact hclear hj
    · rw [hother j hji] at hj
      exact hji (h.swap_inj j i p _ hj hi)
  · by_cases hji : j = i
    · rw [hji, hself]
      refine ⟨fun hj => absurd hj hclear, ?_⟩
      rintro ⟨-, hq, hw⟩
      rw [hi.2.1] at hq
      rw [hi.2.2] at hw
      exact absurd (Prod.ext (Option.some.inj hq).symm
        (Nat.eq_of_mul_eq_mul_right pgSize_pos hw).symm) hqw
    · rw [hother j hji]

/-- The section of `uvmunmap` on the swap map. -/
theorem TablesOk.freeSwapEntry (h : TablesOk t np pte pend) (p : ProcIdx) (v : ℕ) :
    TablesOk (t.freeSwapEntry p (v * pgSize)) np pte pend ∧
      (∀ j, ¬ ((t.freeSwapEntry p (v * pgSize)).swapMap j).Holds p (v * pgSize)) ∧
      ∀ j q w, (q, w) ≠ (p, v) → (((t.freeSwapEntry p (v * pgSize)).swapMap j).Holds q
        (w * pgSize) ↔ (t.swapMap j).Holds q (w * pgSize)) := by
  unfold Tables.freeSwapEntry
  cases hf : t.findSwap p (v * pgSize) with
  | none => exact ⟨h, findSwap_eq_none hf, fun _ _ _ _ => Iff.rfl⟩
  | some i =>
    have hi := findSwap_eq_some hf
    simp only [h.swapMap_eq hi]
    exact ⟨h.releaseSwap hi.1, h.releaseSwap_holds hi⟩

/-- A page goes to swap, into a free slot. -/
theorem TablesOk.addSwap (h : TablesOk t np pte pend) {s : SlotIdx}
    (hfree : (t.swapMap s).used = false) (hv : v < np p) (hpte : pte p v = none)
    (hnot : ∀ i, ¬ (t.swapMap i).Holds p (v * pgSize))
    (hframe : t'.frameTable = t.frameTable) (hcount : t'.userFrameCount = t.userFrameCount)
    (hmap : t'.swapMap = Function.update t.swapMap s ⟨true, some p, v * pgSize, some s⟩)
    (hused : t'.swapUsed = Function.update t.swapUsed s true) : TablesOk t' np pte pend where
  frame_ok i := by
    rw [hframe]
    exact h.frame_ok i
  frame_inj i j := by
    rw [hframe]
    exact h.frame_inj i j
  count := by rw [hcount, hframe, h.count]
  used_iff i := by
    rw [hmap, hused]
    by_cases hi : i = s
    · simp [hi]
    · simp [hi, h.used_iff]
  swap_ok i hi := by
    rw [hmap] at hi ⊢
    by_cases his : i = s
    · subst his
      exact ⟨p, v, by simp, hv, hpte⟩
    · rw [Function.update_of_ne his] at hi ⊢
      exact h.swap_ok i hi
  swap_inj i j q va hi hj := by
    rw [hmap] at hi hj
    -- two entries for one page: neither is the new one, or both are
    have hnew : ∀ {l}, SwapEntry.Holds ⟨true, some p, v * pgSize, some s⟩ q va →
        ¬ (t.swapMap l).Holds q va := by
      rintro l ⟨-, hq, hva⟩ hl
      obtain rfl : p = q := Option.some.inj hq
      obtain rfl : v * pgSize = va := hva
      exact hnot l hl
    by_cases his : i = s <;> by_cases hjs : j = s
    · rw [his, hjs]
    · rw [his, Function.update_self] at hi
      rw [Function.update_of_ne hjs] at hj
      exact absurd hj (hnew hi)
    · rw [hjs, Function.update_self] at hj
      rw [Function.update_of_ne his] at hi
      exact absurd hi (hnew hj)
    · rw [Function.update_of_ne his] at hi
      rw [Function.update_of_ne hjs] at hj
      exact h.swap_inj i j q va hi hj

/-- A mapped page is evicted: its frame entry goes, its mapping goes and it gets a slot. -/
theorem TablesOk.evict (h : TablesOk t np pte none) {vic : Victim} (hb : Begun t t' vic)
    (hp : vic.proc = some p) (hva : vic.va = v * pgSize) (hv : v < np p)
    (hmapped : pte p v ≠ none) (hself : pte' p v = none)
    (hother : ∀ q w, (q, w) ≠ (p, v) → pte' q w = pte q w) :
    TablesOk (t'.evictPublish vic) np pte' none := by
  have hentry := hb.entry
  rw [hp, hva] at hentry
  have hfree : (t.swapMap vic.slot).used = false := by rw [← h.used_iff, hb.free]
  -- the frame entry
  have hdrop : TablesOk { t'.evictPublish vic with swapMap := t.swapMap, swapUsed := t.swapUsed }
      np pte none := by
    refine h.drop_frame (i := vic.frame) (congrArg (·.1) hentry) ?_ (fun j hj => ?_) ?_ rfl rfl
    · simp [evictPublish, decCount, setFrame]
    · rw [← hb.frame j hj]
      simp [evictPublish, decCount, setFrame, setSwap, hj]
    · simp [evictPublish, decCount, setFrame, setSwap, hb.count]
  -- the mapping: no entry is left that depends on it
  have hunmap : TablesOk { t'.evictPublish vic with swapMap := t.swapMap, swapUsed := t.swapUsed }
      np pte' none := by
    refine hdrop.congr (fun i q w hi hlt => ⟨hlt, hother q w ?_⟩)
      fun i q w hi hlt => ⟨hlt, hother q w ?_⟩
    · rintro ⟨⟩
      by_cases hif : i = vic.frame
      · simp [hif, evictPublish, decCount, setFrame, Frame.entry] at hi
      · have hi' : (t.frameTable i).entry = (true, true, some p, v * pgSize) := by
          rw [← hb.frame i hif, ← hi]
          simp [evictPublish, decCount, setFrame, setSwap, hif]
        exact hif (h.frame_inj i vic.frame (congrArg (·.1) hi') (hi'.trans hentry.symm))
    · rintro ⟨⟩
      exact hmapped (hdrop.swap_pte hi).2
  refine hunmap.addSwap hfree hv hself (fun i hi => hmapped (hdrop.swap_pte hi).2) rfl rfl ?_ ?_
  · simp [evictPublish, decCount, setFrame, setSwap, hb.swapMap, hp, hva]
  · simp [evictPublish, decCount, setFrame, setSwap, hb.swapUsed]

/-- The used frame entries are user frames, so those of a process are all found. -/
theorem TablesOk.ownFrame_iff (h : TablesOk t np pte pend) (p : ProcIdx) (i : FrameIdx) :
    t.OwnFrame p i ↔ (t.frameTable i).used = true ∧ (t.frameTable i).proc = some p := by
  refine ⟨fun ho => ⟨?_, ho.2⟩, fun ho => ⟨?_, ho.2⟩⟩
  · have hev := ho.1
    simp only [Frame.evictable, Bool.and_eq_true] at hev
    exact hev.1
  · obtain ⟨q, w, heq, -⟩ := h.frame_ok i ho.1
    simp only [Frame.entry, Prod.mk.injEq] at heq
    simp [Frame.evictable, heq]

/-- Everything of a process goes away, whatever becomes of its page table. -/
theorem TablesOk.freeProc (h : TablesOk t np pte none) (hf : FreedProc t t' p)
    (hnp : ∀ q ≠ p, np' q = np q) (hpte : ∀ q ≠ p, pte' q = pte q) :
    TablesOk t' np' pte' none := by
  have hown := h.ownFrame_iff p
  have hframe : ∀ i, (t'.frameTable i).used = true →
      ¬ t.OwnFrame p i ∧ t'.frameTable i = t.frameTable i := by
    intro i hi
    rw [hf.frame] at hi ⊢
    by_cases ho : t.OwnFrame p i
    · simp [ho, Frame.clear] at hi
    · exact ⟨ho, if_neg ho⟩
  have hswap : ∀ i, (t'.swapMap i).used = true →
      ¬ t.OwnSwap p i ∧ t'.swapMap i = t.swapMap i := by
    intro i hi
    rw [hf.swapMap] at hi ⊢
    by_cases ho : t.OwnSwap p i
    · simp [ho, SwapEntry.clear] at hi
    · exact ⟨ho, if_neg ho⟩
  refine ⟨fun i hi => ?_, fun i j hi hij => ?_, ?_, fun i => ?_, fun i hi => ?_,
    fun i j q va hi hj => ?_⟩
  · obtain ⟨ho, heq⟩ := hframe i hi
    rw [heq] at hi ⊢
    obtain ⟨q, w, hentry, hlt, hor⟩ := h.frame_ok i hi
    have hq : q ≠ p := by
      rintro rfl
      simp only [Frame.entry, Prod.mk.injEq] at hentry
      exact ho ((hown i).2 ⟨hi, hentry.2.2.1⟩)
    exact ⟨q, w, hentry, hnp q hq ▸ hlt, hpte q hq ▸ hor⟩
  · have hj : (t'.frameTable j).used = true := (congrArg (·.1) hij).symm.trans hi
    rw [(hframe i hi).2, (hframe j hj).2] at hij
    exact h.frame_inj i j ((hframe i hi).2 ▸ hi) hij
  · have hsub : t'.usedFrames = t.usedFrames \ Finset.univ.filter fun i => t.OwnFrame p i := by
      ext i
      simp only [mem_usedFrames, Finset.mem_sdiff, Finset.mem_filter, Finset.mem_univ, true_and,
        hf.frame]
      by_cases ho : t.OwnFrame p i <;> simp [ho, Frame.clear]
    have hle : (Finset.univ.filter fun i => t.OwnFrame p i) ⊆ t.usedFrames := by
      intro i hi
      exact mem_usedFrames.2 ((hown i).1 (Finset.mem_filter.1 hi).2).1
    change t'.userFrameCount = t'.usedFrames.card
    rw [hf.count, hsub, Finset.card_sdiff_of_subset hle, h.count_eq]
    congr 1
  · by_cases ho : t.OwnSwap p i
    · obtain ⟨q, w, heq, -⟩ := h.swap_ok i ho.1
      rw [hf.swapMap, if_pos ho, hf.swapUsed, if_pos ⟨i, ho, by rw [heq]⟩]
      rfl
    · rw [hf.swapMap, if_neg ho, hf.swapUsed, if_neg, h.used_iff]
      rintro ⟨j, hj, hslot⟩
      obtain ⟨q, w, heq, -⟩ := h.swap_ok j hj.1
      rw [heq] at hslot
      exact ho (Option.some.inj hslot ▸ hj)
  · obtain ⟨ho, heq⟩ := hswap i hi
    rw [heq] at hi ⊢
    obtain ⟨q, w, hentry, hlt, hnone⟩ := h.swap_ok i hi
    have hq : q ≠ p := by
      rintro rfl
      exact ho ⟨hi, by rw [hentry]⟩
    exact ⟨q, w, hentry, hnp q hq ▸ hlt, hpte q hq ▸ hnone⟩
  · exact h.swap_inj i j q va ((hswap i hi.1).2 ▸ hi) ((hswap j hj.1).2 ▸ hj)

end TablesOk

end Xv6Swap.Paging
