import Xv6Swap.Paging.Calls

/-!
# Resident-page accounting

`getvmstats` reports the counter `resident_pages` of a process. Page faults and evictions keep it
equal to the number of frame entries of the process (`MoveStep.counted`), and so do growth, `fork`,
`exit` and `wait`. `uvmunmap` drops the frame entries of the pages that it unmaps and leaves the
counter as it is. So the counter is right in every run in which no `sbrk` unmaps a page with a frame
entry (`resident_pages_counted`), and wrong after one that does (`shrink_not_counted`).
-/

namespace Xv6Swap.Paging

open Raid (pgSize)

/-- `struct vmstats` -/
structure VmStats where
  pageFaults : ℤ
  pagesSwappedIn : ℤ
  pagesSwappedOut : ℤ
  pagesEvicted : ℤ
  residentPages : ℤ

/-- The frame entry is in use for a page of `q`. -/
def Frame.OwnedBy (f : Frame) (q : ProcIdx) : Prop := f.used = true ∧ f.proc = some q

instance Frame.ownedByDecidable (f : Frame) (q : ProcIdx) : Decidable (f.OwnedBy q) :=
  inferInstanceAs (Decidable (_ ∧ _))

theorem Frame.ownedBy_iff {f : Frame} {q : ProcIdx} :
    f.OwnedBy q ↔ ∃ u va, f.page = some (u, some q, va) := by
  constructor
  · rintro ⟨hu, hq⟩
    exact ⟨f.userFrame, f.va, by simp [Frame.page, hu, hq]⟩
  · rintro ⟨u, va, h⟩
    unfold Frame.page at h
    split at h
    · rename_i hu
      obtain ⟨-, hq, -⟩ := by simpa only [Option.some.injEq, Prod.mk.injEq] using h
      exact ⟨hu, hq⟩
    · cases h

theorem Frame.ownedBy_congr {f f' : Frame} (h : f'.page = f.page) (q : ProcIdx) :
    f'.OwnedBy q ↔ f.OwnedBy q := by
  rw [Frame.ownedBy_iff, Frame.ownedBy_iff, h]

namespace Tables

variable {t t' : Tables} {p : ProcIdx} {i : FrameIdx}

/-- The number of frame entries of a process. -/
def framesOf (t : Tables) (q : ProcIdx) : ℕ :=
  (Finset.univ.filter fun i => (t.frameTable i).OwnedBy q).card

theorem framesOf_congr (q : ProcIdx)
    (h : ∀ i, (t'.frameTable i).OwnedBy q ↔ (t.frameTable i).OwnedBy q) :
    t'.framesOf q = t.framesOf q := by
  simp only [framesOf, h]

theorem framesOf_eq_zero {q : ProcIdx} (h : ∀ i, ¬ (t.frameTable i).OwnedBy q) :
    t.framesOf q = 0 := by
  simp [framesOf, h]

/-- An entry is added for a page of `p`. -/
theorem framesOf_add {u : Bool} {va : ℕ} (hi : (t.frameTable i).page = none)
    (hi' : (t'.frameTable i).page = some (u, some p, va))
    (hother : ∀ j ≠ i, (t'.frameTable j).page = (t.frameTable j).page) (q : ProcIdx) :
    t'.framesOf q = t.framesOf q + if q = p then 1 else 0 := by
  have hfree : ¬ (t.frameTable i).OwnedBy q := by simp [Frame.ownedBy_iff, hi]
  split
  · rename_i hq
    subst hq
    have hset : (Finset.univ.filter fun j => (t'.frameTable j).OwnedBy q) =
        insert i (Finset.univ.filter fun j => (t.frameTable j).OwnedBy q) := by
      ext j
      by_cases hj : j = i
      · subst hj
        simp [Frame.ownedBy_iff, hi']
      · simp [hj, Frame.ownedBy_congr (hother j hj)]
    rw [framesOf, hset, Finset.card_insert_of_notMem (by simpa using hfree), framesOf]
  · rename_i hq
    refine framesOf_congr q fun j => ?_
    by_cases hj : j = i
    · subst hj
      simp [Frame.ownedBy_iff, hi', hi, Ne.symm hq]
    · exact Frame.ownedBy_congr (hother j hj) q

end Tables

namespace Kernel

open Tables

variable {σ : Type} {S : SwapOps σ} {L : SwapLaws S} {k k' : Kernel σ} {c : MemCall}

/-- What `sys_getvmstats` copies out for the process `q`. -/
def getvmstats (q : ProcIdx) (k : Kernel σ) : VmStats where
  pageFaults := (k.procs q).pageFaults
  pagesSwappedIn := (k.procs q).pagesSwappedIn
  pagesSwappedOut := (k.procs q).pagesSwappedOut
  pagesEvicted := (k.procs q).pagesEvicted
  residentPages := (k.procs q).residentPages

/-- The counters are the numbers of frame entries. -/
def Counted (k : Kernel σ) : Prop :=
  ∀ q, (k.procs q).state ≠ .unused → (k.getvmstats q).residentPages = k.tables.framesOf q

/-- The call does not unmap a page with a frame entry: if it is an `sbrk` that is to shrink, the
frame entries of the process are for pages below the new size. -/
def KeepsFrames (k : Kernel σ) : MemCall → Prop
  | .sbrk p n _ => n.toInt < 0 → ∀ i, (k.tables.frameTable i).OwnedBy p →
      (k.tables.frameTable i).va < pgRoundUp (addSize (k.procs p).sz n.toInt)
  | _ => True

instance keepsFramesDecidable (k : Kernel σ) : (c : MemCall) → Decidable (k.KeepsFrames c)
  | .fault _ _ => inferInstanceAs (Decidable True)
  | .evict => inferInstanceAs (Decidable True)
  | .sbrk _ _ _ => inferInstanceAs (Decidable (_ → ∀ _, _ → _))
  | .fork _ => inferInstanceAs (Decidable True)
  | .exit _ _ => inferInstanceAs (Decidable True)
  | .wait _ _ _ => inferInstanceAs (Decidable True)

/-! ## Faults and evictions -/

theorem Proc.state_of_shape {a b : Proc} (h : a.shape = b.shape) : a.state = b.state :=
  congrArg Prod.fst h

/-- An eviction takes a page from the number of resident pages. -/
theorem SwapsOut.counted {p : ProcIdx} {v : ℕ} {root pa : PA} {f : FrameIdx} {s : SlotIdx}
    (h : SwapsOut S p v root pa f s k k') (hk : k.Counted)
    (hp : (k.procs p).state ≠ .unused) : 0 < (k.procs p).residentPages ∧
      (k'.procs p).residentPages = (k.procs p).residentPages - 1 ∧ k'.Counted := by
  have hframe : (k.tables.frameTable f).page = some (true, some p, v * pgSize) := by
    have hentry := h.entry
    simp only [Frame.entry, Prod.mk.injEq] at hentry
    simp [Frame.page, hentry]
  have hcount : ∀ q, k.tables.framesOf q = k'.tables.framesOf q + if q = p then 1 else 0 :=
    framesOf_add (i := f) (by simp [h.frame_self, Frame.page, Frame.clear]) hframe
      fun j hj => (Frame.page_congr (h.frame_other j hj)).symm
  have hpos : 0 < (k.procs p).residentPages := by
    have hp := hk p hp
    have hself := hcount p
    rw [if_pos rfl] at hself
    change (k.procs p).residentPages = _ at hp
    omega
  have hproc : ∀ q, (k'.procs q).residentPages =
      (k.procs q).residentPages - if q = p then 1 else 0 := by
    intro q
    rw [h.procs]
    by_cases hq : q = p
    · subst hq
      simp [countEviction, setProc, hpos]
    · simp [countEviction, setProc, hq]
  refine ⟨hpos, by simpa using hproc p, fun q hq => ?_⟩
  rw [Proc.state_of_shape (h.shape q)] at hq
  have hold : (k.procs q).residentPages = k.tables.framesOf q := hk q hq
  change (k'.procs q).residentPages = _
  rw [hproc, hold, hcount q]
  push_cast
  split <;> omega

/-- A process with a frame entry is in use. -/
theorem SwapsOut.state {p : ProcIdx} {v : ℕ} {root pa : PA} {f : FrameIdx} {s : SlotIdx}
    (h : SwapsOut S p v root pa f s k k') (hclean : k.Clean) : (k.procs p).state ≠ .unused := by
  intro hp
  have hnone := (hclean p hp).pagetable
  rw [h.pagetable] at hnone
  cases hnone

theorem MoveStep.counted (h : MoveStep S k k') (hclean : k.Clean) (hk : k.Counted) :
    k'.Counted := by
  cases h with
  | same h =>
    intro q hq
    rw [Proc.state_of_shape (h.shape q)] at hq
    rw [framesOf_congr q fun i => Frame.ownedBy_congr (h.frame i) q]
    exact (h.resident q).trans (hk q hq)
  | pageOut h => exact (h.counted hk (h.state hclean)).2.2
  | pageIn h =>
    intro q hq
    rw [Proc.state_of_shape (h.shape q)] at hq
    have hold : (k.procs q).residentPages = k.tables.framesOf q := hk q hq
    change (k'.procs q).residentPages = _
    rw [h.resident, hold,
      framesOf_add (Frame.page_of_unused h.unused) h.frame_self h.frame_other q]
    push_cast
    rfl

theorem Moves.counted (h : Moves S k k') (hclean : k.Clean) (hk : k.Counted) : k'.Counted := by
  refine (h.keeps (P := fun k => k.Clean ∧ k.Counted) (fun k₁ k₂ hstep hk₁ => ?_)
    ⟨hclean, hk⟩).2
  exact ⟨hstep.moves.clean hk₁.1, hstep.counted hk₁.1 hk₁.2⟩

/-! ## The other calls -/

theorem Resizes.counted {p : ProcIdx} {n : Int32} {eager : Bool} (h : Resizes p n.toInt eager k k')
    (hkeep : k.KeepsFrames (.sbrk p n eager)) (hk : k.Counted) : k'.Counted := by
  obtain ⟨sz', hprocs⟩ := h.procs
  have hsame : ∀ q, (k'.procs q).state = (k.procs q).state ∧
      (k'.procs q).residentPages = (k.procs q).residentPages := by
    intro q
    by_cases hq : q = p <;> simp [hprocs, setProc, hq]
  have hframe : ∀ i, (k'.tables.frameTable i).page = (k.tables.frameTable i).page := by
    intro i
    rcases h.frame i with hi | ⟨hd, w, hle, hi, -⟩
    · exact hi
    · -- the entry would be for a page at or above the new size
      exfalso
      have hlt := hkeep hd i (Frame.ownedBy_iff.2 ⟨_, _, hi⟩)
      unfold Frame.page at hi
      split at hi
      · obtain ⟨-, -, hva⟩ := by simpa only [Option.some.injEq, Prod.mk.injEq] using hi
        rw [hva, pgRoundUp_eq] at hlt
        exact absurd (lt_of_mul_lt_mul_right hlt (Nat.zero_le _)) (Nat.not_lt.2 hle)
      · cases hi
  intro q hq
  rw [(hsame q).1] at hq
  rw [framesOf_congr q fun i => Frame.ownedBy_congr (hframe i) q]
  exact (hsame q).2.trans (hk q hq)

theorem NoTrace.counted (h : NoTrace L k k') (hk : k.Counted) : k'.Counted := by
  intro q hq
  have hold : (k.procs q).state ≠ .unused := fun hu => hq (h.unused q hu).state
  change (k'.procs q).residentPages = _
  rw [h.procs q hold, framesOf_congr (t := k.tables) q fun i => by rw [h.frameTable]]
  exact hk q hold

theorem Forks.counted {p q : ProcIdx} (h : Forks p q k k') (hsound : k.Sound) (hclean : k.Clean)
    (hk : k.Counted) : k'.Counted := by
  intro r hr
  rw [framesOf_congr (t := k.tables) r fun i => by rw [h.frameTable]]
  change (k'.procs r).residentPages = _
  by_cases hrq : r = q
  · subst hrq
    rw [h.resident]
    obtain ⟨g, hinv, hs⟩ := hsound
    have hnp : g.np r = 0 := by simp [Ghost.np, hs.own, (hclean r h.unused).pagetable]
    rw [framesOf_eq_zero fun i hi => ?_]
    · rfl
    · have hnone := hinv.page_eq_none hnp hi.2
      simp [Frame.page, hi.1] at hnone
  · rw [h.procs r hrq] at hr ⊢
    exact hk r hr

theorem Frees.counted {q : ProcIdx} (h : Frees q k k') (hk : k.Counted) : k'.Counted := by
  intro r hr
  have hrq : r ≠ q := by
    rintro rfl
    exact hr h.blank.state
  rw [h.procs r hrq] at hr
  change (k'.procs r).residentPages = _
  rw [h.procs r hrq, framesOf_congr r fun i => ?_]
  · exact hk r hr
  · rw [Frame.ownedBy_iff, h.frame i]
    split
    · rename_i hproc
      simp [Frame.OwnedBy, hproc, Ne.symm hrq]
    · exact Frame.ownedBy_iff.symm

theorem kexit_counted (p : ProcIdx) (status : BitVec 32) (halive : k.Alive p) (hk : k.Counted) :
    (k.kexit p status).Counted := by
  intro q hq
  by_cases hqp : q = p
  · subst hqp
    simpa [kexit, setProc, getvmstats] using hk q halive.1
  · have hsame : (k.kexit p status).procs q = k.procs q := by simp [kexit, setProc, hqp]
    rw [hsame] at hq
    change ((k.kexit p status).procs q).residentPages = _
    rw [hsame]
    exact hk q hq

theorem MemEffect.counted (h : MemEffect L k k' c) (hsound : k.Sound) (hclean : k.Clean)
    (hkeep : k.KeepsFrames c) (hk : k.Counted) : k'.Counted := by
  cases h with
  | moves h => exact h.counted hclean hk
  | resizes _ h => exact h.counted hkeep hk
  | noTrace h => exact h.counted hk
  | forks h => exact h.counted hsound hclean hk
  | exits halive h =>
    subst h
    exact kexit_counted _ _ halive hk
  | reaps hmoves _ h => exact h.counted (hmoves.counted hclean hk)

/-! ## Runs -/

/-- An eviction in a state between two moves of a call counts the page. -/
theorem evictOneUserFrame_counted (L : SwapLaws S) (h : k.Sound) (hclean : k.Clean)
    (hk : k.Counted) (heq : k.evictOneUserFrame S = .ok (true, k')) :
    ∃ q, 0 < (k.procs q).residentPages ∧
      (k'.procs q).residentPages = (k.procs q).residentPages - 1 ∧
      (k'.procs q).pagesEvicted = (k.procs q).pagesEvicted + 1 := by
  obtain ⟨g, hinv, hs⟩ := h
  obtain ⟨t, -, heq'⟩ | ⟨p, _, heq', hstep⟩ := evictOneUserFrame_cases L hinv hs.own hs.pend
  · cases (Prod.mk.inj (Except.ok.inj (heq.symm.trans heq'))).1
  obtain ⟨-, rfl⟩ := Prod.mk.inj (Except.ok.inj (heq.symm.trans heq'))
  obtain ⟨v, root, pa, f, s, hout⟩ := hstep.swapsOut hinv hs.own hs.pend
  obtain ⟨hpos, hdec, -⟩ := hout.counted hk (hout.state hclean)
  refine ⟨p, hpos, hdec, ?_⟩
  rw [hout.procs]
  simp [countEviction, setProc]

/-- **The counter of resident pages is the number of frame entries.** In every run of page faults,
evictions, `sbrk`, `fork`, `exit` and `wait` in which no `sbrk` unmaps a page with a frame entry,
`getvmstats` reports for every process in use the number of its frame entries; and wherever the next
call evicts a page, the counter of its owner is positive and is decremented. -/
theorem resident_pages_counted (L : SwapLaws S) {k₀ : Kernel σ} {cs : List MemCall}
    (hsound : k₀.Sound) (hclean : k₀.Clean) (hcount : k₀.Counted)
    (hrun : MemRuns S KeepsFrames k₀ cs k) :
    (∀ q, (k.procs q).state ≠ .unused →
      (k.getvmstats q).residentPages = k.tables.framesOf q) ∧
    ∀ k₁ k₂, Moves S k k₁ → k₁.Sound → k₁.evictOneUserFrame S = .ok (true, k₂) →
      ∃ q, 0 < (k₁.procs q).residentPages ∧
        (k₂.procs q).residentPages = (k₁.procs q).residentPages - 1 ∧
        (k₂.procs q).pagesEvicted = (k₁.procs q).pagesEvicted + 1 := by
  obtain ⟨hs, hc, hk⟩ := hrun.keeps L hsound hclean hcount
    fun k k' c hs hc _ hkeep heffect hk => heffect.counted hs hc hkeep hk
  exact ⟨hk, fun k₁ k₂ hmoves hs₁ heq =>
    evictOneUserFrame_counted L hs₁ (hmoves.clean hc) (hmoves.counted hc hk) heq⟩

theorem sole_counted : sole.Counted := by
  intro q hq
  have hres : (sole.procs q).residentPages = 0 := by
    by_cases hp : q = soleProc <;> simp [sole, hp]
  rw [framesOf_eq_zero fun i hi => Bool.false_ne_true hi.1]
  exact hres

/-- A page fault, a growth that is taken back before the page was touched, and a fault of the page
in swap. -/
def soleCalls : List MemCall :=
  [.fault soleProc 4096, .sbrk soleProc 4096 false, .sbrk soleProc (-4096) false,
    .fault soleProc 0]

/-- The state, the counter and the number of frame entries of a process. -/
def tally (k : Kernel σ) (q : ProcIdx) : ProcState × ℤ × ℕ :=
  ((k.procs q).state, (k.getvmstats q).residentPages, k.tables.framesOf q)

theorem sole_tally : (memCalls (raidSwap .raid5) KeepsFrames soleCalls sole).map
    (fun k => k.tally soleProc) = some (.running, 2, 2) := by
  decide +kernel

theorem resident_pages_counted_sole : sole.Sound ∧ sole.Clean ∧ sole.Counted ∧ ∃ k,
    MemRuns (raidSwap .raid5) KeepsFrames sole soleCalls k ∧ k.tables.framesOf soleProc = 2 ∧
      (k.getvmstats soleProc).residentPages = k.tables.framesOf soleProc := by
  obtain ⟨k, hcalls, hk⟩ := Option.map_eq_some_iff.1 sole_tally
  obtain ⟨hstate, -, hframes⟩ := by simpa only [tally, Prod.mk.injEq] using hk
  have hrun := memRuns_of_memCalls .nil hcalls
  exact ⟨sole_sound, sole_clean, sole_counted, k, hrun, hframes,
    (resident_pages_counted (raidSwapLaws .raid5) sole_sound sole_clean sole_counted hrun).1
      soleProc (by simp [hstate])⟩

theorem shrunk_tally : (memCalls (raidSwap .raid5) (fun _ _ => True)
    [.fault soleProc 4096, .sbrk soleProc (-8192) false] sole).map
      (fun k => k.tally soleProc) = some (.running, 1, 0) := by
  decide +kernel

/-- The second page is touched and then given up: its frame entry is gone, and it is still
counted. -/
theorem shrink_not_counted : sole.Sound ∧ sole.Clean ∧ sole.Counted ∧ ∃ k,
    MemRuns (raidSwap .raid5) (fun _ _ => True) sole
      [.fault soleProc 4096, .sbrk soleProc (-8192) false] k ∧
      (k.procs soleProc).state = .running ∧ (k.getvmstats soleProc).residentPages = 1 ∧
      k.tables.framesOf soleProc = 0 := by
  obtain ⟨k, hcalls, hk⟩ := Option.map_eq_some_iff.1 shrunk_tally
  obtain ⟨hstate, hres, hframes⟩ := by simpa only [tally, Prod.mk.injEq] using hk
  exact ⟨sole_sound, sole_clean, sole_counted, k, memRuns_of_memCalls .nil hcalls, hstate, hres,
    hframes⟩

end Kernel

end Xv6Swap.Paging
