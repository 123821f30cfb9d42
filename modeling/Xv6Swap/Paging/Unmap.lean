import Xv6Swap.Paging.Resident

/-!
# Unmapping

What `uvmunmap` does to the page table of the current process (`unmapLoop_spec`, `uvmdealloc_spec`):
the pages of the range are gone, from memory and from swap, and all others are as they were. On a
page table that no process owns, as in the teardown of a process, it only empties the table
(`unmapLoop_unowned`).
-/

namespace Xv6Swap.Paging.Kernel

open Raid (Page pgSize)
open Tables

variable {σ : Type} {S : SwapOps σ} {L : SwapLaws S} {k k' : Kernel σ} {g g' : Ghost}
  {root pa : PA} {n v : ℕ} {p : ProcIdx}

/-- A page table is changed after a page was freed, or before. -/
theorem kfree_bind_setPt (k : Kernel σ) (pa root : PA) (F : PageTable → PageTable) :
    (k.kfree pa >>= fun k => pure (k.setPt root (F (k.pts root)))) =
      (k.setPt root (F (k.pts root))).kfree pa := by
  unfold kfree
  by_cases hc : pa % pgSize ≠ 0 ∨ pa < k.kernEnd ∨ phystop ≤ pa
  · have hc' : pa % pgSize ≠ 0 ∨ pa < (k.setPt root (F (k.pts root))).kernEnd ∨ phystop ≤ pa := hc
    rw [if_pos hc, if_pos hc']
    rfl
  · have hc' : ¬ (pa % pgSize ≠ 0 ∨ pa < (k.setPt root (F (k.pts root))).kernEnd ∨
      phystop ≤ pa) := hc
    rw [if_neg hc, if_neg hc']
    rfl

theorem kfree_bind_setLeaf (k : Kernel σ) (pa root : PA) (a : ℕ) (e : Option Pte) :
    (k.kfree pa >>= fun k => pure (k.setLeaf root a e)) = (k.setLeaf root a e).kfree pa :=
  kfree_bind_setPt k pa root fun pt => { pt with leaf := Function.update pt.leaf (vpn a) e }

theorem freeFrameEntry_swapMap (p : Option ProcIdx) (va : ℕ) (t : Tables) :
    (t.freeFrameEntry p va).swapMap = t.swapMap := by
  unfold freeFrameEntry
  split <;> rfl

theorem mul_pgSize_lt_maxVa (hv : v < vpn trapframeVa) : ¬ maxVa ≤ v * pgSize := by
  simp only [vpn, trapframeVa, trampolineVa, maxVa, pgSize] at hv ⊢
  omega

/-! ## The current process's own page table -/

/-- The pages `D` of process `p` are gone. -/
structure Unmapped (L : SwapLaws S) (k : Kernel σ) (g : Ghost) (p : ProcIdx) (D : ℕ → Prop)
    (k' : Kernel σ) (g' : Ghost) : Prop where
  inv : Inv k' g'
  pend : g'.pend = none
  size : g'.size = g.size
  own : g'.own = g.own
  core : ∀ q, (k'.procs q).core = (k.procs q).core
  gone_pte : ∀ w, D w → k'.pte g.own p w = none
  gone_swap : ∀ w, D w → ∀ i, ¬ (k'.tables.swapMap i).Holds p (w * pgSize)
  pte : ∀ q w, ¬ (q = p ∧ D w) → k'.pte g.own q w = k.pte g.own q w
  swap : ∀ i q w, ¬ (q = p ∧ D w) →
    ((k'.tables.swapMap i).Holds q (w * pgSize) ↔ (k.tables.swapMap i).Holds q (w * pgSize))
  logical : ∀ q w, ¬ (q = p ∧ D w) → w < vpn trapframeVa →
    k'.logical L g.own q w = k.logical L g.own q w

/-- A page that is gone reads as zeros. -/
theorem Unmapped.logical_gone {D : ℕ → Prop} (h : Unmapped L k g p D k' g') {w : ℕ} (hw : D w) :
    k'.logical L g.own p w = 0 := by
  simp [Kernel.logical, h.gone_pte w hw, swapPage_none (h.gone_swap w hw)]

theorem Unmapped.trans {D D' : ℕ → Prop} {k'' : Kernel σ} {g'' : Ghost}
    (h : Unmapped L k g p D k' g') (h' : Unmapped L k' g' p D' k'' g'') :
    Unmapped L k g p (fun w => D w ∨ D' w) k'' g'' := by
  have hown := h.own
  refine ⟨h'.inv, h'.pend, h'.size.trans h.size, h'.own.trans hown,
    fun q => (h'.core q).trans (h.core q), fun w hw => ?_, fun w hw i hi => ?_, fun q w hqw => ?_,
    fun i q w hqw => ?_, fun q w hqw hlt => ?_⟩
  · by_cases hD : D' w
    · exact hown ▸ h'.gone_pte w hD
    · have := h'.pte p w (by simp [hD])
      rw [hown] at this
      exact this.trans (h.gone_pte w (hw.resolve_right hD))
  · by_cases hD : D' w
    · exact h'.gone_swap w hD i hi
    · exact h.gone_swap w (hw.resolve_right hD) i ((h'.swap i p w (by simp [hD])).1 hi)
  · have := h'.pte q w (by tauto)
    rw [hown] at this
    exact this.trans (h.pte q w (by tauto))
  · exact (h'.swap i q w (by tauto)).trans (h.swap i q w (by tauto))
  · have := h'.logical q w (by tauto) hlt
    rw [hown] at this
    exact this.trans (h.logical q w (by tauto) hlt)

theorem Unmapped.congr {D D' : ℕ → Prop} (h : Unmapped L k g p D k' g')
    (hD : ∀ w, D w ↔ D' w) : Unmapped L k g p D' k' g' := by
  obtain rfl : D = D' := funext fun w => propext (hD w)
  exact h

theorem Inv.unmapped_nil (h : Inv k g) (hpend : g.pend = none) :
    Unmapped L k g p (fun _ => False) k g :=
  ⟨h, hpend, rfl, rfl, fun _ => rfl, by simp, by simp, fun _ _ _ => rfl, fun _ _ _ _ => Iff.rfl,
    fun _ _ _ _ => rfl⟩

/-- One round of `uvmunmap` on the process's own page table. -/
theorem unmapPage_spec (L : SwapLaws S) (h : Inv k g) (hpend : g.pend = none)
    (ho : g.own p = some root) (hv : v < vpn trapframeVa) :
    ∃ k' g', k.unmapPage (some p) root true (v * pgSize) = .ok k' ∧
      Unmapped L k g p (· = v) k' g' := by
  obtain ⟨n, hn⟩ := Option.isSome_iff_exists.1 (h.own_size p root ho)
  obtain ⟨ht, hgone, hkeep⟩ := h.tables.freeSwapEntry p v
  simp only [unmapPage]
  generalize k.tables.freeSwapEntry p (v * pgSize) = t at ht hgone hkeep ⊢
  have hinv : Inv { k with tables := t } g := h.set_tables t g.pend ht
  have hne : ∀ {q w}, ¬ (q = p ∧ w = v) → (q, w) ≠ (p, v) := fun hqw e =>
    hqw (Prod.mk.inj e)
  have hlog : ∀ q w, ¬ (q = p ∧ w = v) →
      ({ k with tables := t } : Kernel σ).logical L g.own q w = k.logical L g.own q w :=
    fun q w hqw => logical_congr rfl (fun _ _ => rfl) fun _ =>
      h.swapPage_congr hinv (fun i => hkeep i q w (hne hqw)) fun _ _ => rfl
  rw [if_neg (mul_pgSize_lt_maxVa hv), hinv.pteAt_eq hn v]
  cases hl : (k.pts root).leaf v with
  | none =>
    refine ⟨_, g, rfl, hinv, hpend, rfl, rfl, fun _ => rfl, ?_, ?_, fun _ _ _ => rfl,
      fun i q w hqw => hkeep i q w (hne hqw), fun q w hqw _ => hlog q w hqw⟩
    · rintro w rfl
      exact (pte_of_own ho).trans hl
    · rintro w rfl
      exact hgone
  | some e =>
    obtain ⟨-, hu⟩ := (h.pt root n hn).leaf_user hl hv
    have hself : (k.setLeaf root (v * pgSize) none).pte g.own p v = none :=
      Inv.pte_setLeaf_self ho
    have hother : ∀ q w, (q, w) ≠ (p, v) →
        (k.setLeaf root (v * pgSize) none).pte g.own q w = k.pte g.own q w :=
      fun q w hqw => h.pte_setLeaf_other ho hqw
    have hframe := ht.freeFrame (.inl hpend) hself hother
    have hmap := freeFrameEntry_swapMap (some p) (v * pgSize) t
    simp only [if_true]
    generalize t.freeFrameEntry (some p) (v * pgSize) = t' at hframe hmap
    have hinv₂ := h.unmap_leaf hn hu t' none hframe
    obtain ⟨k', heq, hinv', hq, hpts, htab, hprocs⟩ :=
      kfree_spec (L := L) hinv₂ (g.setUse_use_self e.pa .held)
    refine ⟨k', _, ?_, hinv', rfl, rfl, rfl, fun q => ?_, ?_, ?_, fun q w hqw => ?_,
      fun i q w hqw => ?_, fun q w hqw hlt => ?_⟩
    · rw [kfree_bind_setLeaf]
      exact heq
    · rw [hprocs]
      rfl
    · rintro w rfl
      rw [← hself]
      simp [Kernel.pte, hpts]
    · rintro w rfl i hi
      rw [htab] at hi
      exact hgone i (hmap ▸ hi)
    · rw [← hother q w (hne hqw)]
      simp [Kernel.pte, hpts]
    · rw [htab]
      change (t'.swapMap i).Holds q (w * pgSize) ↔ _
      rw [hmap]
      exact hkeep i q w (hne hqw)
    · have hclear : ({ k.setLeaf root (v * pgSize) none with tables := t' } : Kernel σ).logical L
          g.own q w = ({ k with tables := t } : Kernel σ).logical L g.own q w :=
        logical_congr (hother q w (hne hqw)) (fun _ _ => rfl) fun _ => by
          simp [swapPage, findSwap, hmap, setLeaf, setPt]
      exact ((hq.logical q w hlt).trans hclear).trans (hlog q w hqw)

theorem unmapLoop_spec (L : SwapLaws S) (m : ℕ) (h : Inv k g) (hpend : g.pend = none)
    (ho : g.own p = some root) (hv : v + m ≤ vpn trapframeVa) :
    ∃ k' g', unmapLoop (some p) root true m (v * pgSize) k = .ok k' ∧
      Unmapped L k g p (fun w => v ≤ w ∧ w < v + m) k' g' := by
  induction m generalizing v k g with
  | zero => exact ⟨k, g, rfl, (h.unmapped_nil hpend).congr fun w => by simp⟩
  | succ m ih =>
    obtain ⟨k₁, g₁, heq₁, h₁⟩ := unmapPage_spec L h hpend ho (v := v) (by omega)
    obtain ⟨k', g', heq, h'⟩ := ih (v := v + 1) h₁.inv h₁.pend (h₁.own ▸ ho) (by omega)
    refine ⟨k', g', ?_, (h₁.trans h').congr fun w => by omega⟩
    have hnext : v * pgSize + pgSize = (v + 1) * pgSize := by ring
    simp only [unmapLoop, heq₁, ok_bind, hnext, heq]

/-! ## Sizes -/

theorem pgRoundUp_eq (sz : ℕ) : pgRoundUp sz = npages sz * pgSize := by
  rw [npages, pgRoundUp, Nat.mul_div_cancel _ pgSize_pos]

theorem npages_mono {m n : ℕ} (h : m ≤ n) : npages m ≤ npages n := by
  rw [npages_eq, npages_eq]
  exact Nat.div_le_div_right (Nat.add_le_add_right h _)

theorem npages_mul (v : ℕ) : npages (v * pgSize) = v := by
  simp only [npages_eq, pgSize]
  omega

/-- The bound on the pages of a process may change if no page is beyond it. -/
theorem Inv.resize (h : Inv k g) (hpend : g.pend = none) (ho : g.own p = some root)
    (hn : g.size root = some n) (n' : ℕ) (hle : n' ≤ vpn trapframeVa)
    (hgone : ∀ w, n' ≤ w → w < n → k.pte g.own p w = none ∧
      ∀ i, ¬ (k.tables.swapMap i).Holds p (w * pgSize)) :
    Inv k { g with size := Function.update g.size root (some n') } := by
  have hnp : ∀ q, ({ g with size := Function.update g.size root (some n') } : Ghost).np q =
      if q = p then n' else g.np q := by
    intro q
    by_cases hq : q = p
    · simp [hq, Ghost.np, ho]
    · have hne : g.own q ≠ some root := fun hroot => hq (h.own_inj q p root hroot ho)
      cases hroot : g.own q with
      | none => simp [Ghost.np, hroot, hq]
      | some r =>
        have hr : r ≠ root := fun e => hne (hroot.trans (congrArg some e))
        simp [Ghost.np, hroot, hq, hr]
  -- an entry of the process is for a page below the new bound
  have hlt : ∀ q w, w < g.np q → (q = p → w < n → n' ≤ w → False) →
      w < ({ g with size := Function.update g.size root (some n') } : Ghost).np q := by
    intro q w hw hno
    rw [hnp]
    split
    · rename_i hq
      rw [hq, Ghost.np_of_own ho hn] at hw
      exact Nat.lt_of_not_le fun hle => hno hq hw hle
    · exact hw
  refine ⟨h.pages, fun r m hm => ?_, fun q r hq => ?_, h.own_inj, h.trapframe, ?_⟩
  · by_cases hr : r = root
    · subst hr
      obtain rfl : n' = m := by simpa using hm
      exact (h.pt r n hn).resize hle fun w hle hlt => pte_of_own ho ▸ (hgone w hle hlt).1
    · exact h.pt r m (by simpa [hr] using hm)
  · by_cases hr : r = root
    · simp [hr]
    · simpa [hr] using h.own_size q r hq
  · refine h.tables.congr (fun i q w hi hw => ⟨hlt q w hw ?_, rfl⟩)
      fun i q w hi hw => ⟨hlt q w hw ?_, rfl⟩
    · rintro rfl hwn hle
      obtain ⟨q', w', heq, -, ⟨pa, hpa⟩ | ⟨hp, -⟩⟩ := h.tables.frame_ok i (congrArg (·.1) hi)
      · rw [hi] at heq
        simp only [Prod.mk.injEq, Option.some.injEq, true_and] at heq
        obtain ⟨rfl, hw'⟩ := heq
        obtain rfl := Nat.eq_of_mul_eq_mul_right pgSize_pos hw'
        simp [(hgone w hle hwn).1] at hpa
      · simp [hpend] at hp
    · rintro rfl hwn hle
      exact (hgone w hle hwn).2 i hi

/-- `uvmdealloc` on the process's own page table. -/
theorem uvmdealloc_spec (L : SwapLaws S) (h : Inv k g) (hpend : g.pend = none) (hown : Owns k g)
    (ho : g.own p = some root) (oldsz newsz : ℕ) (hold : npages oldsz ≤ vpn trapframeVa) :
    ∃ k' g', k.uvmdealloc p root oldsz newsz = .ok (min oldsz newsz, k') ∧
      Unmapped L k g p (fun w => npages newsz ≤ w ∧ w < npages oldsz) k' g' := by
  have hnone : npages oldsz ≤ npages newsz →
      Unmapped L k g p (fun w => npages newsz ≤ w ∧ w < npages oldsz) k g :=
    fun hle => (h.unmapped_nil hpend).congr fun w => by
      simp only [false_iff]
      omega
  unfold uvmdealloc
  split
  · rename_i hle
    exact ⟨k, g, by rw [min_eq_left hle], hnone (npages_mono hle)⟩
  · rename_i hlt
    rw [min_eq_right (by omega)]
    split
    · rename_i hround
      rw [pgRoundUp_eq, pgRoundUp_eq] at hround
      have hlt' : npages newsz < npages oldsz := lt_of_mul_lt_mul_right hround (Nat.zero_le _)
      obtain ⟨k', g', heq, hun⟩ := unmapLoop_spec L (npages oldsz - npages newsz) h hpend ho
        (v := npages newsz) (by omega)
      refine ⟨k', g', ?_, hun.congr fun w => by omega⟩
      have howner : k.unmapOwner p root = some p := by
        rw [unmapOwner, if_pos ((hown p).symm.trans ho)]
      have hcount : (npages oldsz * pgSize - npages newsz * pgSize) / pgSize =
          npages oldsz - npages newsz := by
        rw [← Nat.sub_mul, Nat.mul_div_cancel _ pgSize_pos]
      have hunmap : k.uvmunmap p root (npages newsz * pgSize) (npages oldsz - npages newsz) true =
          .ok k' := by
        rw [uvmunmap, if_neg (by simp), howner, heq]
      simp only [pgRoundUp_eq, hcount, hunmap, ok_bind]
      rfl
    · rename_i hround
      rw [pgRoundUp_eq, pgRoundUp_eq, not_lt] at hround
      exact ⟨k, g, rfl, hnone (le_of_mul_le_mul_right hround pgSize_pos)⟩

end Xv6Swap.Paging.Kernel
