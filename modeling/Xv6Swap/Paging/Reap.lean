import Xv6Swap.Paging.Copy

/-!
# Reaping a process

`freeproc` is called by the parent of the process, so it runs with another current process. The
entries of the process are removed by `free_proc_swap_slots`, and `uvmunmap` finds none of them
left. `freeproc_reaps`: the entries of the process are gone and their slots are free, its pages and
the pages of its page table are on the free list once, and every other process has the entries, the
mappings and the memory it had.
-/

namespace Xv6Swap.Paging.Kernel

open Raid (Page pgSize)
open Tables

variable {σ : Type} {S : SwapOps σ} {L : SwapLaws S} {k k' : Kernel σ} {g g' : Ghost}
  {root pa : PA} {n v sz : ℕ} {p q cur : ProcIdx} {R : Set PA}

/-! ## No page is lost -/

/-- The pages of a page table with user pages, and the table itself, are freed. -/
theorem uvmfree_frees (L : SwapLaws S) (h : Inv k g) (hn : g.size root = some (npages sz))
    (hun : Unowned g root) (hcur : (k.procs cur).pagetable ≠ some root)
    (hleaf : ∀ v, npages sz ≤ v → v < vpn trapframeVa → (k.pts root).leaf v = none)
    (heq : k.uvmfree cur root sz = .ok k') :
    (∀ R, k'.accounted R = k.accounted (insert root R)) ∧ ∀ r ≠ root, k'.pts r = k.pts r := by
  have hbound := (h.pt root _ hn).bound
  unfold uvmfree at heq
  split at heq
  · -- the user pages, and then the table
    obtain ⟨k₁, g₁, heq₁, hf₁, hleaf₁⟩ := unmapLoop_unowned (L := L) (v := 0) (npages sz) h hn hun
      (by omega)
    have hc := unmapLoop_confined (npages sz) (by omega) heq₁
    have hunmap : k.uvmunmap cur root 0 (pgRoundUp sz / pgSize) true = .ok k₁ := by
      rw [uvmunmap, if_neg (by simp), unmapOwner_none hcur]
      rwa [Nat.zero_mul] at heq₁
    rw [hunmap, ok_bind] at heq
    have hpt := hf₁.inv.pt root _ (hf₁.quiet.size ▸ hn)
    refine ⟨fun R => ?_, fun r hr =>
      ((freewalk_other hpt.low_mid heq).2 r hr).trans (hc.other r hr)⟩
    refine (freewalk_accounted (fun v hv => ?_) hpt.mid_lt hpt.low_mid heq R).trans
      (hc.accounted _ (Set.mem_insert ..))
    rw [hleaf₁]
    split
    · rfl
    · exact hleaf v (by omega) hv
  · rename_i hsz
    obtain rfl : sz = 0 := by omega
    have hpt := h.pt root _ hn
    exact ⟨freewalk_accounted (fun v hv => hleaf v (by simp [npages, pgRoundUp, pgSize]) hv)
      hpt.mid_lt hpt.low_mid heq, (freewalk_other hpt.low_mid heq).2⟩

/-- **`proc_freepagetable`** on a page table that is not the current process's frees all of its
pages. -/
theorem procFreepagetable_frees (L : SwapLaws S) (h : Inv k g) (hn : g.size root = some (npages sz))
    (hun : Unowned g root) (hcur : (k.procs cur).pagetable ≠ some root)
    (heq : k.procFreepagetable cur root sz = .ok k') :
    (∀ R, k'.accounted R = k.accounted (insert root R)) ∧ ∀ r ≠ root, k'.pts r = k.pts r := by
  have htramp : trampolineVa = vpn trampolineVa * pgSize := by decide
  have htrap : trapframeVa = vpn trapframeVa * pgSize := by decide
  have htt : vpn trapframeVa < vpn trampolineVa := by decide
  obtain ⟨k₁, g₁, heq₁, hf₁, hleaf₁⟩ := uvmunmap_one (L := L) (v := vpn trampolineVa) h hn hun hcur
    (by decide)
  obtain ⟨k₂, g₂, heq₂, hf₂, hleaf₂⟩ := uvmunmap_one (L := L) (v := vpn trapframeVa) hf₁.inv
    (hf₁.quiet.size ▸ hn) (hf₁.unowned hun) (hf₁.procs ▸ hcur) (by decide)
  have hf := hf₁.trans hf₂
  have hc := (uvmunmap_one_confined (by decide) heq₁).trans (uvmunmap_one_confined le_rfl heq₂)
  have hfree : k₂.uvmfree cur root sz = .ok k' := by
    rw [← htramp] at heq₁
    rw [← htrap] at heq₂
    simpa only [procFreepagetable, heq₁, heq₂, ok_bind] using heq
  have hleaf : ∀ v, npages sz ≤ v → v < vpn trapframeVa → (k₂.pts root).leaf v = none := by
    intro v hv hlt
    rw [hleaf₂, hleaf₁, Function.update_of_ne (by omega), Function.update_of_ne (by omega)]
    cases hl : (k.pts root).leaf v with
    | none => rfl
    | some e =>
      have := ((h.pt root _ hn).leaf_user hl hlt).1
      omega
  obtain ⟨hacc, hother⟩ := uvmfree_frees L hf.inv (hf.quiet.size ▸ hn) (hf.unowned hun)
    (hf.procs ▸ hcur) hleaf hfree
  exact ⟨fun R => (hacc R).trans (hc.accounted _ (Set.mem_insert ..)),
    fun r hr => (hother r hr).trans (hc.other r hr)⟩

/-- What `freeproc` does to the tables, the other processes and the pages. -/
theorem freeproc_frees (L : SwapLaws S) (h : Inv k g) (hs : Synced k g) (hne : cur ≠ q)
    (hroot : (k.procs q).pagetable = some root) (heq : k.freeproc cur q = .ok k') :
    k'.tables = k.tables.freeProcSwapSlots q ∧ (∀ r ≠ q, k'.procs r = k.procs r) ∧
      (k'.procs q).trapframe = none ∧ (∀ r ≠ root, k'.pts r = k.pts r) ∧
      ∀ R, k'.accounted R = k.accounted (insert root R) := by
  obtain ⟨k₁, heq₁, heq⟩ := bind_eq_ok.1 heq
  obtain ⟨k₂, heq₂, heq⟩ := bind_eq_ok.1 heq
  obtain rfl := Except.ok.inj heq
  obtain ⟨_, g₁, heq₁', hinv₁, hsize₁, hown₁, hpend₁, htab₁, hpts₁, hprocs₁, -⟩ :=
    freeTrapframe_spec (L := L) h q
  obtain rfl := Except.ok.inj (heq₁.symm.trans heq₁')
  obtain ⟨hinv, -⟩ := hinv₁.freeProcSwapSlots (L := L) (hpend₁.trans hs.pend) q
  have hq : g₁.own q = some root := by rw [hown₁, hs.own, hroot]
  have hother : ∀ r ≠ q, g₁.own r ≠ some root := fun r hr e => hr (hinv₁.own_inj r q root e hq)
  have hun : Unowned { g₁ with own := Function.update g₁.own q none } root := by
    intro r
    by_cases hr : r = q
    · simp [hr]
    · simpa [hr] using hother r hr
  have hcur : (k₁.procs cur).pagetable ≠ some root := by
    rw [hprocs₁, if_neg hne, ← hs.own, ← hown₁]
    exact hother cur hne
  have hproc : (k₁.procs q).pagetable = some root ∧ (k₁.procs q).sz = (k.procs q).sz := by
    rw [hprocs₁, if_pos rfl]
    exact ⟨hroot, rfl⟩
  simp only [freePagetable, hproc] at heq₂
  generalize hk : ({ k₁ with tables := k₁.tables.freeProcSwapSlots q } : Kernel σ) = k₃
    at hinv heq₂
  have htab₃ : k₃.tables = k.tables.freeProcSwapSlots q := by rw [← hk, htab₁]
  have hprocs₃ : k₃.procs = k₁.procs := by rw [← hk]
  have hpts₃ : k₃.pts = k.pts := by rw [← hk, ← hpts₁]
  have hfree₃ : k₃.freelist = k₁.freelist := by rw [← hk]
  have hn : g₁.size root = some (npages (k.procs q).sz) := hsize₁ ▸ hs.size q root hroot
  obtain ⟨_, g₂, heq₂', hfreed⟩ := procFreepagetable_spec (L := L) hinv hn hun (hprocs₃ ▸ hcur)
  obtain rfl := Except.ok.inj (heq₂.symm.trans heq₂')
  obtain ⟨hacc, hpts⟩ := procFreepagetable_frees L hinv hn hun (hprocs₃ ▸ hcur) heq₂
  refine ⟨hfreed.tables.trans htab₃, fun r hr => ?_, ?_, fun r hr => ?_, fun R => ?_⟩
  · simp [setProc, hr, hfreed.procs, hprocs₃, hprocs₁]
  · simp [setProc, hfreed.procs, hprocs₃, hprocs₁]
  · exact (hpts r hr).trans (by rw [hpts₃])
  · have hreset : (k₂.setProc q fun proc => { proc with
        pagetable := none, sz := 0, xstate := 0, state := .unused }).accounted R =
        k₂.accounted R := by
      refine accounted_congr rfl (fun r => ?_) fun _ _ => rfl
      by_cases hr : r = q <;> simp [setProc, hr]
    have hclear : k₃.accounted (insert root R) = k₁.accounted (insert root R) :=
      accounted_congr hfree₃ (fun _ => by rw [hprocs₃]) fun _ _ => by rw [hpts₃, hpts₁]
    rw [hreset, hacc, hclear, freeTrapframe_accounted heq₁]

/-! ## What is reclaimed -/

/-- The paging state of `q`, with the page table `root`, is reclaimed, and nothing else changes. -/
structure Reaped (L : SwapLaws S) (q : ProcIdx) (root : PA) (k k' : Kernel σ) : Prop where
  sound : k'.Sound
  no_frame : ∀ i, (k'.tables.frameTable i).used = true → (k'.tables.frameTable i).proc ≠ some q
  no_swap : ∀ i, (k'.tables.swapMap i).used = true → (k'.tables.swapMap i).proc ≠ some q
  slots : ∀ s, k'.tables.swapUsed s = false ↔ k.tables.swapUsed s = false ∨
    ∃ i, (k.tables.swapMap i).used = true ∧ (k.tables.swapMap i).proc = some q ∧
      (k.tables.swapMap i).swapSlot = some s
  count : k'.tables.userFrameCount + (Finset.univ.filter fun i =>
    (k.tables.frameTable i).used = true ∧ (k.tables.frameTable i).proc = some q).card =
      k.tables.userFrameCount
  pages : ∀ v e, v * pgSize < (k.procs q).sz → (k.pts root).leaf v = some e →
    k'.freelist.count e.pa = 1
  table : ∀ pa, pa = root ∨ (∃ i, (k.pts root).mid i = some pa) ∨
    (∃ j, (k.pts root).low j = some pa) → k'.freelist.count pa = 1
  frame_other : ∀ i, (k.tables.frameTable i).proc ≠ some q →
    k'.tables.frameTable i = k.tables.frameTable i
  swap_other : ∀ i, (k.tables.swapMap i).proc ≠ some q →
    k'.tables.swapMap i = k.tables.swapMap i
  proc_other : ∀ r ≠ q, k'.procs r = k.procs r
  pt_other : ∀ r ≠ q, ∀ root', (k.procs r).pagetable = some root' → k'.pts root' = k.pts root'
  logical : ∀ r ≠ q, ∀ w < vpn trapframeVa,
    k'.logical L k'.roots r w = k.logical L k.roots r w

/-- A page of the process is on the free list once. -/
theorem count_of_accounted (h : Inv k g) (hinv : Inv k' g') (hne : ∀ r, g.use pa ≠ .trapframe r)
    (hother : ∀ r ≠ q, k'.procs r = k.procs r) (hq : (k'.procs q).trapframe = none)
    (hacc : k'.accounted ∅ = k.accounted (insert root ∅)) (hpa : pa ∈ k.accounted (insert root ∅)) :
    k'.freelist.count pa = 1 := by
  rw [← hacc] at hpa
  rcases hpa with hfree | ⟨r, hr⟩ | ⟨r, hr, -⟩
  · exact List.count_eq_one_of_mem hinv.pages.nodup hfree
  · by_cases hrq : r = q
    · subst hrq
      simp [hq] at hr
    · rw [hother r hrq] at hr
      exact absurd (h.trapframe r pa hr) (hne r)
  · exact absurd hr (Set.notMem_empty r)

/-- **Reaping a process reclaims exactly its own paging state.** -/
theorem freeproc_reaps (L : SwapLaws S) (k : Kernel σ) (h : k.Sound) (cur q : ProcIdx)
    (hne : cur ≠ q) (root : PA) (hroot : (k.procs q).pagetable = some root) :
    ∃ k', k.freeproc cur q = .ok k' ∧ Reaped L q root k k' := by
  obtain ⟨g, hinv, hs⟩ := h
  obtain ⟨k', g', heq, hinv', hs', -, -, hlog⟩ := freeproc_spec L hinv hs hne
  obtain ⟨htab, hprocs, htf, hpts, hacc⟩ := freeproc_frees L hinv hs hne hroot heq
  have hfreed := freeProcSwapSlots_spec q k.tables
  rw [← htab] at hfreed
  have hpt := hinv.pt root _ (hs.size q root hroot)
  refine ⟨k', heq, ⟨g', hinv', hs'⟩, fun i hi => ?_, fun i hi => ?_, fun s => ?_, ?_,
    fun v e hv he => ?_, fun pa hpa => ?_, fun i hi => ?_, fun i hi => ?_, hprocs,
    fun r hr root' hroot' => ?_, fun r hr w hw => hlog r hr w hw⟩
  · -- entries
    rw [hfreed.frame] at hi ⊢
    split at hi
    · cases hi
    · rename_i hown
      rw [if_neg hown]
      exact fun hproc => hown ((hinv.tables.ownFrame_iff q i).2 ⟨hi, hproc⟩)
  · rw [hfreed.swapMap] at hi ⊢
    split at hi
    · cases hi
    · rename_i hown
      rw [if_neg hown]
      exact fun hproc => hown ⟨hi, hproc⟩
  · rw [hfreed.swapUsed]
    split
    · rename_i hown
      obtain ⟨i, ⟨hused, hproc⟩, hslot⟩ := hown
      exact ⟨fun _ => .inr ⟨i, hused, hproc, hslot⟩, fun _ => rfl⟩
    · rename_i hown
      refine ⟨.inl, fun hor => hor.resolve_right ?_⟩
      rintro ⟨i, hused, hproc, hslot⟩
      exact hown ⟨i, ⟨hused, hproc⟩, hslot⟩
  · rw [hinv'.tables.count, hinv.tables.count]
    have hsub : (Finset.univ.filter fun i => (k'.tables.frameTable i).used = true) =
        (Finset.univ.filter fun i => (k.tables.frameTable i).used = true) \ Finset.univ.filter
          fun i => (k.tables.frameTable i).used = true ∧ (k.tables.frameTable i).proc = some q := by
      ext i
      simp only [Finset.mem_sdiff, Finset.mem_filter, Finset.mem_univ, true_and, hfreed.frame]
      rw [← hinv.tables.ownFrame_iff q i]
      by_cases hown : k.tables.OwnFrame q i <;> simp [hown, Frame.clear]
    rw [hsub]
    refine Finset.card_sdiff_add_card_eq_card fun i hi => ?_
    simp only [Finset.mem_filter, Finset.mem_univ, true_and] at hi ⊢
    exact hi.1
  · -- pages
    have hlt : v < npages (k.procs q).sz := by
      have := div_lt_npages hv
      rwa [Nat.mul_div_cancel _ pgSize_pos] at this
    have hlt' := hlt.trans_le hpt.bound
    exact count_of_accounted hinv hinv' (fun r => by rw [(hpt.leaf_user he hlt').2]; simp) hprocs
      htf (hacc ∅) (.inr (.inr
        ⟨root, Set.mem_insert .., .inr (.inr (.inr ⟨v, e, hlt', he, rfl⟩))⟩))
  · have huse : ∀ r, g.use pa ≠ .trapframe r := by
      intro r
      rcases hpa with rfl | ⟨i, hi⟩ | ⟨j, hj⟩
      · simp [hpt.root_use]
      · simp [hpt.mid_use i pa hi]
      · simp [hpt.low_use j pa hj]
    refine count_of_accounted hinv hinv' huse hprocs htf (hacc ∅) (.inr (.inr ⟨root,
      Set.mem_insert .., ?_⟩))
    rcases hpa with hpa | hpa | hpa
    · exact .inl hpa
    · exact .inr (.inl hpa)
    · exact .inr (.inr (.inl hpa))
  · rw [hfreed.frame, if_neg fun hown => hi hown.2]
  · rw [hfreed.swapMap, if_neg fun hown => hi hown.2]
  · refine hpts root' ?_
    rintro rfl
    exact hr (hinv.own_inj r q root' ((hs.own r).trans hroot') ((hs.own q).trans hroot))

/-- The process with pages of all three kinds is reaped by one with a page table of its own. -/
theorem freeproc_reaps_pair : (pair.procs heirProc).pagetable = some heirRoot ∧
    ∃ k', pair.freeproc heirProc soleProc = .ok k' ∧
      Reaped (raidSwapLaws .raid5) soleProc soleRoot pair k' :=
  ⟨pair_roots.2.1, freeproc_reaps (raidSwapLaws .raid5) pair pair_sound heirProc soleProc
    (by decide) soleRoot pair_roots.1⟩

end Xv6Swap.Paging.Kernel
