import Xv6Swap.Paging.Grow

/-!
# Freeing a page table and a process

`proc_freepagetable` on a page table that no process owns frees it and nothing else
(`procFreepagetable_spec`). It is used in this way by `freeproc`, whose process no longer counts as
the owner once `free_proc_swap_slots` has removed its entries (`freeproc_spec`), and by `exec`.
-/

namespace Xv6Swap.Paging.Kernel

open Raid (Page pgSize)
open Tables

variable {σ : Type} {S : SwapOps σ} {L : SwapLaws S} {k k' : Kernel σ} {g g' : Ghost}
  {root pa : PA} {n v : ℕ} {p : ProcIdx}

/-- No process has the page table. -/
def Unowned (g : Ghost) (root : PA) : Prop := ∀ p, g.own p ≠ some root

/-- A step of freeing the page table `root`: nothing outside of it changes, except that pages are
freed. -/
structure Freeing (L : SwapLaws S) (root : PA) (k : Kernel σ) (g : Ghost) (k' : Kernel σ)
    (g' : Ghost) : Prop where
  inv : Inv k' g'
  quiet : Quiet L k g k' g'
  pend : g'.pend = g.pend
  tables : k'.tables = k.tables
  procs : k'.procs = k.procs

theorem Freeing.refl (h : Inv k g) : Freeing L root k g k g :=
  ⟨h, .refl L k g, rfl, rfl, rfl⟩

theorem Freeing.trans {k'' : Kernel σ} {g'' : Ghost} (h : Freeing L root k g k' g')
    (h' : Freeing L root k' g' k'' g'') : Freeing L root k g k'' g'' :=
  ⟨h'.inv, h.quiet.trans h'.quiet, h'.pend.trans h.pend, h'.tables.trans h.tables,
    h'.procs.trans h.procs⟩

theorem Freeing.unowned (h : Freeing L root k g k' g') (hun : Unowned g root) :
    Unowned g' root := by
  intro p
  rw [h.quiet.own]
  exact hun p

/-- The entries of the processes do not depend on a page table that none of them has. -/
theorem pte_setPt_unowned (hun : Unowned g root) (pt : PageTable) :
    (k.setPt root pt).pte g.own = k.pte g.own := by
  funext q w
  rw [pte_setPt, if_neg (hun q)]

/-- The page table changes and one of its pages becomes free. -/
theorem Inv.free_page (h : Inv k g) (hn : g.size root = some n) (hun : Unowned g root)
    {pt : PageTable} (hpt : PtOk pt g.use root n) {pg : PA} (hpg : (g.use pg).table = some root)
    (hpt' : PtOk pt (Function.update g.use pg .held) root n) :
    ∃ k', (k.setPt root pt).kfree pg = .ok k' ∧ Freeing L root k g k' (g.setUse pg .free) ∧
      k'.pts = (k.setPt root pt).pts := by
  have hpte := pte_setPt_unowned (k := k) hun pt
  have hclear : Inv (k.setPt root pt) g :=
    h.change_leaf hn k.tables g.pend hpt (hpte ▸ h.tables)
  have hheld : Inv (k.setPt root pt) (g.setUse pg .held) :=
    hclear.relabel (.inr (by simp [hpg])) .held fun r m hm => by
      by_cases hr : r = root
      · subst hr
        obtain rfl : n = m := Option.some.inj (hn.symm.trans hm)
        simpa [setPt] using hpt'
      · exact (hclear.pt r m hm).update_other hpg (Ne.symm hr) _
  obtain ⟨k', heq, hinv, hq, hpts, htab, hprocs⟩ :=
    kfree_spec (L := L) hheld (g.setUse_use_self pg .held)
  rw [Ghost.setUse_setUse] at hinv hq
  have hne : g.use pg ≠ .held := fun e => by simp [e, Use.table] at hpg
  have hq₀ : Quiet L k g (k.setPt root pt) g :=
    ⟨rfl, rfl, fun _ => rfl, fun _ hpa => ⟨hpa, rfl⟩, fun q w hw => by rw [hpte]; exact hw,
      fun _ _ => rfl, fun _ _ _ hi => .inl hi, fun q w _ => logical_congr (by rw [hpte])
        (fun _ _ => rfl) fun _ => rfl⟩
  exact ⟨k', heq, ⟨hinv, (hq₀.setUse pg hne .free).trans hq, rfl, htab, hprocs⟩, hpts⟩

/-! ## Unmapping -/

/-- One round of `uvmunmap` on a page table that is not the current process's. -/
theorem unmapPage_unowned (h : Inv k g) (hn : g.size root = some n) (hun : Unowned g root)
    (doFree : Bool) (hv : v < vpn maxVa) (hfree : doFree = true → v < vpn trapframeVa) :
    ∃ k' g', k.unmapPage none root doFree (v * pgSize) = .ok k' ∧ Freeing L root k g k' g' ∧
      (k'.pts root).leaf = Function.update (k.pts root).leaf v none := by
  have hmax : ¬ maxVa ≤ v * pgSize := by
    simp only [vpn, maxVa, pgSize] at hv ⊢
    omega
  simp only [unmapPage, if_neg hmax, h.pteAt_eq hn v]
  cases hl : (k.pts root).leaf v with
  | none =>
    refine ⟨k, g, rfl, .refl h, ?_⟩
    rw [← hl, Function.update_eq_self]
  | some e =>
    have hclear := (h.pt root n hn).clear_leaf v
    cases doFree with
    | false =>
      simp only [Bool.false_eq_true, if_false]
      have hpte := pte_setPt_unowned (k := k) hun
        { k.pts root with leaf := Function.update (k.pts root).leaf v none }
      refine ⟨_, g, rfl, ⟨?_, ?_, rfl, rfl, rfl⟩, ?_⟩
      · rw [setLeaf, vpn_mul]
        exact h.change_leaf hn k.tables g.pend hclear (hpte ▸ h.tables)
      · rw [setLeaf, vpn_mul]
        exact ⟨rfl, rfl, fun _ => rfl, fun _ hpa => ⟨hpa, rfl⟩,
          fun q w hw => by rw [hpte]; exact hw,
          fun _ _ => rfl, fun _ _ _ hi => .inl hi, fun q w _ => logical_congr (by rw [hpte])
            (fun _ _ => rfl) fun _ => rfl⟩
      · simp [setLeaf, setPt]
    | true =>
      obtain ⟨-, hu⟩ := (h.pt root n hn).leaf_user hl (hfree rfl)
      obtain ⟨k', heq, hf, hpts⟩ := h.free_page (L := L) hn hun hclear (congrArg Use.table hu)
        (hclear.update_user hu (by simp) _)
      simp only [if_true, h.tables.freeFrame_none]
      refine ⟨k', _, ?_, hf, by simp [hpts, setPt]⟩
      rw [kfree_bind_setLeaf, setLeaf, vpn_mul]
      exact heq

theorem unmapLoop_unowned (m : ℕ) (h : Inv k g) (hn : g.size root = some n)
    (hun : Unowned g root) (hv : v + m ≤ vpn trapframeVa) :
    ∃ k' g', unmapLoop none root true m (v * pgSize) k = .ok k' ∧ Freeing L root k g k' g' ∧
      ∀ w, (k'.pts root).leaf w = if v ≤ w ∧ w < v + m then none else (k.pts root).leaf w := by
  induction m generalizing v k g with
  | zero =>
    refine ⟨k, g, rfl, .refl h, fun w => ?_⟩
    rw [if_neg (by omega)]
  | succ m ih =>
    have hmax : vpn trapframeVa < vpn maxVa := by decide
    obtain ⟨k₁, g₁, heq₁, hf₁, hleaf₁⟩ := unmapPage_unowned (L := L) (v := v) h hn hun true
      (by omega) fun _ => by omega
    obtain ⟨k', g', heq, hf, hleaf⟩ := ih (v := v + 1) hf₁.inv (hf₁.quiet.size ▸ hn)
      (hf₁.unowned hun) (by omega)
    have hnext : v * pgSize + pgSize = (v + 1) * pgSize := by ring
    refine ⟨k', g', ?_, hf₁.trans hf, fun w => ?_⟩
    · simp only [unmapLoop, heq₁, ok_bind, hnext, heq]
    · rw [hleaf, hleaf₁, Function.update_apply]
      split_ifs <;> first | rfl | omega

/-! ## `freewalk` -/

theorem freewalkLowEntry_spec (j : ℕ) (h : Inv k g) (hn : g.size root = some n)
    (hun : Unowned g root) (hleaf : ∀ v, (k.pts root).leaf v = none) :
    ∃ k' g', k.freewalkLowEntry root j = .ok k' ∧ Freeing L root k g k' g' ∧
      k'.pts root = { k.pts root with low := Function.update (k.pts root).low j none } := by
  unfold freewalkLowEntry
  cases hj : (k.pts root).low j with
  | none =>
    refine ⟨k, g, rfl, .refl h, ?_⟩
    rw [← hj, Function.update_eq_self]
  | some pg =>
    have hpg := (h.pt root n hn).low_use j pg hj
    have hclear := (h.pt root n hn).clear_low hleaf j
    obtain ⟨k', heq, hf, hpts⟩ := h.free_page (L := L) hn hun hclear (congrArg Use.table hpg)
      (hclear.release_low hpg (by simp) _)
    refine ⟨k', _, ?_, hf, by simp [hpts, setPt]⟩
    have hnot : ¬ ((List.range 512).any fun i =>
        ((k.pts root).leaf (512 * j + i)).isSome) = true := by simp [hleaf]
    simp only [freewalkLeaves, if_neg hnot]
    rw [kfree_bind_setPt k pg root fun pt => { pt with low := Function.update pt.low j none }]
    exact heq

theorem freewalkLow_spec (js : List ℕ) (h : Inv k g) (hn : g.size root = some n)
    (hun : Unowned g root) (hleaf : ∀ v, (k.pts root).leaf v = none) :
    ∃ k' g', k.freewalkLow root js = .ok k' ∧ Freeing L root k g k' g' ∧
      (k'.pts root).leaf = (k.pts root).leaf ∧ (k'.pts root).mid = (k.pts root).mid ∧
      ∀ j, (k'.pts root).low j = if j ∈ js then none else (k.pts root).low j := by
  induction js generalizing k g with
  | nil => exact ⟨k, g, rfl, .refl h, rfl, rfl, by simp⟩
  | cons j js ih =>
    obtain ⟨k₁, g₁, heq₁, hf₁, hpts₁⟩ := freewalkLowEntry_spec (L := L) j h hn hun hleaf
    obtain ⟨k', g', heq, hf, hleaf', hmid, hlow⟩ := ih hf₁.inv (hf₁.quiet.size ▸ hn)
      (hf₁.unowned hun) (by simp [hpts₁, hleaf])
    refine ⟨k', g', ?_, hf₁.trans hf, by rw [hleaf', hpts₁], by rw [hmid, hpts₁], fun i => ?_⟩
    · rw [freewalkLow, List.foldlM_cons, heq₁]
      exact heq
    · rw [hlow, hpts₁]
      by_cases hij : i = j
      · simp [hij]
      · simp [hij]

theorem freewalkMidEntry_spec (i : ℕ) (h : Inv k g) (hn : g.size root = some n)
    (hun : Unowned g root) (hleaf : ∀ v, (k.pts root).leaf v = none) :
    ∃ k' g', k.freewalkMidEntry root i = .ok k' ∧ Freeing L root k g k' g' ∧
      (k'.pts root).leaf = (k.pts root).leaf := by
  unfold freewalkMidEntry
  cases hi : (k.pts root).mid i with
  | none => exact ⟨k, g, rfl, .refl h, rfl⟩
  | some pg =>
    obtain ⟨k₁, g₁, heq₁, hf₁, hleaf₁, hmid₁, hlow₁⟩ := freewalkLow_spec (L := L)
      ((List.range 512).map fun j => 512 * i + j) h hn hun hleaf
    have hn₁ : g₁.size root = some n := hf₁.quiet.size ▸ hn
    have hpg := (hf₁.inv.pt root n hn₁).mid_use i pg (hmid₁ ▸ hi)
    -- everything below the entry is gone
    have hclear := (hf₁.inv.pt root n hn₁).clear_mid (i := i) fun j hj => by
      rw [hlow₁, if_pos]
      exact List.mem_map.2 ⟨j % 512, List.mem_range.2 (Nat.mod_lt _ (by decide)), by omega⟩
    obtain ⟨k₂, heq₂, hf₂, hpts₂⟩ := hf₁.inv.free_page (L := L) hn₁ (hf₁.unowned hun) hclear
      (congrArg Use.table hpg) (hclear.release_mid hpg (by simp) _)
    refine ⟨k₂, _, ?_, hf₁.trans hf₂, by simp [hpts₂, setPt, hleaf₁]⟩
    simp only [heq₁, ok_bind]
    rw [kfree_bind_setPt k₁ pg root fun pt => { pt with mid := Function.update pt.mid i none }]
    exact heq₂

theorem freewalkMid_spec (is : List ℕ) (h : Inv k g) (hn : g.size root = some n)
    (hun : Unowned g root) (hleaf : ∀ v, (k.pts root).leaf v = none) :
    ∃ k' g', k.freewalkMid root is = .ok k' ∧ Freeing L root k g k' g' := by
  induction is generalizing k g with
  | nil => exact ⟨k, g, rfl, .refl h⟩
  | cons i is ih =>
    obtain ⟨k₁, g₁, heq₁, hf₁, hleaf₁⟩ := freewalkMidEntry_spec (L := L) i h hn hun hleaf
    obtain ⟨k', g', heq, hf⟩ := ih hf₁.inv (hf₁.quiet.size ▸ hn) (hf₁.unowned hun)
      (hleaf₁ ▸ hleaf)
    refine ⟨k', g', ?_, hf₁.trans hf⟩
    rw [freewalkMid, List.foldlM_cons, heq₁]
    exact heq

/-- The page table is gone, and everything outside of it is as it was. -/
structure Freed (L : SwapLaws S) (root : PA) (k : Kernel σ) (g : Ghost) (k' : Kernel σ)
    (g' : Ghost) : Prop where
  inv : Inv k' g'
  size : g'.size = Function.update g.size root none
  own : g'.own = g.own
  pend : g'.pend = g.pend
  tables : k'.tables = k.tables
  procs : k'.procs = k.procs
  logical : ∀ q w, w < vpn trapframeVa → k'.logical L g.own q w = k.logical L g.own q w

theorem freewalk_spec (h : Inv k g) (hn : g.size root = some n) (hun : Unowned g root)
    (hleaf : ∀ v, (k.pts root).leaf v = none) :
    ∃ k' g', k.freewalk root = .ok k' ∧ Freed L root k g k' g' := by
  obtain ⟨k₁, g₁, heq₁, hf₁⟩ := freewalkMid_spec (L := L) (List.range 512) h hn hun hleaf
  have hn₁ : g₁.size root = some n := hf₁.quiet.size ▸ hn
  have hroot := (hf₁.inv.pt root n hn₁).root_use
  have hun₁ := hf₁.unowned hun
  -- the table no longer exists, and its root page is held
  have hnp : ∀ q, ({ g₁ with size := Function.update g₁.size root none } : Ghost).np q =
      g₁.np q := by
    intro q
    cases hq : g₁.own q with
    | none => simp [Ghost.np, hq]
    | some r =>
      have hr : r ≠ root := fun e => hun₁ q (hq.trans (congrArg some e))
      simp [Ghost.np, hq, hr]
  have hinv : Inv k₁ { g₁.setUse root .held with size := Function.update g₁.size root none } := by
    refine ⟨⟨fun pa hpa => ?_, hf₁.inv.pages.nodup, fun pa hpa => ?_⟩, fun r m hm => ?_,
      fun q r hq => ?_, hf₁.inv.own_inj, fun q pa hq => ?_, ?_⟩
    · have hfree := hf₁.inv.pages.free_use pa hpa
      have hne : pa ≠ root := by
        rintro rfl
        simp [hroot] at hfree
      simpa [Ghost.setUse, hne] using hfree
    · refine hf₁.inv.pages.managed pa ?_
      by_cases hne : pa = root
      · simp [hne, hroot]
      · simpa [Ghost.setUse, hne] using hpa
    · have hr : r ≠ root := by
        rintro rfl
        simp at hm
      exact (hf₁.inv.pt r m (by simpa [hr] using hm)).release_root hroot (Ne.symm hr) _
    · have hr : r ≠ root := fun e => hun₁ q (hq.trans (congrArg some e))
      simpa [hr] using hf₁.inv.own_size q r hq
    · have htrap := hf₁.inv.trapframe q pa hq
      have hne : pa ≠ root := by
        rintro rfl
        simp [hroot] at htrap
      simpa [Ghost.setUse, hne] using htrap
    · exact (funext hnp : _ = g₁.np) ▸ hf₁.inv.tables
  obtain ⟨k', heq, hinv', hq, -, htab, hprocs⟩ :=
    kfree_spec (L := L) hinv (g₁.setUse_use_self root .held)
  refine ⟨k', _, ?_, hinv', ?_, hf₁.quiet.own, hf₁.pend, htab.trans hf₁.tables,
    hprocs.trans hf₁.procs, fun q w hw => ?_⟩
  · rw [freewalk, heq₁, ok_bind, heq]
  · simp [Ghost.setUse, hf₁.quiet.size]
  · have := hq.logical q w hw
    have hown : g₁.own = g.own := hf₁.quiet.own
    simp only [Ghost.setUse, hown] at this
    exact this.trans (hf₁.quiet.logical q w hw)

/-! ## `proc_freepagetable` and `freeproc` -/

theorem unmapOwner_none {cur : ProcIdx} (hcur : (k.procs cur).pagetable ≠ some root) :
    k.unmapOwner cur root = none := if_neg hcur

/-- The mapping of a page that belongs to the kernel is removed. -/
theorem uvmunmap_one (h : Inv k g) (hn : g.size root = some n) (hun : Unowned g root)
    {cur : ProcIdx} (hcur : (k.procs cur).pagetable ≠ some root) (hv : v < vpn maxVa) :
    ∃ k' g', k.uvmunmap cur root (v * pgSize) 1 false = .ok k' ∧ Freeing L root k g k' g' ∧
      (k'.pts root).leaf = Function.update (k.pts root).leaf v none := by
  obtain ⟨k', g', heq, hf, hleaf⟩ := unmapPage_unowned (L := L) h hn hun false hv (by simp)
  refine ⟨k', g', ?_, hf, hleaf⟩
  rw [uvmunmap, if_neg (by simp), unmapOwner_none hcur]
  simp only [unmapLoop, heq, ok_bind]

/-- `uvmfree` on a page table that is not the current process's. -/
theorem uvmfree_spec (h : Inv k g) {sz : ℕ} (hn : g.size root = some (npages sz))
    (hun : Unowned g root) {cur : ProcIdx} (hcur : (k.procs cur).pagetable ≠ some root)
    (hleaf : ∀ v, npages sz ≤ v → (k.pts root).leaf v = none) :
    ∃ k' g', k.uvmfree cur root sz = .ok k' ∧ Freed L root k g k' g' := by
  by_cases hsz : 0 < sz
  · obtain ⟨k₁, g₁, heq₁, hf₁, hleaf₁⟩ := unmapLoop_unowned (L := L) (v := 0) (npages sz) h hn hun
      (by have := (h.pt root _ hn).bound; omega)
    obtain ⟨k', g', heq, hf⟩ := freewalk_spec (L := L) hf₁.inv (hf₁.quiet.size ▸ hn)
      (hf₁.unowned hun) fun v => by
        rw [hleaf₁]
        split
        · rfl
        · exact hleaf v (by omega)
    refine ⟨k', g', ?_, hf.inv, by rw [hf.size, hf₁.quiet.size], hf.own.trans hf₁.quiet.own,
      hf.pend.trans hf₁.pend, hf.tables.trans hf₁.tables, hf.procs.trans hf₁.procs,
      fun q w hw => ?_⟩
    · rw [uvmfree, if_pos hsz]
      rw [Nat.zero_mul] at heq₁
      have hunmap : k.uvmunmap cur root 0 (npages sz) true = .ok k₁ := by
        rw [uvmunmap, if_neg (by simp), unmapOwner_none hcur, heq₁]
      rw [← npages, hunmap, ok_bind, heq]
    · have := hf.logical q w hw
      rw [hf₁.quiet.own] at this
      exact this.trans (hf₁.quiet.logical q w hw)
  · obtain rfl : sz = 0 := by omega
    obtain ⟨k', g', heq, hf⟩ := freewalk_spec (L := L) h hn hun fun v => hleaf v (by
      simp [npages, pgRoundUp, pgSize])
    exact ⟨k', g', by rw [uvmfree, if_neg hsz, heq], hf⟩

/-- **`proc_freepagetable`** on a page table that is not the current process's frees it and changes
nothing else; the frame table and the swap map stay as they are. -/
theorem procFreepagetable_spec (h : Inv k g) {sz : ℕ} (hn : g.size root = some (npages sz))
    (hun : Unowned g root) {cur : ProcIdx} (hcur : (k.procs cur).pagetable ≠ some root) :
    ∃ k' g', k.procFreepagetable cur root sz = .ok k' ∧ Freed L root k g k' g' := by
  have htramp : trampolineVa = vpn trampolineVa * pgSize := by decide
  have htrap : trapframeVa = vpn trapframeVa * pgSize := by decide
  obtain ⟨k₁, g₁, heq₁, hf₁, hleaf₁⟩ := uvmunmap_one (L := L) (v := vpn trampolineVa) h hn hun hcur
    (by decide)
  rw [← htramp] at heq₁
  obtain ⟨k₂, g₂, heq₂, hf₂, hleaf₂⟩ := uvmunmap_one (L := L) (v := vpn trapframeVa) hf₁.inv
    (hf₁.quiet.size ▸ hn) (hf₁.unowned hun) (hf₁.procs ▸ hcur) (by decide)
  rw [← htrap] at heq₂
  have hf := hf₁.trans hf₂
  obtain ⟨k', g', heq, hfreed⟩ := uvmfree_spec (L := L) hf.inv (hf.quiet.size ▸ hn)
    (hf.unowned hun) (hf.procs ▸ hcur) fun v hv => by
      rw [hleaf₂, hleaf₁]
      cases hl : (k.pts root).leaf v with
      | none => simp [Function.update_apply, hl]
      | some e =>
        rcases (h.pt root _ hn).leaf_use v e hl with ⟨hv' | hv', -⟩ | hv'
        · simp [hv', Function.update_apply]
        · simp [hv']
        · omega
  refine ⟨k', g', ?_, hfreed.inv, by rw [hfreed.size, hf.quiet.size],
    hfreed.own.trans hf.quiet.own, hfreed.pend.trans hf.pend, hfreed.tables.trans hf.tables,
    hfreed.procs.trans hf.procs, fun q w hw => ?_⟩
  · simp only [procFreepagetable, heq₁, heq₂, ok_bind, heq]
  · have := hfreed.logical q w hw
    rw [hf.quiet.own] at this
    exact this.trans (hf.quiet.logical q w hw)

/-- The trapframe of a process is freed. -/
theorem freeTrapframe_spec (h : Inv k g) (q : ProcIdx) :
    ∃ k' g', k.freeTrapframe q = .ok k' ∧ Inv k' g' ∧ g'.size = g.size ∧ g'.own = g.own ∧
      g'.pend = g.pend ∧ k'.tables = k.tables ∧ k'.pts = k.pts ∧
      (∀ p, k'.procs p = if p = q then { k.procs q with trapframe := none } else k.procs p) ∧
      ∀ p w, w < vpn trapframeVa → k'.logical L g.own p w = k.logical L g.own p w := by
  unfold freeTrapframe
  cases htf : (k.procs q).trapframe with
  | none =>
    refine ⟨k, g, rfl, h, rfl, rfl, rfl, rfl, rfl, fun p => ?_, fun _ _ _ => rfl⟩
    split
    · rename_i hp
      rw [hp, ← htf]
    · rfl
  | some pa =>
    have huse := h.trapframe q pa htf
    have hinv : Inv (k.setProc q fun proc => { proc with trapframe := none })
        (g.setUse pa .held) := by
      have hne : ∀ pa', g.use pa' ≠ .trapframe q → (g.setUse pa .held).use pa' = g.use pa' := by
        intro pa' hpa'
        refine Ghost.setUse_use_of_ne _ _ ?_
        rintro rfl
        exact hpa' huse
      refine ⟨⟨fun pa' hpa' => ?_, h.pages.nodup, fun pa' hpa' => h.pages.managed pa' ?_⟩,
        fun r m hm => ?_, h.own_size, h.own_inj, fun p pa' hp => ?_, h.tables⟩
      · rw [hne pa' (by simp [h.pages.free_use pa' hpa']), h.pages.free_use pa' hpa']
      · by_cases hpa'' : g.use pa' = .trapframe q
        · simp [hpa'']
        · rwa [hne pa' hpa''] at hpa'
      · exact (h.pt r m hm).update_use (by simp [huse]) (by simp [huse]) (by simp [huse])
          (by simp [huse]) _
      · by_cases hpq : p = q
        · simp [setProc, hpq] at hp
        · have := h.trapframe p pa' (by simpa [setProc, hpq] using hp)
          rw [hne pa' (by simp [this, hpq]), this]
    obtain ⟨k', heq, hinv', hq, hpts, htab, hprocs⟩ :=
      kfree_spec (L := L) hinv (g.setUse_use_self pa .held)
    have hcomm : (k.kfree pa >>= fun k =>
        pure (k.setProc q fun proc => { proc with trapframe := none })) = .ok k' := by
      rw [← heq]
      unfold kfree
      by_cases hc : pa % pgSize ≠ 0 ∨ pa < k.kernEnd ∨ phystop ≤ pa
      · rw [if_pos hc]
        exact (if_pos hc).symm
      · rw [if_neg hc]
        exact (if_neg hc).symm
    refine ⟨k', _, hcomm, hinv', rfl, rfl, rfl, htab, hpts, fun p => ?_, fun p w hw => ?_⟩
    · rw [hprocs]
      by_cases hp : p = q <;> simp [setProc, hp]
    · exact hq.logical p w hw

/-- The entries of a process that is torn down are removed, and it no longer owns its page table. -/
theorem Inv.freeProcSwapSlots (h : Inv k g) (hpend : g.pend = none) (q : ProcIdx) :
    Inv { k with tables := k.tables.freeProcSwapSlots q }
        { g with own := Function.update g.own q none } ∧
      ∀ p ≠ q, ∀ w, ({ k with tables := k.tables.freeProcSwapSlots q } : Kernel σ).logical L
        (Function.update g.own q none) p w = k.logical L g.own p w := by
  have hfreed := freeProcSwapSlots_spec q k.tables
  generalize k.tables.freeProcSwapSlots q = t at hfreed
  have hown : ∀ p ≠ q, Function.update g.own q none p = g.own p :=
    fun p hp => Function.update_of_ne hp _ _
  have hsub : ∀ p root, Function.update g.own q none p = some root →
      p ≠ q ∧ g.own p = some root := by
    intro p root hp
    have hpq : p ≠ q := by
      rintro rfl
      simp at hp
    exact ⟨hpq, hown p hpq ▸ hp⟩
  have ht : TablesOk t ({ g with own := Function.update g.own q none } : Ghost).np
      (k.pte (Function.update g.own q none)) none := by
    have := h.tables
    rw [hpend] at this
    refine this.freeProc hfreed (fun p hp => ?_) fun p hp => ?_
    · simp [Ghost.np, hown p hp]
    · funext w
      simp [pte, hown p hp]
  have hinv : Inv { k with tables := t } { g with own := Function.update g.own q none } :=
    ⟨h.pages, h.pt, fun p root hp => h.own_size p root (hsub p root hp).2,
      fun p p' root hp hp' => h.own_inj p p' root (hsub p root hp).2 (hsub p' root hp').2,
      h.trapframe, hpend ▸ ht⟩
  refine ⟨hinv, fun p hp w => ?_⟩
  have hpte : k.pte (Function.update g.own q none) p w = k.pte g.own p w := by
    simp [pte, hown p hp]
  have hswap : ({ k with tables := t } : Kernel σ).swapPage L p w = k.swapPage L p w := by
    refine h.swapPage_congr hinv (fun i => ?_) fun _ _ => rfl
    have hi := hfreed.swapMap i
    dsimp only
    rw [hi]
    split
    · rename_i hos
      constructor
      · rintro ⟨hc, -⟩
        simp [SwapEntry.clear] at hc
      · rintro ⟨-, hpi, -⟩
        exact absurd (Option.some.inj (hpi.symm.trans hos.2)) hp
    · rfl
  exact logical_congr hpte (fun _ _ => rfl) fun _ => hswap

/-- The address space of a process is freed by another one. -/
theorem freePagetable_spec (L : SwapLaws S) (h : Inv k g) (hown : Owns k g)
    (hsize : ∀ p root, (k.procs p).pagetable = some root →
      g.size root = some (npages (k.procs p).sz)) (hpend : g.pend = none) {cur q : ProcIdx}
    (hne : cur ≠ q) :
    ∃ k' g', k.freePagetable cur q = .ok k' ∧ Inv k' g' ∧ g'.pend = none ∧
      g'.own = Function.update g.own q none ∧ k'.procs = k.procs ∧
      (∀ p ≠ q, ∀ root, g.own p = some root → g'.size root = g.size root) ∧
      ∀ p ≠ q, ∀ w, w < vpn trapframeVa → k'.logical L g'.own p w = k.logical L g.own p w := by
  unfold freePagetable
  cases hroot : (k.procs q).pagetable with
  | none =>
    have hq : g.own q = none := (hown q).trans hroot
    exact ⟨k, g, rfl, h, hpend, by rw [← hq, Function.update_eq_self], rfl, fun _ _ _ _ => rfl,
      fun _ _ _ _ => rfl⟩
  | some root =>
    have hq : g.own q = some root := (hown q).trans hroot
    obtain ⟨hinv, hlog⟩ := h.freeProcSwapSlots (L := L) hpend q
    have hother : ∀ p ≠ q, g.own p ≠ some root := fun p hp e => hp (h.own_inj p q root e hq)
    have hun : Unowned { g with own := Function.update g.own q none } root := by
      intro p
      by_cases hp : p = q
      · simp [hp]
      · simpa [hp] using hother p hp
    have hcur :
        (({ k with tables := k.tables.freeProcSwapSlots q } : Kernel σ).procs cur).pagetable ≠
        some root := fun e => hother cur hne ((hown cur).trans e)
    obtain ⟨k', g', heq, hf⟩ :=
      procFreepagetable_spec (L := L) hinv (hsize q root hroot) hun hcur
    refine ⟨k', g', heq, hf.inv, hf.pend.trans hpend, hf.own, hf.procs, fun p hp r hr => ?_,
      fun p hp w hw => ?_⟩
    · have hrr : r ≠ root := fun e => hother p hp (hr.trans (congrArg some e))
      simp [hf.size, hrr]
    · rw [hf.own]
      exact (hf.logical p w hw).trans (hlog p hp w)

/-- **`freeproc`**, called by another process, removes the process and leaves all others as they
were. -/
theorem freeproc_spec (L : SwapLaws S) (h : Inv k g) (hs : Synced k g) {cur q : ProcIdx}
    (hne : cur ≠ q) :
    ∃ k' g', k.freeproc cur q = .ok k' ∧ Inv k' g' ∧ Synced k' g' ∧
      (∀ p ≠ q, (k'.procs p).core = (k.procs p).core) ∧
      (k'.procs q).core = ⟨.unused, 0, none, none, 0⟩ ∧
      ∀ p ≠ q, ∀ w, w < vpn trapframeVa → k'.logical L k'.roots p w = k.logical L k.roots p w := by
  obtain ⟨k₁, g₁, heq₁, hinv₁, hsize₁, hown₁, hpend₁, -, -, hprocs₁, hlog₁⟩ :=
    freeTrapframe_spec (L := L) h q
  have hpt₁ : ∀ p, (k₁.procs p).pagetable = (k.procs p).pagetable ∧
      (k₁.procs p).sz = (k.procs p).sz := by
    intro p
    rw [hprocs₁]
    split
    · rename_i hp
      rw [hp]
      exact ⟨rfl, rfl⟩
    · exact ⟨rfl, rfl⟩
  obtain ⟨k₂, g₂, heq₂, hinv₂, hpend₂, hown₂, hprocs₂, hsize₂, hlog₂⟩ :=
    freePagetable_spec L hinv₁ (fun p => by rw [hown₁, hs.own, (hpt₁ p).1])
      (fun p root hp => by
        rw [(hpt₁ p).1] at hp
        rw [hsize₁, (hpt₁ p).2]
        exact hs.size p root hp) (hpend₁.trans hs.pend) hne
  generalize hk' : (k₂.setProc q fun proc =>
    { proc with pagetable := none, sz := 0, xstate := 0, state := .unused }) = k'
  have hprocs : ∀ p ≠ q, k'.procs p = k.procs p := by
    intro p hp
    rw [← hk']
    simp [setProc, hp, hprocs₂, hprocs₁]
  have hself : (k'.procs q).core = ⟨.unused, 0, none, none, 0⟩ := by
    rw [← hk']
    simp [setProc, hprocs₂, hprocs₁, Proc.core]
  have hinv : Inv k' g₂ := by
    rw [← hk']
    exact hinv₂.congr rfl rfl rfl (fun p => by by_cases hp : p = q <;> simp [setProc, hp]) (.refl _)
  have hroots : k'.roots = g₂.own := by
    funext p
    rw [hown₂, hown₁, roots]
    by_cases hp : p = q
    · have := congrArg ProcCore.pagetable hself
      simp only [Proc.core] at this
      simp [hp, this]
    · simp [hprocs p hp, hp, hs.own]
  refine ⟨k', g₂, ?_, hinv, ⟨fun p => ?_, fun p root hp => ?_, hpend₂⟩,
    fun p hp => by rw [hprocs p hp], hself, fun p hp w hw => ?_⟩
  · rw [freeproc, heq₁, ok_bind, heq₂, ok_bind, ← hk']
    rfl
  · exact (congrFun hroots p).symm
  · have hpq : p ≠ q := by
      rintro rfl
      have := congrArg ProcCore.pagetable hself
      simp only [Proc.core] at this
      simp [this] at hp
    rw [hprocs p hpq] at hp ⊢
    rw [hsize₂ p hpq root (by rw [hown₁, hs.own, hp]), hsize₁]
    exact hs.size p root hp
  · have hlog : k'.logical L k'.roots p w = k₂.logical L g₂.own p w := by
      rw [hroots, ← hk']
      rfl
    rw [hlog, hlog₂ p hp w hw, hown₁, hlog₁ p w hw, hs.roots_eq]

end Xv6Swap.Paging.Kernel
