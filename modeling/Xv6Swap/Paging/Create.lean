import Xv6Swap.Paging.Account
import Xv6Swap.Paging.Fork
import Xv6Swap.Paging.Transparent

/-!
# A new process

`allocproc` gives an unused process a trapframe and a page table without user memory, or leaves it
unused (`allocproc_spec`). Either way nothing else changes and no page is lost.
-/

namespace Xv6Swap.Paging

open Raid (Page pgSize)
open Kernel (vpn)

/-- What `freeproc` leaves of a process. -/
structure Proc.Blank (p : Proc) : Prop where
  state : p.state = .unused
  sz : p.sz = 0
  pagetable : p.pagetable = none
  trapframe : p.trapframe = none

namespace Kernel

open Tables

variable {σ : Type} {S : SwapOps σ} {L : SwapLaws S} {k k' : Kernel σ} {g g' : Ghost}
  {root tf pa : PA} {n v : ℕ} {p q cur : ProcIdx} {R : Set PA}

/-- Every process that is not in use is blank. -/
def Clean (k : Kernel σ) : Prop := ∀ q, (k.procs q).state = .unused → (k.procs q).Blank

/-! ## The page table -/

/-- A new page table, which no process has. -/
theorem Inv.add_root (h : Inv k g) (hheld : g.use root = .held) :
    Inv (k.setPt root .empty)
        { g.setUse root .root with size := Function.update g.size root (some 0) } ∧
      g.size root = none ∧ Unowned g root := by
  have hsize : g.size root = none := by
    cases hn : g.size root with
    | none => rfl
    | some n =>
      have := (h.pt root n hn).root_use
      simp [hheld] at this
  have hun : Unowned g root := fun q hq => by
    have := h.own_size q root hq
    simp [hsize] at this
  have hne : ∀ pa', g.use pa' ≠ .held → (g.setUse root .root).use pa' = g.use pa' := by
    intro pa' hpa'
    refine Ghost.setUse_use_of_ne _ _ ?_
    rintro rfl
    exact hpa' hheld
  have hnp : ({ g.setUse root .root with size := Function.update g.size root (some 0) } :
      Ghost).np = g.np := by
    funext q
    cases hq : g.own q with
    | none => simp [Ghost.np, Ghost.setUse, hq]
    | some r =>
      have hr : r ≠ root := fun e => hun q (hq.trans (congrArg some e))
      simp [Ghost.np, Ghost.setUse, hq, hr]
  refine ⟨⟨⟨fun pa' hpa' => ?_, h.pages.nodup, fun pa' hpa' => h.pages.managed pa' ?_⟩,
    fun r m hm => ?_, fun q r hq => ?_, h.own_inj, fun q pa' hq => ?_, ?_⟩, hsize, hun⟩
  · have hfree := h.pages.free_use pa' hpa'
    exact (hne pa' (by simp [hfree])).trans hfree
  · by_cases hpa'' : pa' = root
    · simp [hpa'', hheld]
    · simpa [Ghost.setUse, hpa''] using hpa'
  · by_cases hr : r = root
    · subst hr
      obtain rfl : 0 = m := by simpa using hm
      simp only [setPt, Function.update_self]
      exact ⟨by simp [Ghost.setUse], by simp [PageTable.empty], by simp [PageTable.empty],
        by simp [PageTable.empty], by simp [PageTable.empty], by simp [PageTable.empty],
        by simp [PageTable.empty], Nat.zero_le _⟩
    · have hpt := (h.pt r m (by simpa [hr] using hm)).update_spare (.inr hheld) .root
      have hpts : (k.setPt root .empty).pts r = k.pts r := by simp [setPt, hr]
      rw [hpts]
      exact hpt
  · have hr : r ≠ root := fun e => hun q (hq.trans (congrArg some e))
    simpa [hr] using h.own_size q r hq
  · have htrap := h.trapframe q pa' hq
    exact (hne pa' (by simp [htrap])).trans htrap
  · have ht := h.tables
    rw [← pte_setPt_unowned (k := k) hun .empty] at ht
    rw [hnp]
    exact ht

/-- The trampoline or the trapframe is mapped in a page table that no process has. -/
theorem mappages_kernel_spec (h : Inv k g) (hn : g.size root = some n) (hun : Unowned g root)
    (hv : v = vpn trampolineVa ∨ v = vpn trapframeVa) (hnone : (k.pts root).leaf v = none)
    (pa : PA) {perm : Perm} (hu : perm.u = false) :
    ∃ b k' g', k.mappages root (v * pgSize) pa perm = .ok (b, k') ∧ Freeing L root k g k' g' ∧
      (k'.pts root).leaf =
        if b then Function.update (k.pts root).leaf v (some ⟨pa, perm⟩) else (k.pts root).leaf := by
  have hva : v * pgSize < maxVa := by rcases hv with rfl | rfl <;> decide
  obtain ⟨k₁, g₁, hinv, hq, hpend, htab, hleaf, hres⟩ :=
    mappages_walk_spec (L := L) h hn hva hnone pa perm
  rcases hres with heq | ⟨hlow, heq⟩
  · refine ⟨false, k₁, g₁, heq, ⟨hinv, hq, hpend, htab, ?_⟩, hleaf root⟩
    obtain ⟨k₂, hw, ⟨-, rfl⟩ | ⟨hfalse, -⟩⟩ := mappages_walked heq
    · exact hw.procs
    · cases hfalse
  · have hprocs : (k₁.setLeaf root (v * pgSize) (some ⟨pa, perm⟩)).procs = k.procs := by
      obtain ⟨k₂, hw, ⟨hfalse, -⟩ | ⟨-, -, hk₂⟩⟩ := mappages_walked heq
      · cases hfalse
      · rw [hk₂]
        exact hw.procs
    have hun₁ : Unowned g₁ root := fun q => by rw [hq.own]; exact hun q
    have hpte := pte_setPt_unowned (k := k₁) hun₁
      { k₁.pts root with leaf := Function.update (k₁.pts root).leaf v (some ⟨pa, perm⟩) }
    have hn₁ : g₁.size root = some n := hq.size ▸ hn
    have hset : Inv (k₁.setLeaf root (v * pgSize) (some ⟨pa, perm⟩)) g₁ := by
      rw [setLeaf, vpn_mul]
      exact hinv.change_leaf hn₁ k₁.tables g₁.pend ((hinv.pt root n hn₁).set_kernel_leaf hv hu hlow)
        (hpte ▸ hinv.tables)
    have hq₁ : Quiet L k₁ g₁ (k₁.setLeaf root (v * pgSize) (some ⟨pa, perm⟩)) g₁ := by
      rw [setLeaf, vpn_mul]
      exact ⟨rfl, rfl, fun _ => rfl, fun _ hpa => ⟨hpa, rfl⟩, fun q w hw => by rw [hpte]; exact hw,
        fun _ _ => rfl, fun _ _ _ hi => .inl hi, fun q w _ => logical_congr (by rw [hpte])
          (fun _ _ => rfl) fun _ => rfl⟩
    refine ⟨true, _, g₁, heq, ⟨hset, hq.trans hq₁, hpend, htab, hprocs⟩, ?_⟩
    simp [setLeaf, setPt, hleaf]

/-- The pages of an empty table, and the table itself, are freed. -/
theorem uvmfree_accounted (h : Inv k g) (hn : g.size root = some n)
    (hleaf : ∀ v < vpn trapframeVa, (k.pts root).leaf v = none)
    (heq : k.uvmfree cur root 0 = .ok k') (R : Set PA) :
    k'.accounted R = k.accounted (insert root R) ∧ k'.procs = k.procs ∧
      ∀ r ≠ root, k'.pts r = k.pts r := by
  rw [uvmfree, if_neg (Nat.lt_irrefl 0)] at heq
  have hpt := h.pt root n hn
  exact ⟨freewalk_accounted hleaf hpt.mid_lt hpt.low_mid heq R, freewalk_other hpt.low_mid heq⟩

/-- A page table that was made is freed again, for lack of memory. -/
theorem uvmfree_new_spec (h : Inv k g) (hn : g.size root = some 0) (hun : Unowned g root)
    (hcur : (k.procs cur).pagetable ≠ some root) (hleaf : ∀ v, (k.pts root).leaf v = none) :
    ∃ k' g', k.uvmfree cur root 0 = .ok k' ∧ Freed L root k g k' g' ∧
      (∀ R, k'.accounted R = k.accounted (insert root R)) ∧ ∀ r ≠ root, k'.pts r = k.pts r := by
  have hn₀ : g.size root = some (npages 0) := hn
  obtain ⟨k', g', heq, hf⟩ := uvmfree_spec (L := L) h hn₀ hun hcur fun v _ => hleaf v
  have hacc := uvmfree_accounted h hn (fun v _ => hleaf v) heq
  exact ⟨k', g', heq, hf, fun R => (hacc R).1, (hacc ∅).2.2⟩

/-- The state after `uvmcreate` has made the page table `root`. -/
structure RootMade (L : SwapLaws S) (root : PA) (k : Kernel σ) (g : Ghost) (k' : Kernel σ)
    (g' : Ghost) : Prop where
  free : root ∈ k.freelist
  new : g.size root = none
  unowned : Unowned g root
  inv : Inv k' g'
  own : g'.own = g.own
  pend : g'.pend = g.pend
  size : g'.size = Function.update g.size root (some 0)
  tables : k'.tables = k.tables
  procs : k'.procs = k.procs
  pts : k'.pts = Function.update k.pts root .empty
  logical : ∀ q w, w < vpn trapframeVa → k'.logical L g.own q w = k.logical L g.own q w
  accounted : ∀ R, root ∉ R → k'.accounted (insert root R) = k.accounted R

theorem uvmcreate_spec (L : SwapLaws S) (h : Inv k g) (hk : k.uvmcreate = (some root, k')) :
    ∃ g', RootMade L root k g k' g' := by
  unfold uvmcreate at hk
  split at hk
  · cases hk
  rename_i pa k₁ hka
  obtain ⟨hpa, rfl⟩ := Prod.mk.inj hk
  obtain rfl := Option.some.inj hpa
  have hacc := kalloc_accounted hka
  obtain ⟨l, hf, rfl⟩ := kalloc_some hka
  rw [fill_fill]
  obtain ⟨-, hinv, hq⟩ := h.take_fill (L := L) hf 0
  obtain ⟨hinv', hsize, hun⟩ := hinv.add_root (g.setUse_use_self pa .held)
  rw [Ghost.setUse_setUse] at hinv'
  refine ⟨_, by simp [hf], hsize, hun, hinv', rfl, rfl, rfl, rfl, rfl, rfl, fun q w hw => ?_,
    fun R hR => ?_⟩
  · have hpte := pte_setPt_unowned (k := ({ k with freelist := l } : Kernel σ).fill pa 0) hun .empty
    exact (logical_congr (congrFun₂ hpte q w) (fun _ _ => rfl) fun _ => rfl).trans
      (hq.logical q w hw)
  · rw [hacc R]
    ext x
    simp only [accounted, Set.mem_ofPred_eq, Set.mem_insert_iff]
    have hpts : ∀ r ∈ R, ((({ k with freelist := l } : Kernel σ).fill pa 0).setPt pa .empty).pts r =
        k.pts r := by
      rintro r hr
      have hne : r ≠ pa := by
        rintro rfl
        exact hR hr
      simp [setPt, fill, hne]
    constructor
    · rintro (hfree | htrap | ⟨r, rfl | hr, hx⟩)
      · exact .inr (.inl hfree)
      · exact .inr (.inr (.inl htrap))
      · rcases hx with rfl | hx
        · exact .inl rfl
        · simp [setPt, PageTable.pages, PageTable.empty] at hx
      · rw [hpts r hr] at hx
        exact .inr (.inr (.inr ⟨r, hr, hx⟩))
    · rintro (rfl | hfree | htrap | ⟨r, hr, hx⟩)
      · exact .inr (.inr ⟨x, .inl rfl, .inl rfl⟩)
      · exact .inl hfree
      · exact .inr (.inl htrap)
      · exact .inr (.inr ⟨r, .inr hr, by rw [hpts r hr]; exact hx⟩)

/-- What `proc_pagetable` leaves alone. -/
structure TableMade (L : SwapLaws S) (k : Kernel σ) (g : Ghost) (k' : Kernel σ) (g' : Ghost) :
    Prop where
  inv : Inv k' g'
  own : g'.own = g.own
  pend : g'.pend = g.pend
  tables : k'.tables = k.tables
  procs : k'.procs = k.procs
  logical : ∀ q w, w < vpn trapframeVa → k'.logical L g.own q w = k.logical L g.own q w
  pts : ∀ r, r ∉ k.freelist → k'.pts r = k.pts r

/-- The page table is given back, after some mappings that were made in it are gone. -/
theorem RootMade.undo {k₁ k₂ : Kernel σ} {g₁ g₂ : Ghost} (h : RootMade L root k g k₁ g₁)
    (ho : Owns k g) (hf : Freeing L root k₁ g₁ k₂ g₂) (hc : Confined root k₁ k₂)
    (hleaf : ∀ v, (k₂.pts root).leaf v = none) (cur : ProcIdx) :
    ∃ k' g', k₂.uvmfree cur root 0 = .ok k' ∧ TableMade L k g k' g' ∧ g'.size = g.size ∧
      ∀ R, (∀ x ∈ R, x ∉ k.freelist) → k'.accounted R = k.accounted R := by
  have hun₁ : Unowned g₁ root := fun q => by rw [h.own]; exact h.unowned q
  have hcur : (k₂.procs cur).pagetable ≠ some root := fun e => by
    rw [hf.procs, h.procs] at e
    exact h.unowned cur ((ho cur).trans e)
  have hn : g₂.size root = some 0 := by rw [hf.quiet.size, h.size, Function.update_self]
  obtain ⟨k', g', heq, hfreed, hacc, hpts⟩ := uvmfree_new_spec (L := L) hf.inv hn
    (hf.unowned hun₁) hcur hleaf
  refine ⟨k', g', heq, ⟨hfreed.inv, hfreed.own.trans (hf.quiet.own.trans h.own),
    hfreed.pend.trans (hf.pend.trans h.pend), hfreed.tables.trans (hf.tables.trans h.tables),
    hfreed.procs.trans (hf.procs.trans h.procs), fun q w hw => ?_, fun r hr => ?_⟩, ?_,
    fun R hR => ?_⟩
  · have h₁ := hfreed.logical q w hw
    have h₂ := hf.quiet.logical q w hw
    rw [hf.quiet.own, h.own] at h₁
    rw [h.own] at h₂
    exact h₁.trans (h₂.trans (h.logical q w hw))
  · have hne : r ≠ root := by
      rintro rfl
      exact hr h.free
    rw [hpts r hne, hc.other r hne, h.pts, Function.update_of_ne hne]
  · rw [hfreed.size, hf.quiet.size, h.size, Function.update_idem, ← h.new, Function.update_eq_self]
  · rw [hacc R, hc.accounted _ (Set.mem_insert ..), h.accounted R fun hx => hR root hx h.free]

/-- The page table is complete. -/
theorem RootMade.done {k₁ k₂ : Kernel σ} {g₁ g₂ : Ghost} (h : RootMade L root k g k₁ g₁)
    (hf : Freeing L root k₁ g₁ k₂ g₂) (hc : Confined root k₁ k₂) :
    TableMade L k g k₂ g₂ ∧ g₂.size = Function.update g.size root (some 0) ∧
      ∀ R, (∀ x ∈ R, x ∉ k.freelist) → k₂.accounted (insert root R) = k.accounted R := by
  refine ⟨⟨hf.inv, hf.quiet.own.trans h.own, hf.pend.trans h.pend, hf.tables.trans h.tables,
    hf.procs.trans h.procs, fun q w hw => ?_, fun r hr => ?_⟩, hf.quiet.size.trans h.size,
    fun R hR => ?_⟩
  · have := hf.quiet.logical q w hw
    rw [h.own] at this
    exact this.trans (h.logical q w hw)
  · have hne : r ≠ root := by
      rintro rfl
      exact hr h.free
    rw [hc.other r hne, h.pts, Function.update_of_ne hne]
  · rw [hc.accounted _ (Set.mem_insert ..), h.accounted R fun hx => hR root hx h.free]

theorem uvmunmap_one_confined (hv : vpn trapframeVa ≤ v)
    (h : k.uvmunmap cur root (v * pgSize) 1 false = .ok k') : Confined root k k' := by
  rw [uvmunmap, if_neg (by simp)] at h
  obtain ⟨k₁, hpage, h⟩ := bind_eq_ok.1 h
  obtain rfl := Except.ok.inj h
  exact unmapPage_confined (by simpa using hv) hpage

/-- **`proc_pagetable`** makes a page table for a process that has none, or gives its pages back. -/
theorem procPagetable_spec (L : SwapLaws S) (h : Inv k g) (ho : Owns k g) (cur : ProcIdx)
    (tf : PA) :
    ∃ r k' g', k.procPagetable cur tf = .ok (r, k') ∧ TableMade L k g k' g' ∧
      (r = none → g'.size = g.size ∧
        ∀ R, (∀ x ∈ R, x ∉ k.freelist) → k'.accounted R = k.accounted R) ∧
      ∀ root, r = some root → root ∈ k.freelist ∧ Unowned g root ∧
        g'.size = Function.update g.size root (some 0) ∧
        ∀ R, (∀ x ∈ R, x ∉ k.freelist) → k'.accounted (insert root R) = k.accounted R := by
  have htramp : trampolineVa = vpn trampolineVa * pgSize := by decide
  have htrap : trapframeVa = vpn trapframeVa * pgSize := by decide
  have hdiff : vpn trapframeVa ≠ vpn trampolineVa := by decide
  unfold procPagetable
  cases hk : k.uvmcreate with
  | mk r k₁ =>
    cases r with
    | none =>
      have hk₁ : k₁ = k := by
        unfold uvmcreate at hk
        split at hk
        · rename_i hka
          rw [← (Prod.mk.inj hk).2, kalloc_none hka]
        · cases hk
      subst hk₁
      exact ⟨none, k₁, g, rfl, ⟨h, rfl, rfl, rfl, rfl, fun _ _ _ => rfl, fun _ _ => rfl⟩,
        fun _ => ⟨rfl, fun _ _ => rfl⟩, by simp⟩
    | some root =>
      obtain ⟨g₁, hmade⟩ := uvmcreate_spec L h hk
      have hun₁ : Unowned g₁ root := fun q => by rw [hmade.own]; exact hmade.unowned q
      have hn₁ : g₁.size root = some 0 := by rw [hmade.size, Function.update_self]
      have hempty : ∀ v, (k₁.pts root).leaf v = none := fun v => by
        rw [hmade.pts, Function.update_self]
        rfl
      obtain ⟨b, k₂, g₂, heq₂, hf₂, hleaf₂⟩ := mappages_kernel_spec (L := L) hmade.inv hn₁ hun₁
        (.inl rfl) (hempty _) k₁.trampoline (show trampolinePerm.u = false from rfl)
      have hc₂ := mappages_confined (by decide) heq₂
      rw [← htramp] at heq₂
      dsimp only
      rw [heq₂, ok_bind]
      cases b with
      | false =>
        obtain ⟨k', g', heq, hmade', hsize, hacc⟩ := hmade.undo ho hf₂ hc₂ (fun v => by
          rw [hleaf₂]
          exact hempty v) cur
        refine ⟨none, k', g', ?_, hmade', fun _ => ⟨hsize, hacc⟩, by simp⟩
        simp only [if_true, heq, ok_bind]
        rfl
      | true =>
        simp only [Bool.true_eq_false, if_false]
        have hnone₂ : (k₂.pts root).leaf (vpn trapframeVa) = none := by
          rw [hleaf₂, if_pos rfl, Function.update_of_ne hdiff]
          exact hempty _
        obtain ⟨b, k₃, g₃, heq₃, hf₃, hleaf₃⟩ := mappages_kernel_spec (L := L) hf₂.inv
          (hf₂.quiet.size ▸ hn₁) (hf₂.unowned hun₁) (.inr rfl) hnone₂ tf
          (show trapframePerm.u = false from rfl)
        have hc₃ := mappages_confined le_rfl heq₃
        rw [← htrap] at heq₃
        rw [heq₃, ok_bind]
        cases b with
        | false =>
          have hun₃ := hf₃.unowned (hf₂.unowned hun₁)
          have hcur : (k₃.procs cur).pagetable ≠ some root := fun e => by
            rw [hf₃.procs, hf₂.procs, hmade.procs] at e
            exact hmade.unowned cur ((ho cur).trans e)
          obtain ⟨k₄, g₄, heq₄, hf₄, hleaf₄⟩ := uvmunmap_one (L := L) (v := vpn trampolineVa)
            hf₃.inv (hf₃.quiet.size ▸ hf₂.quiet.size ▸ hn₁) hun₃ hcur (by decide)
          have hc₄ : Confined root k₃ k₄ := uvmunmap_one_confined (by decide) heq₄
          rw [← htramp] at heq₄
          obtain ⟨k', g', heq, hmade', hsize, hacc⟩ := hmade.undo ho ((hf₂.trans hf₃).trans hf₄)
            ((hc₂.trans hc₃).trans hc₄) (fun v => by
              rw [hleaf₄, hleaf₃, if_neg Bool.false_ne_true, hleaf₂, if_pos rfl,
                Function.update_idem, Function.update_apply]
              split
              · rfl
              · exact hempty v) cur
          refine ⟨none, k', g', ?_, hmade', fun _ => ⟨hsize, hacc⟩, by simp⟩
          simp only [if_true, heq₄, heq, ok_bind]
          rfl
        | true =>
          obtain ⟨hmade', hsize, hacc⟩ := hmade.done (hf₂.trans hf₃) (hc₂.trans hc₃)
          refine ⟨some root, k₃, g₃, rfl, hmade', by simp, ?_⟩
          rintro _ ⟨⟩
          exact ⟨hmade.free, hmade.unowned, hsize, hacc⟩

/-! ## The process -/

/-- A page held by the kernel becomes the trapframe of a process. -/
theorem Inv.add_trapframe (h : Inv k g) (hheld : g.use tf = .held)
    (hnone : (k.procs q).trapframe = none) :
    Inv (k.setProc q fun proc => { proc with trapframe := some tf })
      (g.setUse tf (.trapframe q)) := by
  have hne : ∀ pa', g.use pa' ≠ .held → (g.setUse tf (.trapframe q)).use pa' = g.use pa' := by
    intro pa' hpa'
    refine Ghost.setUse_use_of_ne _ _ ?_
    rintro rfl
    exact hpa' hheld
  refine ⟨⟨fun pa' hpa' => ?_, h.pages.nodup, fun pa' hpa' => h.pages.managed pa' ?_⟩,
    fun r m hm => (h.pt r m hm).update_spare (.inr hheld) _, h.own_size, h.own_inj,
    fun p pa' hp => ?_, h.tables⟩
  · have hfree := h.pages.free_use pa' hpa'
    rw [hne pa' (by simp [hfree]), hfree]
  · by_cases hpa'' : pa' = tf
    · simp [hpa'', hheld]
    · rwa [Ghost.setUse_use_of_ne _ _ hpa''] at hpa'
  · by_cases hpq : p = q
    · subst hpq
      obtain rfl : tf = pa' := by simpa [setProc] using hp
      exact g.setUse_use_self tf _
    · have huse := h.trapframe p pa' (by simpa [setProc, hpq] using hp)
      rw [hne pa' (by simp [huse]), huse]

/-- A page table without user memory is given to a process that has none. -/
theorem Inv.adopt (h : Inv k g) (hq : g.own q = none) (hn : g.size root = some 0)
    (hun : Unowned g root) : Inv k { g with own := Function.update g.own q (some root) } := by
  have hother : ∀ r ≠ q, Function.update g.own q (some root) r = g.own r :=
    fun r hr => Function.update_of_ne hr _ _
  have hnp : ({ g with own := Function.update g.own q (some root) } : Ghost).np = g.np := by
    funext r
    by_cases hr : r = q
    · subst hr
      simp [Ghost.np, hq, hn]
    · simp [Ghost.np, hother r hr]
  -- no entry is for a page of the process
  have hpte : ∀ r w, w < g.np r →
      k.pte (Function.update g.own q (some root)) r w = k.pte g.own r w := by
    intro r w hw
    have hr : r ≠ q := by
      rintro rfl
      simp [Ghost.np, hq] at hw
    simp [pte, hother r hr]
  refine ⟨h.pages, h.pt, fun r root' hr => ?_, fun r r' root' hr hr' => ?_, h.trapframe, ?_⟩
  · by_cases hrq : r = q
    · subst hrq
      obtain rfl : root = root' := by simpa using hr
      simp [hn]
    · exact h.own_size r root' (hother r hrq ▸ hr)
  · by_cases hrq : r = q
    · by_cases hrq' : r' = q
      · rw [hrq, hrq']
      · subst hrq
        obtain rfl : root = root' := by simpa using hr
        exact absurd (hother r' hrq' ▸ hr') (hun r')
    · by_cases hrq' : r' = q
      · subst hrq'
        obtain rfl : root = root' := by simpa using hr'
        exact absurd (hother r hrq ▸ hr) (hun r)
      · exact h.own_inj r r' root' (hother r hrq ▸ hr) (hother r' hrq' ▸ hr')
  · rw [hnp]
    exact h.tables.congr (fun _ r w _ hw => ⟨hw, hpte r w hw⟩) fun _ r w _ hw => ⟨hw, hpte r w hw⟩

theorem freeTrapframe_accounted (hk : k.freeTrapframe q = .ok k') (R : Set PA) :
    k'.accounted R = k.accounted R := by
  unfold freeTrapframe at hk
  split at hk
  · rw [Except.ok.inj hk]
  · rename_i pa htf
    obtain ⟨k₁, hfree, hk⟩ := bind_eq_ok.1 hk
    obtain rfl := kfree_eq_ok hfree
    obtain rfl := Except.ok.inj hk
    ext x
    simp only [accounted, Set.mem_ofPred_eq, setProc, fill, List.mem_cons]
    constructor
    · rintro ((rfl | hx) | ⟨r, hr⟩ | hx)
      · exact .inr (.inl ⟨q, htf⟩)
      · exact .inl hx
      · by_cases hrq : r = q
        · subst hrq
          simp at hr
        · exact .inr (.inl ⟨r, by simpa [hrq] using hr⟩)
      · exact .inr (.inr hx)
    · rintro (hx | ⟨r, hr⟩ | hx)
      · exact .inl (.inr hx)
      · by_cases hrq : r = q
        · subst hrq
          exact .inl (.inl (Option.some.inj (hr.symm.trans htf)))
        · exact .inr (.inl ⟨r, by simpa [hrq] using hr⟩)
      · exact .inr (.inr hx)

theorem accounted_setTrapframe (hnone : (k.procs q).trapframe = none) (R : Set PA) :
    (k.setProc q fun proc => { proc with trapframe := some tf }).accounted R =
      insert tf (k.accounted R) := by
  ext x
  simp only [accounted, Set.mem_ofPred_eq, setProc, Set.mem_insert_iff]
  constructor
  · rintro (hx | ⟨r, hr⟩ | hx)
    · exact .inr (.inl hx)
    · by_cases hrq : r = q
      · subst hrq
        exact .inl (by simpa [eq_comm] using hr)
      · exact .inr (.inr (.inl ⟨r, by simpa [hrq] using hr⟩))
    · exact .inr (.inr (.inr hx))
  · rintro (rfl | hx | ⟨r, hr⟩ | hx)
    · exact .inr (.inl ⟨q, by simp⟩)
    · exact .inl hx
    · have hrq : r ≠ q := by
        rintro rfl
        simp [hnone] at hr
      exact .inr (.inl ⟨r, by simpa [hrq] using hr⟩)
    · exact .inr (.inr hx)

/-- A process without a page table is given up. -/
theorem freeBare_spec (L : SwapLaws S) (h : Inv k g) (hs : Synced k g)
    (hq : (k.procs q).pagetable = none) :
    ∃ k', k.freeBare q = .ok k' ∧ k'.Sound ∧ (k'.procs q).Blank ∧ k'.tables = k.tables ∧
      k'.pts = k.pts ∧ (∀ r ≠ q, k'.procs r = k.procs r) ∧
      (∀ r w, w < vpn trapframeVa → k'.logical L k'.roots r w = k.logical L g.own r w) ∧
      ∀ R, k'.accounted R = k.accounted R := by
  obtain ⟨k₁, g₁, heq, hinv, hsize, hown, hpend, htab, hpts, hprocs, hlog⟩ :=
    freeTrapframe_spec (L := L) h q
  have hblank : ((k₁.resetProc q).procs q).Blank := by
    constructor <;> simp [resetProc, setProc, hprocs]
  have hother : ∀ r ≠ q, (k₁.resetProc q).procs r = k.procs r := fun r hr => by
    simp [resetProc, setProc, hprocs, hr]
  have hroots : (k₁.resetProc q).roots = g.own := by
    funext r
    rw [roots, hs.own]
    by_cases hr : r = q
    · rw [hr, hblank.pagetable, hq]
    · rw [hother r hr]
  refine ⟨k₁.resetProc q, ?_, ⟨g₁, ?_, fun r => ?_, fun r root hr => ?_, hpend.trans hs.pend⟩,
    hblank, htab, hpts, hother, fun r w hw => ?_, fun R => ?_⟩
  · rw [freeBare, heq]
    rfl
  · refine hinv.congr rfl rfl rfl (fun r => ?_) (.refl _)
    by_cases hr : r = q <;> simp [resetProc, setProc, hr]
  · rw [hown, ← hroots, roots]
  · have hrq : r ≠ q := by
      rintro rfl
      simp [hblank.pagetable] at hr
    rw [hother r hrq] at hr ⊢
    rw [hsize, hs.size r root hr]
  · rw [hroots, ← hlog r w hw]
    rfl
  · rw [← freeTrapframe_accounted heq R]
    refine accounted_congr rfl (fun r => ?_) fun _ _ => rfl
    by_cases hr : r = q <;> simp [resetProc, setProc, hr]

/-- What `allocproc` for the process `q` does to the rest of the kernel. -/
structure ProcStep (L : SwapLaws S) (q : ProcIdx) (k k' : Kernel σ) : Prop where
  sound : k'.Sound
  tables : k'.tables = k.tables
  procs : ∀ r ≠ q, k'.procs r = k.procs r
  pts : ∀ r, r ∉ k.freelist → k'.pts r = k.pts r
  logical : ∀ r ≠ q, ∀ w < vpn trapframeVa,
    k'.logical L k'.roots r w = k.logical L k.roots r w

/-- A process that has been made, with a page table without user memory. -/
structure ProcMade (q : ProcIdx) (root : PA) (k k' : Kernel σ) : Prop where
  free : root ∈ k.freelist
  pagetable : (k'.procs q).pagetable = some root
  sz : (k'.procs q).sz = 0
  accounted : ∀ R, (∀ x ∈ R, x ∉ k.freelist) → k'.accounted (insert root R) = k.accounted R

/-- A state inside `allocproc` for the process `q`, which has no page table yet, compared to the
state `k` of the call. -/
structure Starting (L : SwapLaws S) (q : ProcIdx) (k k' : Kernel σ) (g' : Ghost) : Prop where
  inv : Inv k' g'
  synced : Synced k' g'
  tables : k'.tables = k.tables
  pts : ∀ r, r ∉ k.freelist → k'.pts r = k.pts r
  procs : ∀ r ≠ q, k'.procs r = k.procs r
  pagetable : (k'.procs q).pagetable = none
  sz : (k'.procs q).sz = 0
  logical : ∀ r w, w < vpn trapframeVa → k'.logical L g'.own r w = k.logical L k.roots r w
  accounted : ∀ R, (∀ x ∈ R, x ∉ k.freelist) → k'.accounted R = k.accounted R

theorem Starting.used (h : Inv k g) (hs : Synced k g) (hq : (k.procs q).Blank) :
    Starting L q k (k.setProc q fun proc => { proc with state := .used }) g := by
  generalize hk' : (k.setProc q fun proc => { proc with state := .used }) = k'
  have hsame : ∀ r, (k'.procs r).pagetable = (k.procs r).pagetable ∧
      (k'.procs r).trapframe = (k.procs r).trapframe ∧ (k'.procs r).sz = (k.procs r).sz := by
    intro r
    rw [← hk']
    by_cases hr : r = q <;> simp [setProc, hr]
  have hinv : Inv k' g :=
    h.congr (by rw [← hk']; rfl) (by rw [← hk']; rfl) (by rw [← hk']; rfl)
      (fun r => (hsame r).2.1) (by rw [← hk']; exact .refl _)
  refine
    { inv := hinv
      synced := ⟨fun r => (hs.own r).trans (hsame r).1.symm, fun r root hr => ?_, hs.pend⟩
      tables := by rw [← hk']; rfl
      pts := fun r _ => by rw [← hk']; rfl
      procs := fun r hr => by rw [← hk']; simp [setProc, hr]
      pagetable := (hsame q).1.trans hq.pagetable
      sz := (hsame q).2.2.trans hq.sz
      logical := fun r w _ => by rw [← hk', hs.roots_eq]; rfl
      accounted := fun R _ => accounted_congr (by rw [← hk']; rfl) (fun r => (hsame r).2.1)
        fun _ _ => by rw [← hk']; rfl }
  rw [(hsame r).2.2]
  exact hs.size r root ((hsame r).1 ▸ hr)

theorem Starting.addTrapframe {k₁ k₂ : Kernel σ} (h : Starting L q k k₁ g)
    (htf : (k₁.procs q).trapframe = none) (hk : k₁.kalloc = (some tf, k₂)) :
    k₂.freelist ⊆ k₁.freelist ∧
      ∃ g', Starting L q k (k₂.setProc q fun proc => { proc with trapframe := some tf }) g' := by
  have hacc := kalloc_accounted hk
  obtain ⟨l, hf, rfl⟩ := kalloc_some hk
  obtain ⟨-, hinv₂, hq₂⟩ := h.inv.take_fill (L := L) hf 5
  generalize hk₂ : ({ k₁ with freelist := l } : Kernel σ).fill tf 5 = k₂ at *
  have hprocs₂ : k₂.procs = k₁.procs := by rw [← hk₂]; rfl
  have hsame : ∀ r, ((k₂.setProc q fun proc => { proc with trapframe := some tf }).procs
        r).pagetable = (k₁.procs r).pagetable ∧
      ((k₂.setProc q fun proc => { proc with trapframe := some tf }).procs r).sz =
        (k₁.procs r).sz := by
    intro r
    by_cases hr : r = q <;> simp [setProc, hr, hprocs₂]
  refine ⟨fun pa hpa => ?_, _,
    { inv := hinv₂.add_trapframe (g.setUse_use_self tf .held) (by rw [hprocs₂, htf])
      synced := ⟨fun r => (h.synced.own r).trans (hsame r).1.symm, fun r root hr => ?_,
        h.synced.pend⟩
      tables := by rw [← h.tables, ← hk₂]; rfl
      pts := fun r hr => by rw [← h.pts r hr, ← hk₂]; rfl
      procs := fun r hr => by rw [← h.procs r hr, ← hprocs₂]; simp [setProc, hr]
      pagetable := (hsame q).1.trans h.pagetable
      sz := (hsame q).2.trans h.sz
      logical := fun r w hw => (hq₂.logical r w hw).trans (h.logical r w hw)
      accounted := fun R hR => ?_ }⟩
  · rw [← hk₂] at hpa
    rw [hf]
    exact List.mem_cons_of_mem _ hpa
  · rw [(hsame r).2]
    exact h.synced.size r root ((hsame r).1 ▸ hr)
  · rw [accounted_setTrapframe (by rw [hprocs₂, htf]), ← hacc, h.accounted R hR]

/-- `proc_pagetable` has failed. -/
theorem Starting.noTable {k₁ k₂ : Kernel σ} (h : Starting L q k k₁ g)
    (hsub : k₁.freelist ⊆ k.freelist) (hmade : TableMade L k₁ g k₂ g') (hsize : g'.size = g.size)
    (hacc : ∀ R, (∀ x ∈ R, x ∉ k₁.freelist) → k₂.accounted R = k₁.accounted R) :
    Starting L q k k₂ g' where
  inv := hmade.inv
  synced :=
    ⟨fun r => by rw [hmade.own, hmade.procs, h.synced.own], fun r root hr => by
      rw [hmade.procs] at hr ⊢
      rw [hsize, h.synced.size r root hr], hmade.pend.trans h.synced.pend⟩
  tables := hmade.tables.trans h.tables
  pts r hr := (hmade.pts r fun hr' => hr (hsub hr')).trans (h.pts r hr)
  procs r hr := by rw [hmade.procs, h.procs r hr]
  pagetable := by rw [hmade.procs, h.pagetable]
  sz := by rw [hmade.procs, h.sz]
  logical r w hw := by
    rw [hmade.own, hmade.logical r w hw, h.logical r w hw]
  accounted R hR := (hacc R fun x hx hx' => hR x hx (hsub hx')).trans (h.accounted R hR)

/-- The process is given up. -/
theorem Starting.giveUp {k₁ : Kernel σ} (h : Starting L q k k₁ g) :
    ∃ k', k₁.freeBare q = .ok k' ∧ ProcStep L q k k' ∧ (k'.procs q).Blank ∧
      ∀ R, (∀ x ∈ R, x ∉ k.freelist) → k'.accounted R = k.accounted R := by
  obtain ⟨k', heq, hsound, hblank, htab, hpts, hprocs, hlog, hacc⟩ :=
    freeBare_spec L h.inv h.synced h.pagetable
  refine ⟨k', heq, ⟨hsound, htab.trans h.tables, fun r hr => (hprocs r hr).trans (h.procs r hr),
    fun r hr => ?_, fun r _ w hw => (hlog r w hw).trans (h.logical r w hw)⟩, hblank, fun R hR =>
    (hacc R).trans (h.accounted R hR)⟩
  rw [hpts, h.pts r hr]

/-- The new page table is given to the process. -/
theorem Starting.adopt {k₁ k₂ : Kernel σ} (h : Starting L q k k₁ g)
    (hsub : k₁.freelist ⊆ k.freelist) (hmade : TableMade L k₁ g k₂ g')
    (hfree : root ∈ k₁.freelist) (hun : Unowned g root)
    (hsize : g'.size = Function.update g.size root (some 0))
    (hacc : ∀ R, (∀ x ∈ R, x ∉ k₁.freelist) → k₂.accounted (insert root R) = k₁.accounted R)
    {f : Proc → Proc} (hf : ∀ proc, (f proc).pagetable = some root ∧ (f proc).sz = proc.sz ∧
      (f proc).trapframe = proc.trapframe) :
    ProcStep L q k (k₂.setProc q f) ∧ ProcMade q root k (k₂.setProc q f) := by
  have hself : (k₂.setProc q f).procs q = f (k₂.procs q) := Function.update_self ..
  have hother : ∀ r ≠ q, (k₂.setProc q f).procs r = k₁.procs r := fun r hr => by
    rw [← hmade.procs]
    exact Function.update_of_ne hr _ _
  have htrap : ∀ r, ((k₂.setProc q f).procs r).trapframe = (k₂.procs r).trapframe := by
    intro r
    by_cases hr : r = q
    · rw [hr, hself, (hf _).2.2]
    · rw [hother r hr, hmade.procs]
  have hq : g'.own q = none := by rw [hmade.own, h.synced.own, h.pagetable]
  have hn : g'.size root = some 0 := by rw [hsize, Function.update_self]
  have hinv : Inv (k₂.setProc q f) { g' with own := Function.update g'.own q (some root) } :=
    (hmade.inv.adopt hq hn fun r => by rw [hmade.own]; exact hun r).congr rfl rfl rfl htrap
      (.refl _)
  have hroots : (k₂.setProc q f).roots = Function.update g'.own q (some root) := by
    funext r
    rw [roots]
    by_cases hr : r = q
    · rw [hr, hself, (hf _).1, Function.update_self]
    · rw [hother r hr, Function.update_of_ne hr, hmade.own, h.synced.own]
  have hsz : ((k₂.setProc q f).procs q).sz = 0 := by rw [hself, (hf _).2.1, hmade.procs, h.sz]
  refine ⟨⟨⟨_, hinv, fun r => (congrFun hroots r).symm, fun r root' hr => ?_,
    hmade.pend.trans h.synced.pend⟩, hmade.tables.trans h.tables, fun r hr => ?_, fun r hr => ?_,
    fun r hr w hw => ?_⟩, hsub hfree, ?_, hsz, fun R hR => ?_⟩
  · by_cases hrq : r = q
    · subst hrq
      rw [hself, (hf _).1] at hr
      obtain rfl := Option.some.inj hr
      rw [hsz]
      exact hn
    · rw [hother r hrq] at hr ⊢
      have hne : root' ≠ root := by
        rintro rfl
        exact hun r ((h.synced.own r).trans hr)
      rw [← h.synced.size r root' hr, ← Function.update_of_ne hne (some 0) g.size, ← hsize]
  · rw [hother r hr, h.procs r hr]
  · exact (hmade.pts r fun hr' => hr (hsub hr')).trans (h.pts r hr)
  · have hown : Function.update g'.own q (some root) r = g.own r := by
      rw [Function.update_of_ne hr, hmade.own]
    rw [← h.logical r w hw, ← hmade.logical r w hw, hroots]
    exact logical_congr (by rw [pte, hown]; rfl) (fun _ _ => rfl) fun _ => rfl
  · rw [hself, (hf _).1]
  · rw [← h.accounted R hR, ← hacc R fun x hx hx' => hR x hx (hsub hx')]
    exact accounted_congr rfl htrap fun _ _ => rfl

/-- **`allocproc`** makes a process of an unused one, or leaves it unused and gives every page
back. -/
theorem allocproc_spec (L : SwapLaws S) (h : k.Sound) (hq : (k.procs q).Blank) (cur : ProcIdx) :
    ∃ b k', k.allocproc cur q = .ok (b, k') ∧ ProcStep L q k k' ∧
      (b = false → (k'.procs q).Blank ∧
        ∀ R, (∀ x ∈ R, x ∉ k.freelist) → k'.accounted R = k.accounted R) ∧
      (b = true → ∃ root, ProcMade q root k k') := by
  obtain ⟨g, hinv, hs⟩ := h
  have h₁ := Starting.used (L := L) hinv hs hq
  have htf₁ : ((k.setProc q fun proc => { proc with state := .used }).procs q).trapframe =
      none := by
    simp [setProc, hq.trapframe]
  have hfree₁ : (k.setProc q fun proc => { proc with state := .used }).freelist = k.freelist := rfl
  unfold allocproc
  generalize (k.setProc q fun proc => { proc with state := .used }) = k₁ at h₁ htf₁ hfree₁ ⊢
  cases hk : k₁.kalloc with
  | mk r k₂ =>
    cases r with
    | none =>
      obtain rfl := kalloc_none hk
      obtain ⟨k', heq, hstep, hblank⟩ := h₁.giveUp
      refine ⟨false, k', ?_, hstep, fun _ => hblank, by simp⟩
      simp only [heq, ok_bind]
      rfl
    | some tf =>
      obtain ⟨hsub, g₃, h₃⟩ := h₁.addTrapframe htf₁ hk
      rw [hfree₁] at hsub
      obtain ⟨r, k₄, g₄, heq₄, hmade, hno, hyes⟩ :=
        procPagetable_spec L h₃.inv h₃.synced.own cur tf
      dsimp only
      rw [heq₄, ok_bind]
      cases r with
      | none =>
        obtain ⟨hsize, hacc⟩ := hno rfl
        obtain ⟨k', heq, hstep, hblank⟩ := (h₃.noTable hsub hmade hsize hacc).giveUp
        refine ⟨false, k', ?_, hstep, fun _ => hblank, by simp⟩
        simp only [heq, ok_bind]
        rfl
      | some root =>
        obtain ⟨hfree, hun, hsize, hacc⟩ := hyes root rfl
        obtain ⟨hstep, hproc⟩ := h₃.adopt hsub hmade hfree hun hsize hacc
          (f := fun proc =>
            { proc with
              pagetable := some root, level := 0, pageFaults := 0, pagesEvicted := 0,
              pagesSwappedIn := 0, pagesSwappedOut := 0, residentPages := 0 })
          fun _ => ⟨rfl, rfl, rfl⟩
        exact ⟨true, _, rfl, hstep, by simp, fun _ => ⟨root, hproc⟩⟩

end Kernel

end Xv6Swap.Paging
