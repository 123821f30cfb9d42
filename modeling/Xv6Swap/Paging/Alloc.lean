import Xv6Swap.Paging.Entries

/-!
# Allocation keeps the pages

The paging invariant through the allocator and the page tables, each function by one specification:
`kalloc_spec`, `kfree_spec`, `walk_spec`, `mappages_spec`. None of them changes the contents of any
process's page (`Quiet`).
-/

namespace Xv6Swap.Paging

open Raid (Page pgSize)

/-- The fields of a process other than its level and its counters. -/
structure ProcCore where
  state : ProcState
  sz : ℕ
  pagetable : Option PA
  trapframe : Option PA
  xstate : BitVec 32

def Proc.core (p : Proc) : ProcCore := ⟨p.state, p.sz, p.pagetable, p.trapframe, p.xstate⟩

namespace Kernel

open Tables

@[simp] theorem vpn_mul (v : ℕ) : vpn (v * pgSize) = v := Nat.mul_div_cancel v pgSize_pos

variable {σ : Type} {S : SwapOps σ} {L : SwapLaws S} {k k' : Kernel σ} {g g' : Ghost}
  {own : ProcIdx → Option PA} {root pa : PA} {n v : ℕ} {p : ProcIdx}

/-! ## Elementary changes -/

theorem pte_setPt (k : Kernel σ) (own : ProcIdx → Option PA) (root : PA) (pt : PageTable)
    (p : ProcIdx) (v : ℕ) :
    (k.setPt root pt).pte own p v = if own p = some root then pt.leaf v else k.pte own p v := by
  cases ho : own p with
  | none => simp [pte, ho]
  | some r =>
    by_cases hr : r = root
    · simp [pte, setPt, ho, hr]
    · simp [pte, setPt, ho, hr]

theorem pte_of_own (ho : own p = some root) : k.pte own p v = (k.pts root).leaf v := by
  simp [pte, ho]

theorem Inv.pte_setLeaf_self (ho : g.own p = some root) {e : Option Pte} :
    (k.setLeaf root (v * pgSize) e).pte g.own p v = e := by
  simp [setLeaf, pte_setPt, ho]

theorem Inv.pte_setLeaf_other (h : Inv k g) (ho : g.own p = some root) {e : Option Pte}
    {q : ProcIdx} {w : ℕ} (hqw : (q, w) ≠ (p, v)) :
    (k.setLeaf root (v * pgSize) e).pte g.own q w = k.pte g.own q w := by
  rw [setLeaf, pte_setPt]
  split
  · rename_i hq
    obtain rfl := h.own_inj p q root ho hq
    have hw : w ≠ v := fun e => hqw (e ▸ rfl)
    simp [hw, pte_of_own hq]
  · rfl

/-- The invariant does not depend on the contents of pages, on swap, on the counters of the
processes or on reference bits. -/
theorem Inv.congr (h : Inv k g) (hfree : k'.freelist = k.freelist)
    (hend : k'.kernEnd = k.kernEnd) (hpts : k'.pts = k.pts)
    (htrap : ∀ p, (k'.procs p).trapframe = (k.procs p).trapframe)
    (ht : SameEntries k.tables k'.tables) : Inv k' g where
  pages := by rw [hfree, hend]; exact h.pages
  pt := by rw [hpts]; exact h.pt
  own_size := h.own_size
  own_inj := h.own_inj
  trapframe p pa hp := h.trapframe p pa (htrap p ▸ hp)
  tables := by
    have hpte : k'.pte g.own = k.pte g.own := by
      funext p v
      simp [pte, hpts]
    rw [hpte]
    exact h.tables.same ht

theorem Inv.set_tables (h : Inv k g) (t : Tables) (pend : Option (ProcIdx × ℕ))
    (ht : TablesOk t g.np (k.pte g.own) pend) :
    Inv { k with tables := t } { g with pend := pend } :=
  ⟨h.pages, h.pt, h.own_size, h.own_inj, h.trapframe, ht⟩

/-- A page off the free list is held. -/
theorem Inv.take (h : Inv k g) {l : List PA} (hf : k.freelist = pa :: l) :
    g.use pa = .free ∧ Inv { k with freelist := l } (g.setUse pa .held) := by
  have hpages := h.pages
  rw [hf] at hpages
  have hfree : g.use pa = .free := hpages.free_use pa (List.mem_cons_self ..)
  obtain ⟨hnot, hnodup⟩ := List.nodup_cons.1 hpages.nodup
  refine ⟨hfree, ?_, fun root n hn => (h.pt root n hn).update_spare (.inl hfree) _, h.own_size,
    h.own_inj, fun p pa' hp => ?_, h.tables⟩
  · refine ⟨fun pa' hpa' => ?_, hnodup, fun pa' hpa' => ?_⟩
    · have hne : pa' ≠ pa := fun e => hnot (e ▸ hpa')
      simpa [Ghost.setUse, hne] using hpages.free_use pa' (List.mem_cons_of_mem _ hpa')
    · by_cases hne : pa' = pa
      · exact hpages.managed pa' (by simp [hne, hfree])
      · exact hpages.managed pa' (by simpa [Ghost.setUse, hne] using hpa')
  · have hne : pa' ≠ pa := by
      rintro rfl
      simp [h.trapframe p pa' hp] at hfree
    simpa [Ghost.setUse, hne] using h.trapframe p pa' hp

/-- A held page goes on the free list. -/
theorem Inv.give (h : Inv k g) (hheld : g.use pa = .held) :
    Inv { k with freelist := pa :: k.freelist } (g.setUse pa .free) := by
  have hnot : ∀ pa' ∈ k.freelist, pa' ≠ pa := by
    rintro pa' hpa' rfl
    simp [h.pages.free_use pa' hpa'] at hheld
  refine ⟨?_, fun root n hn => (h.pt root n hn).update_spare (.inr hheld) _, h.own_size,
    h.own_inj, fun p pa' hp => ?_, h.tables⟩
  · refine ⟨fun pa' hpa' => ?_, List.nodup_cons.2 ⟨fun e => hnot pa e rfl, h.pages.nodup⟩,
      fun pa' hpa' => ?_⟩
    · rcases List.mem_cons.1 hpa' with rfl | hpa'
      · simp [Ghost.setUse]
      · simpa [Ghost.setUse, hnot pa' hpa'] using h.pages.free_use pa' hpa'
    · by_cases hne : pa' = pa
      · exact h.pages.managed pa' (by simp [hne, hheld])
      · exact h.pages.managed pa' (by simpa [Ghost.setUse, hne] using hpa')
  · have hne : pa' ≠ pa := by
      rintro rfl
      simp [h.trapframe p pa' hp] at hheld
    simpa [Ghost.setUse, hne] using h.trapframe p pa' hp

/-- A page table changes, and the tables with it. -/
theorem Inv.change_leaf (h : Inv k g) (hn : g.size root = some n) {pt : PageTable} (t : Tables)
    (pend : Option (ProcIdx × ℕ)) (hpt : PtOk pt g.use root n)
    (ht : TablesOk t g.np ((k.setPt root pt).pte g.own) pend) :
    Inv { k.setPt root pt with tables := t } { g with pend := pend } := by
  refine ⟨h.pages, fun r m hm => ?_, h.own_size, h.own_inj, h.trapframe, ht⟩
  by_cases hr : r = root
  · subst hr
    obtain rfl : n = m := Option.some.inj (hn.symm.trans hm)
    simpa [setPt] using hpt
  · simpa [setPt, hr] using h.pt r m hm

/-- A page that is in use by a page table, or held, is put to another use. -/
theorem Inv.relabel (h : Inv k g) (hpa : g.use pa = .held ∨ (g.use pa).table.isSome) (u : Use)
    (hpt : ∀ root n, g.size root = some n → PtOk (k.pts root) (Function.update g.use pa u) root n) :
    Inv k (g.setUse pa u) := by
  have hne : ∀ pa', (g.use pa' = .free ∨ ∃ p, g.use pa' = .trapframe p) → pa' ≠ pa := by
    rintro pa' hpa' rfl
    rcases hpa' with hpa' | ⟨p, hpa'⟩ <;> simp [hpa', Use.table] at hpa
  refine ⟨⟨fun pa' hpa' => ?_, h.pages.nodup, fun pa' hpa' => h.pages.managed pa' ?_⟩, hpt,
    h.own_size, h.own_inj, fun p pa' hp => ?_, h.tables⟩
  · have hfree := h.pages.free_use pa' hpa'
    rw [Ghost.setUse_use_of_ne _ _ (hne pa' (.inl hfree)), hfree]
  · by_cases hpa'' : pa' = pa
    · rintro hk
      rw [hpa''] at hk
      simp [hk, Use.table] at hpa
    · rwa [Ghost.setUse_use_of_ne _ _ hpa''] at hpa'
  · have htrap := h.trapframe p pa' hp
    rw [Ghost.setUse_use_of_ne _ _ (hne pa' (.inr ⟨p, htrap⟩)), htrap]

/-- A held page becomes part of a page table, which changes along with it. -/
theorem Inv.change_pt (h : Inv k g) (hn : g.size root = some n) {pt : PageTable} (u : Use)
    (t : Tables) (pend : Option (ProcIdx × ℕ)) (hpa : g.use pa = .held)
    (hpt : PtOk pt (Function.update g.use pa u) root n)
    (ht : TablesOk t g.np ((k.setPt root pt).pte g.own) pend) :
    Inv { k.setPt root pt with tables := t } { g.setUse pa u with pend := pend } :=
  (h.relabel (.inl hpa) u fun r m hm => (h.pt r m hm).update_spare (.inr hpa) u).change_leaf hn t
    pend hpt ht

/-- A user page is unmapped and held. -/
theorem Inv.unmap_leaf (h : Inv k g) (hn : g.size root = some n) {e : Pte}
    (hu : g.use e.pa = .user root v) (t : Tables) (pend : Option (ProcIdx × ℕ))
    (ht : TablesOk t g.np ((k.setLeaf root (v * pgSize) none).pte g.own) pend) :
    Inv { k.setLeaf root (v * pgSize) none with tables := t }
      { g.setUse e.pa .held with pend := pend } := by
  rw [setLeaf, vpn_mul] at ht ⊢
  have hclear := h.change_leaf hn t pend ((h.pt root n hn).clear_leaf v) ht
  refine hclear.relabel (.inr (by simp [hu, Use.table])) .held fun r m hm => ?_
  by_cases hr : r = root
  · subst hr
    exact (hclear.pt r m hm).update_user hu (by simp [setPt]) _
  · exact (hclear.pt r m hm).update_other (congrArg Use.table hu) (Ne.symm hr) _

/-- A mapped user page. -/
theorem Inv.pte_user (h : Inv k g) {e : Pte} (he : k.pte g.own p v = some e)
    (hv : v < vpn trapframeVa) :
    ∃ root, g.own p = some root ∧ (k.pts root).leaf v = some e ∧ v < g.np p ∧
      g.use e.pa = .user root v := by
  cases ho : g.own p with
  | none => simp [pte, ho] at he
  | some root =>
    obtain ⟨n, hn⟩ := Option.isSome_iff_exists.1 (h.own_size p root ho)
    rw [pte_of_own ho] at he
    obtain ⟨hlt, hu⟩ := (h.pt root n hn).leaf_user he hv
    exact ⟨root, rfl, he, by rw [Ghost.np_of_own ho hn]; exact hlt, hu⟩

/-- The pages of a process are below the trapframe. -/
theorem Inv.np_le (h : Inv k g) (p : ProcIdx) : g.np p ≤ vpn trapframeVa := by
  by_cases h0 : 0 < g.np p
  · obtain ⟨root, -, hn⟩ := Ghost.own_of_lt_np h0
    exact (h.pt root _ hn).bound
  · omega

/-! ## Changes that no process can see -/

/-- The sizes, the states and the contents of all processes' pages stay, held pages stay held, no
page becomes mapped, and the swap map gains entries only for pages that were mapped. -/
structure Quiet (L : SwapLaws S) (k : Kernel σ) (g : Ghost) (k' : Kernel σ) (g' : Ghost) :
    Prop where
  size : g'.size = g.size
  own : g'.own = g.own
  core : ∀ p, (k'.procs p).core = (k.procs p).core
  held : ∀ pa, g.use pa = .held → g'.use pa = .held ∧ k'.mem pa = k.mem pa
  pte : ∀ p v, k.pte g.own p v = none → k'.pte g.own p v = none
  swap_keep : ∀ i, (k.tables.swapMap i).used = true →
    k'.tables.swapMap i = k.tables.swapMap i
  swap_new : ∀ i p v, (k'.tables.swapMap i).Holds p (v * pgSize) →
    (k.tables.swapMap i).Holds p (v * pgSize) ∨ k.pte g.own p v ≠ none
  logical : ∀ p v, v < vpn trapframeVa → k'.logical L g.own p v = k.logical L g.own p v

theorem Quiet.refl (L : SwapLaws S) (k : Kernel σ) (g : Ghost) : Quiet L k g k g :=
  ⟨rfl, rfl, fun _ => rfl, fun _ h => ⟨h, rfl⟩, fun _ _ h => h, fun _ _ => rfl,
    fun _ _ _ h => .inl h, fun _ _ _ => rfl⟩

theorem Quiet.trans {k'' : Kernel σ} {g'' : Ghost} (h : Quiet L k g k' g')
    (h' : Quiet L k' g' k'' g'') : Quiet L k g k'' g'' where
  size := h'.size.trans h.size
  own := h'.own.trans h.own
  core p := (h'.core p).trans (h.core p)
  held pa hpa := by
    obtain ⟨hheld, hmem⟩ := h.held pa hpa
    obtain ⟨hheld', hmem'⟩ := h'.held pa hheld
    exact ⟨hheld', hmem'.trans hmem⟩
  pte p v hpte := by
    have := h'.pte p v
    rw [h.own] at this
    exact this (h.pte p v hpte)
  swap_keep i hi := by
    rw [h'.swap_keep i (by rw [h.swap_keep i hi]; exact hi), h.swap_keep i hi]
  swap_new i p v hi := by
    rcases h'.swap_new i p v hi with hi' | hpte
    · exact h.swap_new i p v hi'
    · rw [h.own] at hpte
      exact .inr fun hnone => hpte (h.pte p v hnone)
  logical p v hv := by
    have := h'.logical p v hv
    rw [h.own] at this
    rw [this, h.logical p v hv]

/-- A page that was not held at the beginning may end in any use. -/
theorem Quiet.setUse (h : Quiet L k g k' g') (pa : PA) (hpa : g.use pa ≠ .held) (u : Use) :
    Quiet L k g k' (g'.setUse pa u) :=
  { h with
    held := fun pa' hpa' => by
      have hne : pa' ≠ pa := by
        rintro rfl
        exact hpa hpa'
      simpa [Ghost.setUse, hne] using h.held pa' hpa' }

theorem logical_congr {own' : ProcIdx → Option PA} (hpte : k'.pte own' p v = k.pte own p v)
    (hmem : ∀ e, k.pte own p v = some e → k'.mem e.pa = k.mem e.pa)
    (hswap : k.pte own p v = none → k'.swapPage L p v = k.swapPage L p v) :
    k'.logical L own' p v = k.logical L own p v := by
  unfold logical
  rw [hpte]
  cases he : k.pte own p v with
  | none => simp [hswap he]
  | some e => exact hmem e he

/-- A step that leaves mappings, swap and the contents of user pages alone. -/
theorem Inv.quiet (h : Inv k g) (hsize : g'.size = g.size) (hown : g'.own = g.own)
    (hcore : ∀ p, (k'.procs p).core = (k.procs p).core)
    (hleaf : ∀ r, (k'.pts r).leaf = (k.pts r).leaf)
    (hmap : k'.tables.swapMap = k.tables.swapMap) (hview : L.view k'.swap = L.view k.swap)
    (hmem : ∀ pa r v, g.use pa = .user r v → k'.mem pa = k.mem pa)
    (hheld : ∀ pa, g.use pa = .held → g'.use pa = .held ∧ k'.mem pa = k.mem pa) :
    Quiet L k g k' g' := by
  have hpte : ∀ p v, k'.pte g.own p v = k.pte g.own p v := by
    intro p v
    simp [Kernel.pte, hleaf]
  refine ⟨hsize, hown, hcore, hheld, fun p v hv => (hpte p v).trans hv, fun i _ => by rw [hmap],
    fun i p v hi => .inl (hmap ▸ hi), fun p v hv => logical_congr (hpte p v) (fun e he => ?_) ?_⟩
  · obtain ⟨root, -, -, -, hu⟩ := h.pte_user he hv
    exact hmem e.pa root v hu
  · intro _
    simp [swapPage, findSwap, hmap, hview]

/-! ## The allocator and page tables -/

@[simp] theorem fill_fill (k : Kernel σ) (pa : PA) (b b' : Raid.Byte) :
    (k.fill pa b).fill pa b' = k.fill pa b' := by
  simp [fill]

/-- A page is taken off the free list and filled. -/
theorem Inv.take_fill (h : Inv k g) {l : List PA} (hf : k.freelist = pa :: l) (b : Raid.Byte) :
    g.use pa = .free ∧ Inv (({ k with freelist := l } : Kernel σ).fill pa b) (g.setUse pa .held) ∧
      Quiet L k g (({ k with freelist := l } : Kernel σ).fill pa b) (g.setUse pa .held) := by
  obtain ⟨hfree, hinv⟩ := h.take hf
  have hne : ∀ pa', g.use pa' ≠ .free → pa' ≠ pa := by
    rintro pa' hpa' rfl
    exact hpa' hfree
  refine ⟨hfree, hinv.congr rfl rfl rfl (fun _ => rfl) (.refl _), h.quiet rfl rfl (fun _ => rfl)
    (fun _ => rfl) rfl rfl (fun pa' r v hu => ?_) fun pa' hu => ?_⟩
  · simp [fill, hne pa' (by simp [hu])]
  · have := hne pa' (by simp [hu])
    exact ⟨by simpa [Ghost.setUse, this] using hu, by simp [fill, this]⟩

theorem kalloc_spec (h : Inv k g) (hk : k.kalloc = (some pa, k')) (b : Raid.Byte) :
    g.use pa = .free ∧ Inv (k'.fill pa b) (g.setUse pa .held) ∧
      Quiet L k g (k'.fill pa b) (g.setUse pa .held) ∧ k'.pts = k.pts ∧
      k'.tables = k.tables := by
  obtain ⟨l, hf, rfl⟩ := kalloc_some hk
  rw [fill_fill]
  obtain ⟨hfree, hinv, hquiet⟩ := h.take_fill (L := L) hf b
  exact ⟨hfree, hinv, hquiet, rfl, rfl⟩

theorem kfree_spec (h : Inv k g) (hheld : g.use pa = .held) :
    ∃ k', k.kfree pa = .ok k' ∧ Inv k' (g.setUse pa .free) ∧
      Quiet L k (g.setUse pa .free) k' (g.setUse pa .free) ∧ k'.pts = k.pts ∧
      k'.tables = k.tables ∧ k'.procs = k.procs := by
  obtain ⟨halign, hlo, hhi⟩ := h.pages.managed pa (by simp [hheld])
  refine ⟨{ k.fill pa 1 with freelist := pa :: k.freelist }, ?_, ?_, ?_, rfl, rfl, rfl⟩
  · rw [kfree, if_neg]
    rintro (h1 | h2 | h3)
    · exact h1 halign
    · exact absurd hlo (Nat.not_le.2 h2)
    · exact absurd hhi (Nat.not_lt.2 h3)
  · exact (h.give hheld).congr rfl rfl rfl (fun _ => rfl) (.refl _)
  · refine ⟨rfl, rfl, fun _ => rfl, fun pa' hpa' => ⟨hpa', ?_⟩, fun _ _ hv => hv, fun _ _ => rfl,
      fun _ _ _ hi => .inl hi, fun p v hv => logical_congr rfl (fun e he => ?_) fun _ => rfl⟩
    · have hne : pa' ≠ pa := by
        rintro rfl
        simp [Ghost.setUse] at hpa'
      simp [fill, hne]
    · obtain ⟨root, -, -, -, hu⟩ := h.pte_user he hv
      have hne : e.pa ≠ pa := fun e' => by simp [e', hheld] at hu
      simp [fill, hne]

/-- A new page-table page. -/
theorem Inv.add_table (h : Inv k g) (hn : g.size root = some n) (hk : k.kalloc = (some pa, k'))
    (u : Use) (pt : PageTable) (hpt : ∀ use, use pa = u → PtOk (k.pts root) use root n →
      PtOk pt use root n) (hleaf : pt.leaf = (k.pts root).leaf) :
    Inv ((k'.fill pa 0).setPt root pt) (g.setUse pa u) ∧
      Quiet L k g ((k'.fill pa 0).setPt root pt) (g.setUse pa u) := by
  obtain ⟨hfree, hinv, hquiet, hpts, htables⟩ := kalloc_spec (L := L) h hk 0
  have hleaf' : ∀ r, (((k'.fill pa 0).setPt root pt).pts r).leaf = ((k'.fill pa 0).pts r).leaf := by
    intro r
    by_cases hr : r = root
    · subst hr
      simp [setPt, fill, hleaf, hpts]
    · simp [setPt, hr]
  constructor
  · have hpt' : PtOk pt (Function.update (g.setUse pa .held).use pa u) root n := by
      have hidem : Function.update (g.setUse pa .held).use pa u = Function.update g.use pa u := by
        simp [Ghost.setUse]
      rw [hidem]
      exact hpt _ (by simp) ((h.pt root n hn).update_spare (.inl hfree) u)
    have hpte : ((k'.fill pa 0).setPt root pt).pte g.own = (k'.fill pa 0).pte g.own := by
      funext p v
      simp only [Kernel.pte, hleaf']
    have := hinv.change_pt hn u k'.tables g.pend (by simp) hpt' (hpte ▸ hinv.tables)
    simp only [Ghost.setUse_setUse] at this
    exact this
  · have hstep : Quiet L (k'.fill pa 0) (g.setUse pa .held) ((k'.fill pa 0).setPt root pt)
        (g.setUse pa .held) :=
      hinv.quiet rfl rfl (fun _ => rfl) hleaf' rfl rfl (fun _ _ _ _ => rfl) fun _ hpa => ⟨hpa, rfl⟩
    simpa using (hquiet.trans hstep).setUse pa (by simp [hfree]) u

theorem lowIdx_eq (va : ℕ) : lowIdx va = vpn va / 512 := by
  simp only [lowIdx, vpn, pgSize]
  omega

theorem midIdx_eq (va : ℕ) : midIdx va = lowIdx va / 512 := by
  simp only [midIdx, lowIdx]
  omega

theorem midIdx_lt {va : ℕ} (hva : va < maxVa) : midIdx va < 512 := by
  simp only [midIdx, maxVa] at hva ⊢
  omega

theorem walkMid_spec (h : Inv k g) (hn : g.size root = some n) {va : ℕ} (hva : va < maxVa) :
    ∃ b k' g', k.walkMid root va true = (b, k') ∧ Inv k' g' ∧ Quiet L k g k' g' ∧
      g'.pend = g.pend ∧ (∀ r, (k'.pts r).leaf = (k.pts r).leaf) ∧ k'.tables = k.tables ∧
      (b = true → ((k'.pts root).mid (midIdx va)).isSome) := by
  unfold walkMid
  cases hm : (k.pts root).mid (midIdx va) with
  | some pg => exact ⟨true, k, g, rfl, h, .refl L k g, rfl, fun _ => rfl, rfl, by simp [hm]⟩
  | none =>
    cases hk : k.kalloc with
    | mk r k' =>
      cases r with
      | none =>
        obtain rfl := kalloc_none hk
        exact ⟨false, k', g, rfl, h, .refl L k' g, rfl, fun _ => rfl, rfl, by simp⟩
      | some pa =>
        obtain ⟨l, -, rfl⟩ := kalloc_some hk
        obtain ⟨hinv, hquiet⟩ := h.add_table (L := L) hn hk (.mid root (midIdx va))
          { k.pts root with mid := Function.update (k.pts root).mid (midIdx va) (some pa) }
          (fun use hu hpt => hpt.set_mid (midIdx_lt hva) hu) rfl
        refine ⟨true, _, _, rfl, hinv, hquiet, rfl, fun r => ?_, rfl, fun _ => by
          simp [setPt, fill]⟩
        by_cases hr : r = root
        · simp [setPt, fill, hr]
        · simp [setPt, fill, hr]

theorem walkLow_spec (h : Inv k g) (hn : g.size root = some n) (va : ℕ)
    (hmid : ((k.pts root).mid (midIdx va)).isSome) :
    ∃ b k' g', k.walkLow root va true = (b, k') ∧ Inv k' g' ∧ Quiet L k g k' g' ∧
      g'.pend = g.pend ∧ (∀ r, (k'.pts r).leaf = (k.pts r).leaf) ∧ k'.tables = k.tables ∧
      (b = true → ((k'.pts root).low (lowIdx va)).isSome) := by
  unfold walkLow
  cases hm : (k.pts root).low (lowIdx va) with
  | some pg => exact ⟨true, k, g, rfl, h, .refl L k g, rfl, fun _ => rfl, rfl, by simp [hm]⟩
  | none =>
    cases hk : k.kalloc with
    | mk r k' =>
      cases r with
      | none =>
        obtain rfl := kalloc_none hk
        exact ⟨false, k', g, rfl, h, .refl L k' g, rfl, fun _ => rfl, rfl, by simp⟩
      | some pa =>
        obtain ⟨l, -, rfl⟩ := kalloc_some hk
        obtain ⟨hinv, hquiet⟩ := h.add_table (L := L) hn hk (.low root (lowIdx va))
          { k.pts root with low := Function.update (k.pts root).low (lowIdx va) (some pa) }
          (fun use hu hpt => hpt.set_low (midIdx_eq va ▸ hmid) hu) rfl
        refine ⟨true, _, _, rfl, hinv, hquiet, rfl, fun r => ?_, rfl, fun _ => by
          simp [setPt, fill]⟩
        by_cases hr : r = root
        · simp [setPt, fill, hr]
        · simp [setPt, fill, hr]

/-- `walk` with allocation. -/
theorem walk_spec (h : Inv k g) (hn : g.size root = some n) {va : ℕ} (hva : va < maxVa) :
    ∃ b k' g', k.walk root va true = .ok (b, k') ∧ Inv k' g' ∧ Quiet L k g k' g' ∧
      g'.pend = g.pend ∧ (∀ r, (k'.pts r).leaf = (k.pts r).leaf) ∧ k'.tables = k.tables ∧
      (b = true → ((k'.pts root).low (lowIdx va)).isSome) := by
  rw [walk, if_neg (by omega)]
  obtain ⟨b, k₁, g₁, heq, hinv, hquiet, hpend, hleaf, ht, hmid⟩ := walkMid_spec (L := L) h hn hva
  rw [heq]
  cases b with
  | false => exact ⟨false, k₁, g₁, rfl, hinv, hquiet, hpend, hleaf, ht, by simp⟩
  | true =>
    obtain ⟨b, k₂, g₂, heq₂, hinv₂, hquiet₂, hpend₂, hleaf₂, ht₂, hlow⟩ :=
      walkLow_spec (L := L) hinv (hquiet.size ▸ hn) va (hmid rfl)
    exact ⟨b, k₂, g₂, by simp only [heq₂], hinv₂, hquiet.trans hquiet₂, hpend₂.trans hpend,
      fun r => (hleaf₂ r).trans (hleaf r), ht₂.trans ht, hlow⟩

/-- The entry that `walk` without allocation leads to is the leaf. -/
theorem Inv.pteAt_vpn (h : Inv k g) (hn : g.size root = some n) (va : ℕ) :
    k.pteAt root va = (k.pts root).leaf (vpn va) := by
  unfold pteAt
  rw [midIdx_eq, lowIdx_eq]
  have hpt := h.pt root n hn
  split
  · rfl
  · rename_i hnot
    cases hl : (k.pts root).leaf (vpn va) with
    | none => rfl
    | some e =>
      have hlow := hpt.leaf_low (vpn va) e hl
      obtain ⟨pg, hpg⟩ := Option.isSome_iff_exists.1 hlow
      exact absurd ⟨hpt.low_mid _ pg hpg, hlow⟩ hnot

theorem Inv.pteAt_eq (h : Inv k g) (hn : g.size root = some n) (v : ℕ) :
    k.pteAt root (v * pgSize) = (k.pts root).leaf v := by
  rw [h.pteAt_vpn hn, vpn_mul]

/-- Mapping a page at an address that was not mapped: either there was no memory for the page table,
or all that remains is to set the leaf. -/
theorem mappages_walk_spec (h : Inv k g) (hn : g.size root = some n) (hva : v * pgSize < maxVa)
    (hnone : (k.pts root).leaf v = none) (pa : PA) (perm : Perm) :
    ∃ k' g', Inv k' g' ∧ Quiet L k g k' g' ∧ g'.pend = g.pend ∧ k'.tables = k.tables ∧
      (∀ r, (k'.pts r).leaf = (k.pts r).leaf) ∧
      (k.mappages root (v * pgSize) pa perm = .ok (false, k') ∨
        ((k'.pts root).low (v / 512)).isSome ∧
        k.mappages root (v * pgSize) pa perm =
          .ok (true, k'.setLeaf root (v * pgSize) (some ⟨pa, perm⟩))) := by
  obtain ⟨b, k', g', heq, hinv, hquiet, hpend, hleaf, ht, hlow⟩ := walk_spec (L := L) h hn hva
  refine ⟨k', g', hinv, hquiet, hpend, ht, hleaf, ?_⟩
  rw [mappages, if_neg (by simp), heq]
  cases b with
  | false => exact .inl rfl
  | true =>
    refine .inr ⟨by simpa [lowIdx_eq] using hlow rfl, ?_⟩
    simp [hleaf, hnone, bind, Except.bind, pure, Except.pure]

/-- Mapping a held page that was not mapped. -/
theorem mappages_spec (h : Inv k g) (hn : g.size root = some n) (hv : v < n)
    (hnone : (k.pts root).leaf v = none) (pa : PA) (perm : Perm) :
    ∃ k' g', Inv k' g' ∧ Quiet L k g k' g' ∧ g'.pend = g.pend ∧ k'.tables = k.tables ∧
      (∀ r, (k'.pts r).leaf = (k.pts r).leaf) ∧
      (k.mappages root (v * pgSize) pa perm = .ok (false, k') ∨
        ((k'.pts root).low (v / 512)).isSome ∧
        k.mappages root (v * pgSize) pa perm =
          .ok (true, k'.setLeaf root (v * pgSize) (some ⟨pa, perm⟩))) := by
  refine mappages_walk_spec h hn ?_ hnone pa perm
  have := (h.pt root n hn).bound
  simp only [vpn, trapframeVa, trampolineVa, maxVa, pgSize] at this ⊢
  omega

end Kernel

end Xv6Swap.Paging
