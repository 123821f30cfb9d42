import Xv6Swap.Pages.Leaves
import Xv6Swap.Pages.Roles

/-!
# The books of the kernel

`Kernel.layout own` reads the layout off the kernel state, for page tables that belong to processes
as `own` says. The lemmas say what the functions on pages and page tables do to the books: `kalloc`
takes a page into the hand, `kfree` puts it back, `mappages` maps a page in hand, `uvmunmap` without
`do_free` has no effect, `freewalk` frees the pages of a table.
-/

namespace Xv6Swap.Paging

open Raid (Page pgSize)
open Kernel (vpn midIdx lowIdx)

/-- The layout of the kernel's pages, where `own` are the page tables of the processes. -/
def Kernel.layout {σ : Type} (k : Kernel σ) (own : ProcIdx → Option PA) : Layout where
  free := k.freelist
  trapframe p := (k.procs p).trapframe
  root := own
  tab p := (own p).elim .empty k.pts

namespace Books

variable {σ : Type} {k k' : Kernel σ} {P hand : Multiset PA} {own : ProcIdx → Option PA}
  {p q : ProcIdx} {root pa : PA} {va : ℕ}

theorem tab_of_own (k : Kernel σ) (hp : own p = some root) : (k.layout own).tab p = k.pts root := by
  simp [Kernel.layout, hp]

/-- Only the free list, the trapframes and the page tables count. -/
theorem congr (h : Books P (k.layout own) hand) (hfree : k'.freelist = k.freelist)
    (hprocs : ∀ p, (k'.procs p).trapframe = (k.procs p).trapframe) (hpts : k'.pts = k.pts) :
    Books P (k'.layout own) hand := by
  have heq : k'.layout own = k.layout own := by
    simp only [Kernel.layout, hfree, hprocs, hpts]
  rwa [heq]

theorem wf_pts (h : Books P (k.layout own) hand) (hp : own p = some root) :
    TableWf (k.pts root) := by
  have hwf := h.wf p
  rwa [tab_of_own k hp] at hwf

/-! ## The allocator -/

theorem kalloc (h : Books P (k.layout own) hand) (hk : k.kalloc = (some pa, k')) :
    Books P (k'.layout own) (pa ::ₘ hand) := by
  obtain ⟨l, hl, rfl⟩ := Kernel.kalloc_some hk
  exact h.popFree hl

theorem kalloc_fill (h : Books P (k.layout own) hand) (hk : k.kalloc = (some pa, k'))
    (b : Raid.Byte) : Books P ((k'.fill pa b).layout own) (pa ::ₘ hand) :=
  (h.kalloc hk).congr rfl (fun _ => rfl) rfl

theorem kfree (h : Books P (k.layout own) (pa ::ₘ hand)) (hk : k.kfree pa = .ok k') :
    Books P (k'.layout own) hand := by
  obtain rfl := Kernel.kfree_eq_ok hk
  exact h.pushFree

/-! ## Page tables -/

theorem layout_setPt (h : Books P (k.layout own) hand) (hp : own p = some root) (pt : PageTable) :
    (k.setPt root pt).layout own = (k.layout own).setTab p pt := by
  have htab : ((k.setPt root pt).layout own).tab = Function.update (k.layout own).tab p pt := by
    funext q
    by_cases hq : q = p
    · subst hq
      simp [Kernel.layout, hp, Kernel.setPt]
    · rw [Function.update_of_ne hq]
      cases hqo : own q with
      | none => simp [Kernel.layout, hqo]
      | some root' =>
        have hne : root' ≠ root := fun heq => hq (h.root_inj (heq ▸ hqo) hp)
        simp [Kernel.layout, hqo, Kernel.setPt, hne]
  exact congrArg (fun tab => { k.layout own with tab := tab }) htab

/-- The page of a table that `walk` allocates. -/
theorem setPt_some (h : Books P (k.layout own) (pa ::ₘ hand)) (hp : own p = some root)
    {pt : PageTable} {pl : Place} (hpt : pt.page = Function.update (k.pts root).page pl (some pa))
    (hnone : (k.pts root).page pl = none) (hwf : TableWf pt) :
    Books P ((k.setPt root pt).layout own) hand := by
  rw [layout_setPt h hp]
  rw [← tab_of_own k hp] at hpt hnone
  exact h.setTab_some hpt hnone hwf

theorem setPt_none (h : Books P (k.layout own) hand) (hp : own p = some root)
    {pt : PageTable} {pl : Place} (hpt : pt.page = Function.update (k.pts root).page pl none)
    (hsome : (k.pts root).page pl = some pa) (hwf : TableWf pt) :
    Books P ((k.setPt root pt).layout own) (pa ::ₘ hand) := by
  rw [layout_setPt h hp]
  rw [← tab_of_own k hp] at hpt hsome
  exact h.setTab_none hpt hsome hwf

theorem setPt_eq (h : Books P (k.layout own) hand) (hp : own p = some root) {pt : PageTable}
    (hpt : pt.page = (k.pts root).page) (hwf : TableWf pt) :
    Books P ((k.setPt root pt).layout own) hand := by
  rw [layout_setPt h hp]
  exact h.setTab_eq (by rwa [tab_of_own k hp]) hwf

/-- `kfree` of a page and a change of the page table that it was in. -/
theorem kfree_setPt (h : Books P (k.layout own) hand) (hp : own p = some root) {pl : Place}
    {F : PageTable → PageTable} (hpt : (F (k.pts root)).page =
      Function.update (k.pts root).page pl none)
    (hsome : (k.pts root).page pl = some pa) (hwf : TableWf (F (k.pts root)))
    {k₁ : Kernel σ} (hk : k.kfree pa = .ok k₁) :
    Books P ((k₁.setPt root (F (k₁.pts root))).layout own) hand := by
  have hcomm := Kernel.kfree_bind_setPt k pa root F
  rw [hk] at hcomm
  exact (h.setPt_none hp hpt hsome hwf).kfree hcomm.symm

/-- The place of the page of a leaf entry. -/
theorem page_user {pt : PageTable} {e : Pte} (hv : vpn va < vpn trapframeVa)
    (hleaf : pt.leaf (vpn va) = some e) : pt.page (.user ⟨vpn va, hv⟩) = some e.pa := by
  simp [PageTable.page, hleaf]

/-- An entry of user code is cleared: its page is in hand. -/
theorem setLeaf_none (h : Books P (k.layout own) hand) (hp : own p = some root) {e : Pte}
    (hv : vpn va < vpn trapframeVa) (hleaf : (k.pts root).leaf (vpn va) = some e) :
    Books P ((k.setLeaf root va none).layout own) (e.pa ::ₘ hand) :=
  h.setPt_none hp ((k.pts root).page_setLeaf hv none) (page_user hv hleaf)
    ((h.wf_pts hp).setLeaf_none _)

/-- An entry of user code is set to a page in hand. -/
theorem setLeaf_some (h : Books P (k.layout own) (pa ::ₘ hand)) (hp : own p = some root)
    (hv : vpn va < vpn trapframeVa) (hleaf : (k.pts root).leaf (vpn va) = none)
    (hlow : ((k.pts root).low (lowIdx va)).isSome) (perm : Perm) :
    Books P ((k.setLeaf root va (some ⟨pa, perm⟩)).layout own) hand := by
  have hle : vpn va ≤ vpn trampolineVa := hv.le.trans (Nat.div_le_div_right (Nat.sub_le _ _))
  refine h.setPt_some hp ((k.pts root).page_setLeaf hv (some ⟨pa, perm⟩))
    (by simp [PageTable.page, hleaf]) ((h.wf_pts hp).setLeaf_some ?_ hle _)
  rwa [← Kernel.lowIdx_eq]

/-- The entries of the trampoline and the trapframe do not count. -/
theorem setLeaf_kernel (h : Books P (k.layout own) hand) (hp : own p = some root)
    (hv : vpn trapframeVa ≤ vpn va) (hle : vpn va ≤ vpn trampolineVa)
    (hlow : ((k.pts root).low (lowIdx va)).isSome) (e : Pte) :
    Books P ((k.setLeaf root va (some e)).layout own) hand := by
  refine h.setPt_eq hp ((k.pts root).page_setLeaf_of_le hv _)
    ((h.wf_pts hp).setLeaf_some ?_ hle e)
  rwa [← Kernel.lowIdx_eq]

theorem setLeaf_kernel_none (h : Books P (k.layout own) hand) (hp : own p = some root)
    (hv : vpn trapframeVa ≤ vpn va) : Books P ((k.setLeaf root va none).layout own) hand :=
  h.setPt_eq hp ((k.pts root).page_setLeaf_of_le hv _) ((h.wf_pts hp).setLeaf_none _)

/-! ## Walking -/

theorem lowIdx_lt (hva : va < maxVa) : lowIdx va < 512 * 512 := by
  simp only [lowIdx, maxVa] at hva ⊢
  omega

theorem walkMid (h : Books P (k.layout own) hand) (hp : own p = some root) (hva : va < maxVa)
    {alloc b : Bool} (hk : k.walkMid root va alloc = (b, k')) :
    Books P (k'.layout own) hand ∧ (b = true → ((k'.pts root).mid (midIdx va)).isSome) := by
  obtain ⟨rfl, hmid⟩ | ⟨-, hmid, pg, k₁, hka, rfl⟩ := Kernel.walkMid_cases hk
  · exact ⟨h, hmid⟩
  · have hpts : k₁.pts = k.pts := Kernel.kalloc_pts hka
    have hfill : Books P ((k₁.fill pg 0).layout own) (pg ::ₘ hand) := h.kalloc_fill hka 0
    rw [← hpts] at hmid ⊢
    exact ⟨hfill.setPt_some hp ((k₁.pts root).page_setMid (Kernel.midIdx_lt hva) (some pg)) hmid
      ((hfill.wf_pts hp).setMid_some (Kernel.midIdx_lt hva) pg), fun _ => by simp [Kernel.setPt]⟩

theorem walkLow (h : Books P (k.layout own) hand) (hp : own p = some root) (hva : va < maxVa)
    (hmid : ((k.pts root).mid (midIdx va)).isSome) {alloc b : Bool}
    (hk : k.walkLow root va alloc = (b, k')) :
    Books P (k'.layout own) hand ∧ (b = true → ((k'.pts root).low (lowIdx va)).isSome) := by
  obtain ⟨rfl, hlow⟩ | ⟨-, hlow, pg, k₁, hka, rfl⟩ := Kernel.walkLow_cases hk
  · exact ⟨h, hlow⟩
  · have hpts : k₁.pts = k.pts := Kernel.kalloc_pts hka
    have hfill : Books P ((k₁.fill pg 0).layout own) (pg ::ₘ hand) := h.kalloc_fill hka 0
    rw [Kernel.midIdx_eq] at hmid
    rw [← hpts] at hlow hmid ⊢
    exact ⟨hfill.setPt_some hp ((k₁.pts root).page_setLow (lowIdx_lt hva) (some pg)) hlow
      ((hfill.wf_pts hp).setLow_some hmid pg), fun _ => by simp [Kernel.setPt]⟩

theorem walk (h : Books P (k.layout own) hand) (hp : own p = some root) {alloc b : Bool}
    (hk : k.walk root va alloc = .ok (b, k')) :
    Books P (k'.layout own) hand ∧ va < maxVa ∧
      (b = true → ((k'.pts root).low (lowIdx va)).isSome) := by
  obtain ⟨hva, ⟨rfl, hmid⟩ | ⟨k₁, hmid, hk⟩⟩ := Kernel.walk_cases hk
  · exact ⟨(h.walkMid hp hva hmid).1, hva, nofun⟩
  · obtain ⟨h₁, hmid₁⟩ := h.walkMid hp hva hmid
    obtain ⟨h₂, hlow⟩ := h₁.walkLow hp hva (hmid₁ rfl) hk
    exact ⟨h₂, hva, hlow⟩

/-! ## Mapping -/

/-- `mappages` of a page in hand for user code. -/
theorem mappages (h : Books P (k.layout own) (pa ::ₘ hand)) (hp : own p = some root)
    (hv : vpn va < vpn trapframeVa) {perm : Perm} {b : Bool}
    (hk : k.mappages root va pa perm = .ok (b, k')) :
    Books P (k'.layout own) (if b then hand else pa ::ₘ hand) := by
  obtain ⟨k₁, hwalk, ⟨rfl, rfl⟩ | ⟨rfl, hleaf, rfl⟩⟩ := Kernel.mappages_cases hk
  · exact (h.walk hp hwalk).1
  · obtain ⟨h₁, -, hlow⟩ := h.walk hp hwalk
    exact h₁.setLeaf_some hp hv hleaf (hlow rfl) perm

/-- `mappages` of the trampoline or the trapframe. -/
theorem mappages_kernel (h : Books P (k.layout own) hand) (hp : own p = some root)
    (hv : vpn trapframeVa ≤ vpn va) (hle : vpn va ≤ vpn trampolineVa) {perm : Perm} {b : Bool}
    (hk : k.mappages root va pa perm = .ok (b, k')) : Books P (k'.layout own) hand := by
  obtain ⟨k₁, hwalk, ⟨rfl, rfl⟩ | ⟨rfl, hleaf, rfl⟩⟩ := Kernel.mappages_cases hk
  · exact (h.walk hp hwalk).1
  · obtain ⟨h₁, -, hlow⟩ := h.walk hp hwalk
    exact h₁.setLeaf_kernel hp hv hle (hlow rfl) _

/-- `uvmunmap` of the trampoline or the trapframe. -/
theorem uvmunmap_kernel (h : Books P (k.layout own) hand) (hp : own p = some root) {cur : ProcIdx}
    (hv : vpn trapframeVa ≤ vpn va) (hk : k.uvmunmap cur root va 1 false = .ok k') :
    Books P (k'.layout own) hand := by
  obtain rfl | rfl := Kernel.uvmunmap_cases hk
  · exact h
  · exact h.setLeaf_kernel_none hp hv

/-! ## Freeing a page table -/

theorem update_none_of_none {α : Type*} {f : ℕ → Option α} {b : ℕ} (i : ℕ) (hb : f b = none) :
    Function.update f i none b = none := by
  rw [Function.update_apply]
  split
  · rfl
  · exact hb

theorem freewalkLowEntry (h : Books P (k.layout own) hand) (hp : own p = some root) {j : ℕ}
    (hk : k.freewalkLowEntry root j = .ok k') :
    Books P (k'.layout own) hand ∧ (k'.pts root).mid = (k.pts root).mid ∧
      (k'.pts root).low j = none ∧
      ∀ i, (k.pts root).low i = none → (k'.pts root).low i = none := by
  unfold Kernel.freewalkLowEntry at hk
  split at hk
  · rename_i hlow
    obtain rfl := Except.ok.inj hk
    exact ⟨h, rfl, hlow, fun _ hi => hi⟩
  · rename_i pg hlow
    obtain ⟨k₁, hleaves, hk⟩ := bind_eq_ok.1 hk
    obtain rfl := Except.ok.inj hk
    unfold Kernel.freewalkLeaves at hleaves
    split at hleaves
    · cases hleaves
    · rename_i hany
      have hpts : k₁.pts = k.pts := Kernel.kfree_pts hleaves
      have hleaf : ∀ v, v / 512 = j → (k.pts root).leaf v = none := by
        intro v hv
        by_contra hne
        refine hany (List.any_eq_true.2 ⟨v % 512, by simp; omega, ?_⟩)
        have hdiv : 512 * j + v % 512 = v := by omega
        rwa [hdiv, Option.isSome_iff_ne_none]
      have hwf := h.wf_pts hp
      have hj : j < 512 * 512 := hwf.low_lt (by simp [hlow])
      refine ⟨h.kfree_setPt (F := fun pt => pt.setLow j none) hp
        ((k.pts root).page_setLow hj none) hlow (hwf.setLow_none hleaf) hleaves, ?_, ?_,
        fun i hi => ?_⟩
      · simp [Kernel.setPt, hpts]
      · simp [Kernel.setPt]
      · simpa [Kernel.setPt, hpts] using update_none_of_none j hi

theorem freewalkMidEntry (h : Books P (k.layout own) hand) (hp : own p = some root) {i : ℕ}
    (hk : k.freewalkMidEntry root i = .ok k') :
    Books P (k'.layout own) hand ∧ (k'.pts root).mid i = none ∧
      ∀ j, (k.pts root).mid j = none → (k'.pts root).mid j = none := by
  unfold Kernel.freewalkMidEntry at hk
  split at hk
  · rename_i hmid
    obtain rfl := Except.ok.inj hk
    exact ⟨h, hmid, fun _ hj => hj⟩
  · rename_i pg hmid
    obtain ⟨k₁, hlow, hk⟩ := bind_eq_ok.1 hk
    obtain ⟨k₂, hfree, hk⟩ := bind_eq_ok.1 hk
    obtain rfl := Except.ok.inj hk
    obtain ⟨⟨h₁, hmid₁⟩, hnone, -⟩ := Kernel.foldlM_done
      (I := fun k₁ => Books P (k₁.layout own) hand ∧ (k₁.pts root).mid = (k.pts root).mid)
      (D := fun j k₁ => (k₁.pts root).low j = none)
      (fun j k₁ k₂ hI hk₂ => by
        obtain ⟨h₂, hmid₂, hj, hkeep⟩ := hI.1.freewalkLowEntry hp hk₂
        exact ⟨⟨h₂, hmid₂.trans hI.2⟩, hj, hkeep⟩) ⟨h, rfl⟩ hlow
    have hpts : k₂.pts = k₁.pts := Kernel.kfree_pts hfree
    have hwf := h₁.wf_pts hp
    have hi : i < 512 := (h.wf_pts hp).mid_lt i (by simp [hmid])
    have hlow' : ∀ j, j / 512 = i → (k₁.pts root).low j = none := fun j hj =>
      hnone j (List.mem_map.2 ⟨j % 512, by simp; omega, by omega⟩)
    refine ⟨h₁.kfree_setPt (F := fun pt => pt.setMid i none) hp
      ((k₁.pts root).page_setMid hi none) ((congrFun hmid₁ i).trans hmid)
      (hwf.setMid_none hlow') hfree, ?_, fun j hj => ?_⟩
    · simp [Kernel.setPt]
    · simpa [Kernel.setPt, hpts, hmid₁] using update_none_of_none i hj

/-- Without pages at the second level a page table is empty. -/
theorem page_eq_none {pt : PageTable} (hwf : TableWf pt) (hmid : ∀ i < 512, pt.mid i = none) :
    pt.page = PageTable.empty.page := by
  have hmid' : ∀ i, pt.mid i = none := fun i => by
    by_contra hne
    exact hne (hmid i (hwf.mid_lt i (Option.isSome_iff_ne_none.2 hne)))
  have hlow : ∀ j, pt.low j = none := fun j => by
    by_contra hne
    simpa [hmid'] using hwf.low_mid j (Option.isSome_iff_ne_none.2 hne)
  have hleaf : ∀ v, pt.leaf v = none := fun v => by
    by_contra hne
    simpa [hlow] using hwf.leaf_low v (Option.isSome_iff_ne_none.2 hne)
  funext pl
  cases pl with
  | mid i => exact hmid' i
  | low j => exact hlow j
  | user v => simp [PageTable.page, hleaf, PageTable.empty]

/-- The process `p` has no page table any more. -/
theorem layout_disown (k : Kernel σ) (own : ProcIdx → Option PA) (p : ProcIdx) :
    k.layout (Function.update own p none) =
      ((k.layout own).setTab p .empty).setRoot p none := by
  have htab : (k.layout (Function.update own p none)).tab =
      Function.update (k.layout own).tab p .empty := by
    funext q
    by_cases hq : q = p
    · subst hq
      simp [Kernel.layout]
    · simp [Kernel.layout, hq]
  exact congrArg (fun tab => { k.layout (Function.update own p none) with tab := tab }) htab

/-- `freewalk` frees all pages of a page table. -/
theorem freewalk (h : Books P (k.layout own) hand) (hp : own p = some root)
    (hk : k.freewalk root = .ok k') : Books P (k'.layout (Function.update own p none)) hand := by
  obtain ⟨k₁, hmid, hk⟩ := bind_eq_ok.1 hk
  obtain ⟨h₁, hnone, -⟩ := Kernel.foldlM_done (I := fun k₁ => Books P (k₁.layout own) hand)
    (D := fun i k₁ => (k₁.pts root).mid i = none)
    (fun i k₁ k₂ hI hk₂ => hI.freewalkMidEntry hp hk₂) h hmid
  have hpage : PageTable.empty.page = (k₁.pts root).page :=
    (page_eq_none (h₁.wf_pts hp) fun i hi => hnone i (List.mem_range.2 hi)).symm
  have hempty : Books P ((k₁.layout own).setTab p .empty) hand :=
    h₁.setTab_eq (by rwa [tab_of_own k₁ hp]) tableWf_empty
  have h₂ : Books P (k₁.layout (Function.update own p none)) (root ::ₘ hand) := by
    rw [layout_disown]
    exact hempty.setRoot_none hp
  exact h₂.kfree hk

end Books

end Xv6Swap.Paging
