import Xv6Swap.Paging.Copy
import Xv6Swap.Paging.Reap
import Xv6Swap.Paging.Create
import Xv6Swap.Paging.Rollback

/-!
# A failing `fork` leaves no trace

`kfork` can fail in `allocproc`, for lack of a process, a trapframe or a page table, and at every
page of `uvmcopy`. `uvmcopy` then unmaps the pages it has copied to the child (`Forking.unmapLoop`);
the child's entries of the swap map are left to `freeproc`, which frees a page table without pages,
since the size of the child was never set (`Forking.freeproc`).

`kfork_no_trace`: `kfork` returns, and if it fails, the frame table, the swap map, the processes,
their page tables and pages, and the set of free pages are as before.
-/

namespace Xv6Swap.Paging.Kernel

open Raid (Page pgSize)
open Tables

variable {σ : Type} {S : SwapOps σ} {L : SwapLaws S} {k₀ k k' : Kernel σ} {g g' : Ghost}
  {p q cur : ProcIdx} {root old new pa : PA} {N i v : ℕ}

/-! ## The pages of the child -/

/-- A resident page of the child is unmapped. It has no entry in the frame table, and the entries of
the swap map are left alone, as the page table is not the current process's. -/
theorem Forking.unmapPage (h : Forking L k₀ q new N k g) (hv : v < N) :
    ∃ k' g', k.unmapPage none new true (v * pgSize) = .ok k' ∧ Forking L k₀ q new N k' g' ∧
      (k'.pts new).leaf = Function.update (k.pts new).leaf v none := by
  have hit : v < vpn trapframeVa := hv.trans_le h.bound
  have hown : g.own q = some new := h.own ▸ h.child
  simp only [Kernel.unmapPage, if_neg (mul_pgSize_lt_maxVa hit), h.inv.pteAt_eq h.size v]
  cases hl : (k.pts new).leaf v with
  | none =>
    refine ⟨k, g, rfl, h, ?_⟩
    rw [← hl, Function.update_eq_self]
  | some e =>
    obtain ⟨-, hu⟩ := (h.inv.pt new N h.size).leaf_user hl hit
    have hother : ∀ r w, (r, w) ≠ (q, v) →
        (k.setLeaf new (v * pgSize) none).pte g.own r w = k.pte g.own r w :=
      fun r w hrw => h.inv.pte_setLeaf_other hown hrw
    have ht : TablesOk k.tables g.np ((k.setLeaf new (v * pgSize) none).pte g.own) none := by
      have ht := h.inv.tables
      rw [h.pend] at ht
      refine ht.congr (fun i r w hi hw => ⟨hw, hother r w fun hrw => ?_⟩)
        fun i r w hi hw => ⟨hw, hother r w fun hrw => ?_⟩
      · obtain ⟨rfl, rfl⟩ := Prod.mk.inj hrw
        exact h.noFrame i _ hi
      · obtain ⟨rfl, rfl⟩ := Prod.mk.inj hrw
        have hnone := (ht.swap_pte hi).2
        rw [pte_of_own hown, hl] at hnone
        cases hnone
    obtain ⟨k', heq, hinv, hq, hpts, htab, hprocs⟩ := kfree_spec (L := L)
      (h.inv.unmap_leaf h.size hu k.tables none ht) (g.setUse_use_self e.pa .held)
    simp only [if_true, h.inv.tables.freeFrame_none]
    have hleaf : (k'.pts new).leaf = Function.update (k.pts new).leaf v none := by
      rw [hpts]
      simp [setLeaf, setPt]
    refine ⟨k', _, by rw [kfree_bind_setLeaf]; exact heq,
      { inv := hinv
        pend := rfl
        own := h.own
        child := h.child
        size := h.size
        size_other := h.size_other
        core := fun r => by rw [hprocs]; exact h.core r
        pte := fun r hr w => ?_
        frameTable := htab ▸ h.frameTable
        count := htab ▸ h.count
        noFrame := htab ▸ h.noFrame
        swap_old := htab ▸ h.swap_old
        swap_new := htab ▸ h.swap_new
        logical := fun r hr w hw => ?_ }, hleaf⟩
    · rw [← h.pte r hr w, ← h.own, ← hother r w fun e => hr (Prod.mk.inj e).1]
      simp [Kernel.pte, hpts]
    · rw [← h.logical r hr w hw, ← h.own]
      refine (hq.logical r w hw).trans ?_
      exact logical_congr (hother r w fun e => hr (Prod.mk.inj e).1) (fun _ _ => rfl) fun _ => rfl

theorem Forking.unmapLoop (m : ℕ) (h : Forking L k₀ q new N k g) (hv : v + m ≤ N) :
    ∃ k' g', k.unmapLoop none new true m (v * pgSize) = .ok k' ∧ Forking L k₀ q new N k' g' ∧
      ∀ w, (k'.pts new).leaf w = if v ≤ w ∧ w < v + m then none else (k.pts new).leaf w := by
  induction m generalizing v k g with
  | zero =>
    refine ⟨k, g, rfl, h, fun w => ?_⟩
    rw [if_neg (by omega)]
  | succ m ih =>
    obtain ⟨k₁, g₁, heq₁, h₁, hleaf₁⟩ := h.unmapPage (v := v) (by omega)
    obtain ⟨k', g', heq, h', hleaf⟩ := ih (v := v + 1) h₁ (by omega)
    have hnext : v * pgSize + pgSize = (v + 1) * pgSize := by ring
    refine ⟨k', g', ?_, h', fun w => ?_⟩
    · simp only [Kernel.unmapLoop, heq₁, ok_bind, hnext, heq]
    · rw [hleaf, hleaf₁, Function.update_apply]
      split_ifs <;> first | rfl | omega

/-! ## The child -/

/-- A page table that no process has loses its pages. -/
theorem Inv.resize_unowned (h : Inv k g) (hn : g.size root = some N) (hun : Unowned g root)
    (hleaf : ∀ w < N, (k.pts root).leaf w = none) :
    Inv k { g with size := Function.update g.size root (some 0) } := by
  have hne : ∀ {r root'}, g.own r = some root' → root' ≠ root := by
    rintro r root' hr rfl
    exact hun r hr
  have hnp : ({ g with size := Function.update g.size root (some 0) } : Ghost).np = g.np := by
    funext r
    cases hr : g.own r with
    | none => simp [Ghost.np, hr]
    | some root' => simp [Ghost.np, hr, hne hr]
  refine ⟨h.pages, fun r m hm => ?_, fun r root' hr => ?_, h.own_inj, h.trapframe, hnp ▸ h.tables⟩
  · by_cases hr : r = root
    · subst hr
      obtain rfl : 0 = m := by simpa using hm
      exact (h.pt r N hn).resize (Nat.zero_le _) fun w _ hw => hleaf w hw
    · exact h.pt r m (by simpa [hr] using hm)
  · simpa [hne hr] using h.own_size r root' hr

/-- The child is given up after its resident pages are gone. -/
theorem Forking.freeproc (h : Forking L k₀ q new N k g) (hpq : p ≠ q) (hsz : (k₀.procs q).sz = 0)
    (hleaf : ∀ w < vpn trapframeVa, (k.pts new).leaf w = none) :
    ∃ k', k.freeproc p q = .ok k' ∧ k'.Sound ∧ (k'.procs q).Blank ∧
      k'.tables = k.tables.freeProcSwapSlots q ∧ (∀ r ≠ q, k'.procs r = k.procs r) ∧
      (∀ r ≠ new, k'.pts r = k.pts r) ∧
      (∀ r ≠ q, ∀ w < vpn trapframeVa,
        k'.logical L k'.roots r w = k₀.logical L k₀.roots r w) ∧
      ∀ R, k'.accounted R = k.accounted (insert new R) := by
  obtain ⟨k₁, g₁, heq₁, hinv₁, hsize₁, hown₁, hpend₁, htab₁, hpts₁, hprocs₁, hlog₁⟩ :=
    freeTrapframe_spec (L := L) h.inv q
  have hacc₁ := freeTrapframe_accounted heq₁
  have hcore : ∀ r, (k₁.procs r).pagetable = k₀.roots r ∧ (k₁.procs r).sz = (k₀.procs r).sz := by
    intro r
    have hr := h.core r
    simp only [Proc.core, ProcCore.mk.injEq] at hr
    rw [hprocs₁, roots]
    split
    · rename_i hrq
      subst hrq
      exact ⟨hr.2.2.1, hr.2.1⟩
    · exact ⟨hr.2.2.1, hr.2.1⟩
  have hown₁' : g₁.own = k₀.roots := hown₁.trans h.own
  obtain ⟨hinv₂, hlog₂⟩ := hinv₁.freeProcSwapSlots (L := L) (hpend₁.trans h.pend) q
  generalize hk₂ : ({ k₁ with tables := k₁.tables.freeProcSwapSlots q } : Kernel σ) = k₂
    at hinv₂ hlog₂
  have hpts₂ : k₂.pts = k.pts := by rw [← hk₂, ← hpts₁]
  have hprocs₂ : k₂.procs = k₁.procs := by rw [← hk₂]
  have hun : Unowned { g₁ with own := Function.update g₁.own q none } new := by
    intro r hr
    by_cases hrq : r = q
    · simp [hrq] at hr
    · dsimp only at hr
      rw [Function.update_of_ne hrq, hown₁] at hr
      exact hrq (h.inv.own_inj r q new hr (h.own ▸ h.child))
  have hcur : (k₂.procs p).pagetable ≠ some new := fun e => by
    rw [hprocs₂, (hcore p).1] at e
    exact hpq (h.inv.own_inj p q new (h.own ▸ e) (h.own ▸ h.child))
  have hinv₃ := hinv₂.resize_unowned (hsize₁ ▸ h.size) hun fun w hw => by
    rw [hpts₂]
    exact hleaf w (hw.trans_le h.bound)
  have hn₃ : Function.update g₁.size new (some 0) new = some (npages 0) := Function.update_self ..
  obtain ⟨k₃, g₃, heq₃, hfreed⟩ := procFreepagetable_spec (L := L) hinv₃ hn₃ hun hcur
  obtain ⟨hacc₃, hpts₃⟩ := procFreepagetable_frees L hinv₃ hn₃ hun hcur heq₃
  have hown₃ : g₃.own = Function.update g₁.own q none := hfreed.own
  have hsize₃ : ∀ r ≠ new, g₃.size r = g.size r := fun r hr => by
    simp [hfreed.size, hr, hsize₁]
  have hpage : k₁.freePagetable p q = .ok k₃ := by
    unfold freePagetable
    rw [(hcore q).1, h.child]
    dsimp only
    rw [hk₂, (hcore q).2, hsz]
    exact heq₃
  generalize hk' : (k₃.setProc q fun proc =>
    { proc with pagetable := none, sz := 0, xstate := 0, state := .unused }) = k'
  have hother : ∀ r ≠ q, k'.procs r = k.procs r := by
    intro r hr
    rw [← hk']
    simp [setProc, hr, hfreed.procs, hprocs₂, hprocs₁]
  have hblank : (k'.procs q).Blank := by
    rw [← hk']
    constructor <;> simp [setProc, hfreed.procs, hprocs₂, hprocs₁]
  have htrap : ∀ r, (k'.procs r).trapframe = (k₃.procs r).trapframe := by
    intro r
    rw [← hk']
    by_cases hr : r = q <;> simp [setProc, hr]
  have hroots : k'.roots = g₃.own := by
    funext r
    rw [hown₃, roots]
    by_cases hr : r = q
    · rw [hr, hblank.pagetable, Function.update_self]
    · rw [Function.update_of_ne hr, hown₁', hother r hr, roots]
      exact congrArg ProcCore.pagetable (h.core r)
  have hinv : Inv k' g₃ := by
    refine hfreed.inv.congr ?_ ?_ ?_ htrap ?_ <;> rw [← hk']
    · rfl
    · rfl
    · rfl
    · exact .refl _
  refine ⟨k', ?_, ⟨g₃, hinv, fun r => (congrFun hroots r).symm, fun r root hr => ?_, ?_⟩, hblank,
    ?_, hother, fun r hr => ?_, fun r hr w hw => ?_, fun R => ?_⟩
  · rw [Kernel.freeproc, heq₁, ok_bind, hpage, ok_bind, ← hk']
    rfl
  · have hrq : r ≠ q := by
      rintro rfl
      simp [hblank.pagetable] at hr
    rw [hother r hrq] at hr ⊢
    have hcr := h.core r
    simp only [Proc.core, ProcCore.mk.injEq] at hcr
    rw [hcr.2.2.1] at hr
    have hne : root ≠ new := by
      rintro rfl
      exact hrq (h.inv.own_inj r q root (h.own ▸ hr) (h.own ▸ h.child))
    rw [hsize₃ root hne, hcr.2.1]
    exact h.size_other r hrq root hr
  · exact hfreed.pend.trans (hpend₁.trans h.pend)
  · rw [← hk']
    refine hfreed.tables.trans ?_
    rw [← hk₂, htab₁]
  · rw [← hk', ← hpts₂]
    exact hpts₃ r hr
  · have hlog : k'.logical L k'.roots r w = k₃.logical L g₃.own r w := by
      rw [hroots, ← hk']
      rfl
    rw [hlog, hown₃, ← h.logical r hr w hw, ← h.own, ← hlog₁ r w hw, ← hown₁]
    exact (hfreed.logical r w hw).trans (hlog₂ r hr w)
  · have hreset : k'.accounted R = k₃.accounted R :=
      accounted_congr (by rw [← hk']; rfl) htrap fun _ _ => by rw [← hk']; rfl
    rw [hreset, hacc₃, ← hacc₁]
    exact accounted_congr (by rw [← hk₂]) (fun _ => by rw [hprocs₂])
      fun _ _ => by rw [hpts₂, hpts₁]

/-- `freeproc` removes exactly the entries that `uvmcopy` has made. -/
theorem Forking.freeProcSwapSlots (h : Forking L k₀ q new N k g) (h₀ : k₀.Sound)
    (hsz : (k₀.procs q).sz = 0) :
    (k.tables.freeProcSwapSlots q).frameTable = k₀.tables.frameTable ∧
      (k.tables.freeProcSwapSlots q).userFrameCount = k₀.tables.userFrameCount ∧
      ∀ s, (k.tables.freeProcSwapSlots q).swapMap s = k₀.tables.swapMap s ∨
        (k₀.tables.swapMap s).used = false ∧ (k.tables.freeProcSwapSlots q).swapMap s = .clear := by
  have hf := freeProcSwapSlots_spec q k.tables
  generalize k.tables.freeProcSwapSlots q = t at hf
  have hno : ∀ j, ¬ k.tables.OwnFrame q j := by
    rintro j ⟨hev, hproc⟩
    simp only [Frame.evictable, Bool.and_eq_true] at hev
    exact h.noFrame j (k.tables.frameTable j).va (by simp [Frame.entry, hev, hproc])
  refine ⟨funext fun j => ?_, ?_, fun s => ?_⟩
  · rw [hf.frame, if_neg (hno j), h.frameTable]
  · rw [hf.count, List.filter_eq_nil_iff.2 fun j _ => by simpa using hno j, h.count]
    rfl
  · rw [hf.swapMap]
    by_cases hused : (k₀.tables.swapMap s).used = true
    · -- the child had no entry before the call
      obtain ⟨g₀, hinv, hs⟩ := h₀
      have hnp : g₀.np q = 0 := by
        rw [Ghost.np_of_own ((hs.own q).trans h.child) (hs.size q new h.child), hsz]
        rfl
      have hnot : ¬ k.tables.OwnSwap q s := by
        rintro ⟨-, hproc⟩
        obtain ⟨r, w, hentry, hw, -⟩ := hinv.tables.swap_ok s hused
        rw [h.swap_old s hused, hentry] at hproc
        obtain rfl := Option.some.inj hproc
        omega
      rw [if_neg hnot]
      exact .inl (h.swap_old s hused)
    · rw [Bool.not_eq_true] at hused
      split
      · exact .inr ⟨hused, rfl⟩
      · rename_i hnot
        refine (h.swap_new s hused).elim .inl ?_
        rintro ⟨w, -, he⟩
        exact absurd (by simp [OwnSwap, he]) hnot

/-- The pages that were copied before the failure are unmapped. -/
theorem Copying.uvmunmap (h : Copying L k₀ p q new N i k g) (hpq : p ≠ q) (hi : i ≤ N) :
    ∃ k' g', k.uvmunmap p new 0 i true = .ok k' ∧ Forking L k₀ q new N k' g' ∧
      Confined new k k' ∧ ∀ w < vpn trapframeVa, (k'.pts new).leaf w = none := by
  have hown : g.own q = some new := h.own ▸ h.child
  have howner : k.unmapOwner p new = none := unmapOwner_none fun e => by
    have hroot : k₀.roots p = some new :=
      (congrArg ProcCore.pagetable (h.core p)).symm.trans e
    exact hpq (h.inv.own_inj p q new (h.own ▸ hroot) hown)
  obtain ⟨k', g', heq, h', hleaf⟩ := h.toForking.unmapLoop (v := 0) i (by omega)
  have hconf := unmapLoop_confined (v := 0) i (by have := h.bound; omega) heq
  rw [Nat.zero_mul] at heq
  refine ⟨k', g', ?_, h', hconf, fun w hw => ?_⟩
  · rw [Kernel.uvmunmap, if_neg (by simp), howner, heq]
  · rw [hleaf]
    split
    · rfl
    · have hfresh := (h.fresh w (by omega) hw).1
      rwa [pte_of_own hown] at hfresh

/-! ## The theorem -/

/-- The memory system in `k'` is as in `k`. An unused entry of the swap map may have been cleared;
the kernel clears every entry that it releases. -/
structure NoTrace (L : SwapLaws S) (k k' : Kernel σ) : Prop where
  sound : k'.Sound
  frameTable : k'.tables.frameTable = k.tables.frameTable
  count : k'.tables.userFrameCount = k.tables.userFrameCount
  swapUsed : k'.tables.swapUsed = k.tables.swapUsed
  swapMap : ∀ s, k'.tables.swapMap s = k.tables.swapMap s ∨
    (k.tables.swapMap s).used = false ∧ k'.tables.swapMap s = .clear
  swapMap_eq : (∀ s, (k.tables.swapMap s).used = false → k.tables.swapMap s = .clear) →
    k'.tables.swapMap = k.tables.swapMap
  procs : ∀ r, (k.procs r).state ≠ .unused → k'.procs r = k.procs r
  unused : ∀ r, (k.procs r).state = .unused → (k'.procs r).Blank
  pts : ∀ r root, k.roots r = some root → k'.pts root = k.pts root
  logical : ∀ r, (k.procs r).state ≠ .unused → ∀ w < vpn trapframeVa,
    k'.logical L k'.roots r w = k.logical L k.roots r w
  free : k'.freelist.Perm k.freelist

theorem NoTrace.refl (h : k.Sound) (hclean : k.Clean) : NoTrace L k k :=
  ⟨h, rfl, rfl, rfl, fun _ => .inl rfl, fun _ => rfl, fun _ _ => rfl, hclean, fun _ _ _ => rfl,
    fun _ _ _ _ => rfl, .refl _⟩

/-- The free pages are determined by the pages in use, if no page is lost. -/
theorem free_subset (h : FreeOnce k) (hacc : k.accounted k.tableRoots = k'.accounted k.tableRoots)
    (htrap : ∀ r, (k'.procs r).trapframe = (k.procs r).trapframe)
    (hpts : ∀ root ∈ k.tableRoots, k'.pts root = k.pts root) :
    k.freelist ⊆ k'.freelist := by
  intro pa hpa
  have hmem : pa ∈ k'.accounted k.tableRoots := hacc ▸ Or.inl hpa
  rcases hmem with hfree | ⟨r, hr⟩ | ⟨root, hroot, hx⟩
  · exact hfree
  · exact absurd (htrap r ▸ hr) (h.trapframe pa hpa r)
  · rw [hpts root hroot] at hx
    exact (hx.elim (h.table pa hpa root hroot).1 (h.table pa hpa root hroot).2).elim

/-- The process `q` was not in use and is blank again, and nothing else has changed. -/
theorem NoTrace.of_blank (h : k.Sound) (hclean : k.Clean) (hq : (k.procs q).state = .unused)
    (h' : k'.Sound) (hblank : (k'.procs q).Blank) (hprocs : ∀ r ≠ q, k'.procs r = k.procs r)
    (hframe : k'.tables.frameTable = k.tables.frameTable)
    (hcount : k'.tables.userFrameCount = k.tables.userFrameCount)
    (hmap : ∀ s, k'.tables.swapMap s = k.tables.swapMap s ∨
      (k.tables.swapMap s).used = false ∧ k'.tables.swapMap s = .clear)
    (hpts : ∀ r, r ∉ k.freelist → k'.pts r = k.pts r)
    (hlog : ∀ r ≠ q, ∀ w < vpn trapframeVa,
      k'.logical L k'.roots r w = k.logical L k.roots r w)
    (hacc : ∀ R, (∀ x ∈ R, x ∉ k.freelist) → k'.accounted R = k.accounted R) :
    NoTrace L k k' := by
  obtain ⟨g, hinv, hs⟩ := h
  obtain ⟨g', hinv', hs'⟩ := id h'
  have honce := hinv.freeOnce hs
  have honce' := hinv'.freeOnce hs'
  have hne : ∀ {r}, (k.procs r).state ≠ .unused → r ≠ q := by
    rintro r hr rfl
    exact hr hq
  have hqold := hclean q hq
  have hroots : k'.roots = k.roots := by
    funext r
    by_cases hr : r = q
    · rw [hr, roots, roots, hblank.pagetable, hqold.pagetable]
    · rw [roots, roots, hprocs r hr]
  have htables : k'.tableRoots = k.tableRoots := by simp only [tableRoots, hroots]
  have htrap : ∀ r, (k'.procs r).trapframe = (k.procs r).trapframe := by
    intro r
    by_cases hr : r = q
    · rw [hr, hblank.trapframe, hqold.trapframe]
    · rw [hprocs r hr]
  have hoff : ∀ root ∈ k.tableRoots, root ∉ k.freelist := fun root hroot hfree =>
    (honce.table root hfree root hroot).1 rfl
  have hpts' : ∀ root ∈ k.tableRoots, k'.pts root = k.pts root := fun root hroot =>
    hpts root (hoff root hroot)
  have hall := hacc k.tableRoots hoff
  refine
    { sound := h'
      frameTable := hframe
      count := hcount
      swapUsed := funext fun s => ?_
      swapMap := hmap
      swapMap_eq := fun hclear => funext fun s => ?_
      procs := fun r hr => hprocs r (hne hr)
      unused := fun r hr => ?_
      pts := fun r root hr => hpts' root ⟨r, hr⟩
      logical := fun r hr => hlog r (hne hr)
      free := (List.perm_ext_iff_of_nodup honce'.nodup honce.nodup).2 fun pa => ⟨?_, ?_⟩ }
  · rw [hinv.tables.used_iff, hinv'.tables.used_iff]
    rcases hmap s with hsame | ⟨hunused, hsame⟩
    · rw [hsame]
    · rw [hsame, hunused]
      rfl
  · rcases hmap s with hsame | ⟨hunused, hsame⟩
    · exact hsame
    · rw [hsame, hclear s hunused]
  · by_cases hrq : r = q
    · exact hrq ▸ hblank
    · rw [hprocs r hrq]
      exact hclean r hr
  · exact fun hpa => free_subset honce' (htables ▸ hall) (fun r => (htrap r).symm)
      (fun root hroot => (hpts' root (htables ▸ hroot)).symm) hpa
  · exact fun hpa => free_subset honce hall.symm htrap hpts' hpa

/-- `kfork` after `allocproc` has made the child. -/
theorem uvmcopy_no_trace {k₁ : Kernel σ} (h : k.Sound) (hclean : k.Clean)
    (hq : (k.procs q).state = .unused) (hstep : ProcStep L q k k₁) (hmade : ProcMade q new k k₁)
    (hpq : p ≠ q) (hold : (k₁.procs p).pagetable = some old) :
    (∃ k', k₁.uvmcopy S p q old new (k₁.procs p).sz = .ok (true, k')) ∨
    ∃ k₂ k', k₁.uvmcopy S p q old new (k₁.procs p).sz = .ok (false, k₂) ∧
      k₂.freeproc p q = .ok k' ∧ NoTrace L k k' := by
  obtain ⟨g, hinv, hs⟩ := hstep.sound
  have hbound := (hinv.pt old _ (hs.size p old hold)).bound
  have hstart := hinv.copying (L := L) (p := p) hs hmade.pagetable hmade.sz hbound
  obtain ⟨k', g', heq, -⟩ | ⟨j, k₂, g₂, hj, h₂, hconf₂, heq⟩ :=
    uvmcopyLoop_spec (npages (k₁.procs p).sz) hstart hpq hold (Nat.zero_add _)
  · exact .inl ⟨k', heq⟩
  obtain ⟨k₃, g₃, heq₃, h₃, hconf₃, hleaf₃⟩ := h₂.uvmunmap hpq hj.le
  have hconf := hconf₂.trans hconf₃
  obtain ⟨k', heq', hsound, hblank, htab, hprocs, hpts, hlog, hacc⟩ :=
    h₃.freeproc hpq hmade.sz hleaf₃
  obtain ⟨hframe, hcount, hmap⟩ := h₃.freeProcSwapSlots hstep.sound hmade.sz
  rw [← htab] at hframe hcount hmap
  rw [hstep.tables] at hframe hcount hmap
  refine .inr ⟨k₃, k', ?_, heq', NoTrace.of_blank h hclean hq hsound hblank (fun r hr => ?_) hframe
    hcount hmap (fun r hr => ?_) (fun r hr w hw => ?_) fun R hR => ?_⟩
  · rw [uvmcopy, ← npages, heq, heq₃]
    rfl
  · rw [hprocs r hr, hconf.procs, hstep.procs r hr]
  · have hne : r ≠ new := by
      rintro rfl
      exact hr hmade.free
    rw [hpts r hne, hconf.other r hne, hstep.pts r hr]
  · rw [hlog r hr w hw, hstep.logical r hr w hw]
  · rw [hacc, hconf.accounted _ (Set.mem_insert ..), hmade.accounted R hR]

/-- The process `q` is new, with a copy of the page table of `p`, and has no frame entry. -/
structure Forks (p q : ProcIdx) (k k' : Kernel σ) : Prop where
  sound : k'.Sound
  unused : (k.procs q).state = .unused
  state : (k'.procs q).state = .runnable
  resident : (k'.procs q).residentPages = 0
  procs : ∀ r ≠ q, k'.procs r = k.procs r
  frameTable : k'.tables.frameTable = k.tables.frameTable
  pte_other : ∀ r ≠ q, ∀ w, k'.pte k'.roots r w = k.pte k.roots r w
  perm : ∀ w < vpn trapframeVa,
    (k'.pte k'.roots q w).map Pte.perm = (k.pte k.roots p w).map Pte.perm

theorem allocproc_resident (heq : k.allocproc cur q = .ok (true, k')) :
    (k'.procs q).residentPages = 0 := by
  unfold allocproc at heq
  split at heq
  · obtain ⟨k₁, -, heq⟩ := bind_eq_ok.1 heq
    cases (Prod.mk.inj (Except.ok.inj heq)).1
  · obtain ⟨⟨r, k₁⟩, -, heq⟩ := bind_eq_ok.1 heq
    cases r with
    | none =>
      obtain ⟨k₂, -, heq⟩ := bind_eq_ok.1 heq
      cases (Prod.mk.inj (Except.ok.inj heq)).1
    | some root =>
      obtain ⟨-, rfl⟩ := Prod.mk.inj (Except.ok.inj heq)
      simp [setProc]

/-- `allocproc` does not touch the page tables of the other processes. -/
theorem ProcStep.pte (h : k.Sound) (hstep : ProcStep L q k k') {r : ProcIdx} (hr : r ≠ q) (w : ℕ) :
    k'.pte k'.roots r w = k.pte k.roots r w := by
  obtain ⟨g, hinv, hs⟩ := h
  have hroot : k'.roots r = k.roots r := by rw [roots, roots, hstep.procs r hr]
  cases hown : k.roots r with
  | none => simp [Kernel.pte, hroot, hown]
  | some root =>
    have hfree : root ∉ k.freelist := fun hmem =>
      ((hinv.freeOnce hs).table root hmem root ⟨r, hown⟩).1 rfl
    simp [Kernel.pte, hroot, hown, hstep.pts root hfree]

/-- The child after `uvmcopy` has succeeded. -/
theorem Copying.forks {k₁ : Kernel σ} (h : k.Sound) (hstep : ProcStep L q k k₁)
    (hunused : (k.procs q).state = .unused) (hres : (k₁.procs q).residentPages = 0)
    (hpq : p ≠ q) (hold : (k₁.procs p).pagetable = some old) (hprocs : k'.procs = k₁.procs)
    (hcopy : Copying L k₁ p q new (npages (k₁.procs p).sz) (npages (k₁.procs p).sz) k' g') :
    Forks p q k (k'.forkDone p q) := by
  have hroots : (k'.forkDone p q).roots = k₁.roots := by
    funext r
    by_cases hr : r = q <;> simp [forkDone, setProc, roots, hr, hprocs]
  have hpte : ∀ r w, (k'.forkDone p q).pte (k'.forkDone p q).roots r w = k'.pte k₁.roots r w :=
    fun r w => by rw [hroots]; rfl
  refine
    { sound := hcopy.sound
      unused := hunused
      state := by simp [forkDone, setProc]
      resident := by simp [forkDone, setProc, hprocs, hres]
      procs := fun r hr => by simp [forkDone, setProc, hr, hprocs, hstep.procs r hr]
      frameTable := hcopy.frameTable.trans (by rw [hstep.tables])
      pte_other := fun r hr w => ?_
      perm := fun w hw => ?_ }
  · rw [hpte, hcopy.pte r hr w, hstep.pte h hr w]
  · rw [hpte, ← hstep.pte h hpq w]
    by_cases hlt : w < npages (k₁.procs p).sz
    · exact (hcopy.copied w hlt).2
    · -- neither of them has pages beyond the size
      obtain ⟨g₁, hinv₁, hs₁⟩ := hstep.sound
      have hnp : g₁.np p = npages (k₁.procs p).sz :=
        Ghost.np_of_own ((hs₁.own p).trans hold) (hs₁.size p old hold)
      have hchild := (hcopy.fresh w (Nat.le_of_not_lt hlt) hw).1
      have hparent := (hinv₁.fresh_of_le (hnp.trans_le (Nat.le_of_not_lt hlt)) hw).1
      rw [hcopy.own] at hchild
      rw [hchild, hs₁.roots_eq, hparent]

/-- `kfork` returns: it leaves no trace, or there is a new process. -/
theorem kfork_spec (L : SwapLaws S) (h : k.Sound) (hclean : k.Clean)
    (hold : (k.procs p).pagetable = some old) :
    ∃ r k', k.kfork S p = .ok (r, k') ∧ (r = none → NoTrace L k k') ∧
      ∀ q, r = some q → Forks p q k k' := by
  unfold kfork
  cases hf : k.findUnused with
  | none => exact ⟨none, k, rfl, fun _ => .refl h hclean, by simp⟩
  | some q =>
    have hq : (k.procs q).state = .unused := by
      simpa [findUnused] using Fin.eq_true_of_find?_eq_some hf
    have hpq : p ≠ q := by
      rintro rfl
      simp [(hclean p hq).pagetable] at hold
    obtain ⟨b, k₁, heq₁, hstep, hno, hyes⟩ := allocproc_spec L h (hclean q hq) p
    dsimp only
    rw [heq₁, ok_bind]
    cases b with
    | false =>
      obtain ⟨hblank, hacc⟩ := hno rfl
      refine ⟨none, k₁, rfl, fun _ => ?_, by simp⟩
      exact NoTrace.of_blank h hclean hq hstep.sound hblank hstep.procs (by rw [hstep.tables])
        (by rw [hstep.tables]) (fun s => .inl (by rw [hstep.tables])) hstep.pts hstep.logical hacc
    | true =>
      obtain ⟨new, hmade⟩ := hyes rfl
      have hold₁ : (k₁.procs p).pagetable = some old := by rw [hstep.procs p hpq, hold]
      simp only [Bool.true_eq_false, if_false, hold₁, hmade.pagetable]
      obtain ⟨k₂, heq₂⟩ | ⟨k₂, k', heq₂, heq', htrace⟩ :=
        uvmcopy_no_trace h hclean hq hstep hmade hpq hold₁
      · obtain ⟨g', hcopy, hprocs⟩ :=
          uvmcopy_copying L hstep.sound hpq hold₁ hmade.pagetable hmade.sz heq₂
        refine ⟨some q, k₂.forkDone p q, ?_, by simp, ?_⟩
        · rw [heq₂]
          rfl
        · rintro _ ⟨⟩
          exact hcopy.forks h hstep hq (allocproc_resident heq₁) hpq hold₁ hprocs
      · refine ⟨none, k', ?_, fun _ => htrace, by simp⟩
        rw [heq₂]
        simp only [ok_bind, if_true, heq']
        rfl

/-- **A failing `fork` leaves no trace.** `kfork` returns, and if there is no child, whichever
allocation failed, the frame table, the swap map, all processes with their page tables and pages,
and the set of free pages are as before. -/
theorem kfork_no_trace (L : SwapLaws S) (h : k.Sound) (hclean : k.Clean)
    (hold : (k.procs p).pagetable = some old) :
    ∃ r k', k.kfork S p = .ok (r, k') ∧ (r = none → NoTrace L k k') := by
  obtain ⟨r, k', heq, htrace, -⟩ := kfork_spec L h hclean hold
  exact ⟨r, k', heq, htrace⟩

/-- The parent has five free pages: four are for the child's trapframe and page table, and the last
one is not enough for the copy of the resident page and its page-table pages. -/
def cramped : Kernel Raid.Dev := { lone with freelist := lone.freelist.take 5 }

theorem cramped_fails : (match cramped.kfork (raidSwap .raid5) soleProc with
    | .ok (none, k') => decide (k'.tables.swapUsed = cramped.tables.swapUsed)
    | _ => false) = true := by
  decide +kernel

theorem kfork_no_trace_cramped : cramped.Sound ∧ cramped.Clean ∧ ∃ k',
    cramped.kfork (raidSwap .raid5) soleProc = .ok (none, k') ∧
      NoTrace (raidSwapLaws .raid5) cramped k' := by
  have hsound : cramped.Sound := lone_sound.take 5
  have hroot : (cramped.procs soleProc).pagetable = some soleRoot := rfl
  obtain ⟨r, k', heq, htrace⟩ := kfork_no_trace (raidSwapLaws .raid5) hsound lone_clean hroot
  have hfails := cramped_fails
  rw [heq] at hfails
  cases r with
  | none => exact ⟨hsound, lone_clean, k', heq, htrace rfl⟩
  | some q => cases hfails

end Xv6Swap.Paging.Kernel
