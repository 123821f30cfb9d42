import Mathlib.Data.Set.Insert
import Xv6Swap.Paging.Unmap

/-!
# Every page is accounted for

The pages that the kernel can still reach: those on the free list, the trapframes, and the pages of
the page tables at given roots (`accounted`). A page that is taken off the free list is missing from
this set until it is part of a page table or back on the free list. `walk`, `mappages` and an
eviction lose no page.

The lemmas here hold in every state; that a page has only one place follows from the invariant.
-/

namespace Xv6Swap.Paging

open Raid (Page pgSize)
open Kernel (vpn midIdx lowIdx)

/-! ## The pages of a page table -/

/-- The pages of a page table besides its root: its own pages, and the user pages it maps. -/
def PageTable.pages (pt : PageTable) : Set PA :=
  {pa | (∃ i, pt.mid i = some pa) ∨ (∃ j, pt.low j = some pa) ∨
    ∃ v e, v < vpn trapframeVa ∧ pt.leaf v = some e ∧ e.pa = pa}

namespace PageTable

variable {pt : PageTable} {pa : PA} {i v : ℕ}

/-- An entry that was zero is set. -/
theorem exists_update_some {α : Type} {f : ℕ → Option α} (hnone : f i = none) (a x : α) :
    (∃ j, Function.update f i (some a) j = some x) ↔ x = a ∨ ∃ j, f j = some x := by
  constructor
  · rintro ⟨j, hj⟩
    by_cases hji : j = i
    · subst hji
      simp only [Function.update_self, Option.some.injEq] at hj
      exact .inl hj.symm
    · rw [Function.update_of_ne hji] at hj
      exact .inr ⟨j, hj⟩
  · rintro (rfl | ⟨j, hj⟩)
    · exact ⟨i, by simp⟩
    · have hji : j ≠ i := by
        rintro rfl
        simp [hnone] at hj
      exact ⟨j, by rw [Function.update_of_ne hji, hj]⟩

/-- An entry is set to zero. -/
theorem exists_update_none {α : Type} {f : ℕ → Option α} {a : α} (hsome : f i = some a) (x : α) :
    (∃ j, f j = some x) ↔ x = a ∨ ∃ j, Function.update f i none j = some x := by
  have hback : Function.update (Function.update f i none) i (some a) = f := by
    rw [Function.update_idem, ← hsome, Function.update_eq_self]
  have := exists_update_some (f := Function.update f i none) (i := i) (by simp) a x
  rwa [hback] at this

theorem pages_setMid (hnone : pt.mid i = none) (pa : PA) :
    ({ pt with mid := Function.update pt.mid i (some pa) }).pages = insert pa pt.pages := by
  ext x
  simp only [pages, Set.mem_ofPred_eq, Set.mem_insert_iff, exists_update_some hnone, or_assoc]

theorem pages_setLow (hnone : pt.low i = none) (pa : PA) :
    ({ pt with low := Function.update pt.low i (some pa) }).pages = insert pa pt.pages := by
  ext x
  simp only [pages, Set.mem_ofPred_eq, Set.mem_insert_iff, exists_update_some hnone, or_assoc]
  exact or_left_comm

theorem pages_clearMid (hsome : pt.mid i = some pa) :
    pt.pages = insert pa ({ pt with mid := Function.update pt.mid i none }).pages := by
  ext x
  simp only [pages, Set.mem_ofPred_eq, Set.mem_insert_iff, exists_update_none hsome, or_assoc]

theorem pages_clearLow (hsome : pt.low i = some pa) :
    pt.pages = insert pa ({ pt with low := Function.update pt.low i none }).pages := by
  ext x
  simp only [pages, Set.mem_ofPred_eq, Set.mem_insert_iff, exists_update_none hsome, or_assoc]
  exact or_left_comm

/-- A user page is unmapped. -/
theorem pages_clearLeaf {e : Pte} (he : pt.leaf v = some e) (hv : v < vpn trapframeVa) :
    pt.pages = insert e.pa ({ pt with leaf := Function.update pt.leaf v none }).pages := by
  ext x
  simp only [pages, Set.mem_ofPred_eq, Set.mem_insert_iff]
  constructor
  · rintro (hmid | hlow | ⟨w, e', hw, he', rfl⟩)
    · exact .inr (.inl hmid)
    · exact .inr (.inr (.inl hlow))
    · by_cases hwv : w = v
      · subst hwv
        exact .inl (by rw [Option.some.inj (he'.symm.trans he)])
      · exact .inr (.inr (.inr ⟨w, e', hw, by rw [Function.update_of_ne hwv, he'], rfl⟩))
  · rintro (rfl | hmid | hlow | ⟨w, e', hw, he', rfl⟩)
    · exact .inr (.inr ⟨v, e, hv, he, rfl⟩)
    · exact .inl hmid
    · exact .inr (.inl hlow)
    · by_cases hwv : w = v
      · subst hwv
        simp at he'
      · rw [Function.update_of_ne hwv] at he'
        exact .inr (.inr ⟨w, e', hw, he', rfl⟩)

/-- A user page is mapped. -/
theorem pages_setLeaf (hnone : pt.leaf v = none) (hv : v < vpn trapframeVa) (e : Pte) :
    ({ pt with leaf := Function.update pt.leaf v (some e) }).pages = insert e.pa pt.pages := by
  rw [pages_clearLeaf (v := v) (e := e) (by simp) hv]
  have hsame : Function.update (Function.update pt.leaf v (some e)) v none = pt.leaf := by
    rw [Function.update_idem, ← hnone, Function.update_eq_self]
  rw [hsame]

/-- The trampoline and the trapframe do not count. -/
theorem pages_updateLeaf (hv : vpn trapframeVa ≤ v) (e : Option Pte) :
    ({ pt with leaf := Function.update pt.leaf v e }).pages = pt.pages := by
  have hne : ∀ w, w < vpn trapframeVa → w ≠ v := by
    rintro w hw rfl
    exact absurd hv (Nat.not_le.2 hw)
  ext x
  simp only [pages, Set.mem_ofPred_eq]
  refine or_congr_right (or_congr_right ⟨?_, ?_⟩)
  · rintro ⟨w, e', hw, he', rfl⟩
    rw [Function.update_of_ne (hne w hw)] at he'
    exact ⟨w, e', hw, he', rfl⟩
  · rintro ⟨w, e', hw, he', rfl⟩
    exact ⟨w, e', hw, by rw [Function.update_of_ne (hne w hw), he'], rfl⟩

end PageTable

namespace Kernel

open Tables

variable {σ : Type} {S : SwapOps σ} {k k' : Kernel σ} {root pa : PA} {va v : ℕ} {R : Set PA}

/-! ## The pages of the kernel -/

/-- The free pages, the trapframes, and the page tables at `R` with their pages. -/
def accounted (k : Kernel σ) (R : Set PA) : Set PA :=
  {pa | pa ∈ k.freelist ∨ (∃ p, (k.procs p).trapframe = some pa) ∨
    ∃ root ∈ R, pa = root ∨ pa ∈ (k.pts root).pages}

theorem accounted_congr (hfree : k'.freelist = k.freelist)
    (htrap : ∀ p, (k'.procs p).trapframe = (k.procs p).trapframe)
    (hpts : ∀ root ∈ R, (k'.pts root).pages = (k.pts root).pages) :
    k'.accounted R = k.accounted R := by
  ext x
  simp only [accounted, Set.mem_ofPred_eq, hfree, htrap]
  refine or_congr_right (or_congr_right ⟨?_, ?_⟩)
  · rintro ⟨root, hroot, hx⟩
    exact ⟨root, hroot, hpts root hroot ▸ hx⟩
  · rintro ⟨root, hroot, hx⟩
    exact ⟨root, hroot, (hpts root hroot).symm ▸ hx⟩

/-- A page goes on the free list, or was taken off it. -/
theorem accounted_cons (hfree : k'.freelist = pa :: k.freelist) (hprocs : k'.procs = k.procs)
    (hpts : k'.pts = k.pts) : k'.accounted R = insert pa (k.accounted R) := by
  ext x
  simp only [accounted, Set.mem_ofPred_eq, Set.mem_insert_iff, hfree, hprocs, hpts, List.mem_cons,
    or_assoc]

/-- A page becomes part of a page table. -/
theorem accounted_setPt (hroot : root ∈ R) {pt : PageTable}
    (hpages : pt.pages = insert pa (k.pts root).pages) :
    (k.setPt root pt).accounted R = insert pa (k.accounted R) := by
  have hself : ((k.setPt root pt).pts root).pages = insert pa (k.pts root).pages := by
    simpa [setPt] using hpages
  have hother : ∀ r ≠ root, (k.setPt root pt).pts r = k.pts r := fun r hr => by simp [setPt, hr]
  ext x
  simp only [accounted, Set.mem_ofPred_eq, Set.mem_insert_iff]
  constructor
  · rintro (hfree | htrap | ⟨r, hr, hx⟩)
    · exact .inr (.inl hfree)
    · exact .inr (.inr (.inl htrap))
    · by_cases hrr : r = root
      · subst hrr
        rw [hself, Set.mem_insert_iff] at hx
        rcases hx with hx | hx | hx
        · exact .inr (.inr (.inr ⟨r, hr, .inl hx⟩))
        · exact .inl hx
        · exact .inr (.inr (.inr ⟨r, hr, .inr hx⟩))
      · rw [hother r hrr] at hx
        exact .inr (.inr (.inr ⟨r, hr, hx⟩))
  · rintro (rfl | hfree | htrap | ⟨r, hr, hx⟩)
    · exact .inr (.inr ⟨root, hroot, .inr (by rw [hself]; exact Set.mem_insert ..)⟩)
    · exact .inl hfree
    · exact .inr (.inl htrap)
    · refine .inr (.inr ⟨r, hr, hx.imp_right fun hx => ?_⟩)
      by_cases hrr : r = root
      · subst hrr
        rw [hself]
        exact Set.mem_insert_of_mem _ hx
      · rw [hother r hrr]
        exact hx

theorem kalloc_accounted (hk : k.kalloc = (some pa, k')) (R : Set PA) :
    k.accounted R = insert pa (k'.accounted R) := by
  obtain ⟨l, hf, rfl⟩ := kalloc_some hk
  exact accounted_cons hf rfl rfl

theorem kfree_accounted (hk : k.kfree pa = .ok k') (R : Set PA) :
    k'.accounted R = insert pa (k.accounted R) := by
  obtain rfl := kfree_eq_ok hk
  exact accounted_cons rfl rfl rfl

/-! ## Page-table pages -/

/-- What `walk` does to the kernel state: free pages may become pages of the page table. -/
structure Walked (root : PA) (k k' : Kernel σ) : Prop where
  rest : k' = { k with freelist := k'.freelist, mem := k'.mem, pts := k'.pts }
  free : k'.freelist ⊆ k.freelist
  mem : ∀ pa, pa ∉ k.freelist → k'.mem pa = k.mem pa
  other : ∀ r ≠ root, k'.pts r = k.pts r
  leaf : (k'.pts root).leaf = (k.pts root).leaf
  mid : ∀ i pg, (k.pts root).mid i = some pg → (k'.pts root).mid i = some pg
  low : ∀ j pg, (k.pts root).low j = some pg → (k'.pts root).low j = some pg
  accounted : ∀ R, root ∈ R → k'.accounted R = k.accounted R

theorem Walked.refl (root : PA) (k : Kernel σ) : Walked root k k :=
  ⟨rfl, fun _ h => h, fun _ _ => rfl, fun _ _ => rfl, rfl, fun _ _ h => h, fun _ _ h => h,
    fun _ _ => rfl⟩

theorem Walked.trans {k'' : Kernel σ} (h : Walked root k k') (h' : Walked root k' k'') :
    Walked root k k'' where
  rest := by
    rw [h'.rest, h.rest]
  free _ hpa := h.free (h'.free hpa)
  mem pa hpa := (h'.mem pa fun hpa' => hpa (h.free hpa')).trans (h.mem pa hpa)
  other r hr := (h'.other r hr).trans (h.other r hr)
  leaf := h'.leaf.trans h.leaf
  mid i pg hi := h'.mid i pg (h.mid i pg hi)
  low j pg hj := h'.low j pg (h.low j pg hj)
  accounted R hR := (h'.accounted R hR).trans (h.accounted R hR)

/-- A cleared page becomes part of the page table. -/
theorem kalloc_walked {k₁ : Kernel σ} {pt : PageTable} (hk : k.kalloc = (some pa, k₁))
    (hleaf : pt.leaf = (k.pts root).leaf) (hpages : pt.pages = insert pa (k.pts root).pages)
    (hmid : ∀ i pg, (k.pts root).mid i = some pg → pt.mid i = some pg)
    (hlow : ∀ j pg, (k.pts root).low j = some pg → pt.low j = some pg) :
    Walked root k ((k₁.fill pa 0).setPt root pt) := by
  have hacc := kalloc_accounted hk
  obtain ⟨l, hf, rfl⟩ := kalloc_some hk
  have hpt : (((({ k with freelist := l } : Kernel σ).fill pa 5).fill pa 0).setPt root pt).pts root
      = pt := by simp [setPt]
  refine ⟨rfl, fun x hx => ?_, fun x hx => ?_, fun r hr => ?_, ?_, ?_, ?_, fun R hR => ?_⟩
  · rw [hf]
    exact List.mem_cons_of_mem _ hx
  · have hne : x ≠ pa := by
      rintro rfl
      exact hx (by simp [hf])
    simp [setPt, fill, hne]
  · simp [setPt, fill, hr]
  · rw [hpt, hleaf]
  · rw [hpt]
    exact hmid
  · rw [hpt]
    exact hlow
  · rw [hacc R]
    exact accounted_setPt hR hpages

theorem update_some_of_none {f : ℕ → Option PA} {i : ℕ} (hnone : f i = none) (pa : PA) (j : ℕ)
    (pg : PA) (hj : f j = some pg) : Function.update f i (some pa) j = some pg := by
  have hji : j ≠ i := by
    rintro rfl
    simp [hnone] at hj
  rw [Function.update_of_ne hji, hj]

theorem walkMid_walked {alloc b : Bool} (h : k.walkMid root va alloc = (b, k')) :
    Walked root k k' := by
  obtain ⟨rfl, -⟩ | ⟨-, hnone, pa, k₁, hk, rfl⟩ := walkMid_cases h
  · exact .refl root k'
  · exact kalloc_walked hk rfl (PageTable.pages_setMid hnone pa)
      (update_some_of_none hnone pa) fun _ _ h => h

theorem walkLow_walked {alloc b : Bool} (h : k.walkLow root va alloc = (b, k')) :
    Walked root k k' := by
  obtain ⟨rfl, -⟩ | ⟨-, hnone, pa, k₁, hk, rfl⟩ := walkLow_cases h
  · exact .refl root k'
  · exact kalloc_walked hk rfl (PageTable.pages_setLow hnone pa) (fun _ _ h => h)
      (update_some_of_none hnone pa)

theorem walk_walked {alloc b : Bool} (h : k.walk root va alloc = .ok (b, k')) :
    Walked root k k' := by
  obtain ⟨-, ⟨-, hmid⟩ | ⟨k₁, hmid, hlow⟩⟩ := walk_cases h
  · exact walkMid_walked hmid
  · exact (walkMid_walked hmid).trans (walkLow_walked hlow)

/-- `mappages` allocates page-table pages, and sets the leaf entry if it succeeds. -/
theorem mappages_walked {perm : Perm} {b : Bool} (h : k.mappages root va pa perm = .ok (b, k')) :
    ∃ k₁, Walked root k k₁ ∧ (b = false ∧ k' = k₁ ∨
      b = true ∧ (k₁.pts root).leaf (vpn va) = none ∧
        k' = k₁.setLeaf root va (some ⟨pa, perm⟩)) := by
  obtain ⟨k₁, hwalk, h⟩ := mappages_cases h
  exact ⟨k₁, walk_walked hwalk, h⟩

/-- A page is mapped in a page table at `R`, below the trapframe. -/
theorem setLeaf_accounted (hroot : root ∈ R) (hv : v < vpn trapframeVa)
    (hnone : (k.pts root).leaf v = none) (e : Pte) :
    (k.setLeaf root (v * pgSize) (some e)).accounted R = insert e.pa (k.accounted R) := by
  rw [setLeaf, vpn_mul]
  exact accounted_setPt hroot (PageTable.pages_setLeaf hnone hv e)

/-- A page is taken out of a page table. -/
theorem accounted_takePt (hroot : root ∈ R) {pt : PageTable}
    (hpages : (k.pts root).pages = insert pa pt.pages) :
    k.accounted R = insert pa ((k.setPt root pt).accounted R) := by
  have hback : ((k.setPt root pt).setPt root (k.pts root)).accounted R =
      insert pa ((k.setPt root pt).accounted R) := by
    refine accounted_setPt hroot ?_
    simpa [setPt] using hpages
  rw [← hback]
  symm
  apply accounted_congr
  · rfl
  · exact fun _ => rfl
  · intro r _
    simp [setPt]

theorem clearLeaf_accounted (hroot : root ∈ R) (hv : v < vpn trapframeVa) {e : Pte}
    (he : (k.pts root).leaf v = some e) :
    k.accounted R = insert e.pa ((k.setLeaf root (v * pgSize) none).accounted R) := by
  rw [setLeaf, vpn_mul]
  exact accounted_takePt hroot (PageTable.pages_clearLeaf he hv)

/-! ## Steps on one page table -/

/-- A step on the page table `root` that loses no page, and leaves the processes and all other page
tables alone. -/
structure Confined (root : PA) (k k' : Kernel σ) : Prop where
  procs : k'.procs = k.procs
  other : ∀ r ≠ root, k'.pts r = k.pts r
  accounted : ∀ R, root ∈ R → k'.accounted R = k.accounted R

theorem Confined.refl (root : PA) (k : Kernel σ) : Confined root k k :=
  ⟨rfl, fun _ _ => rfl, fun _ _ => rfl⟩

theorem Confined.trans {k'' : Kernel σ} (h : Confined root k k') (h' : Confined root k' k'') :
    Confined root k k'' where
  procs := h'.procs.trans h.procs
  other r hr := (h'.other r hr).trans (h.other r hr)
  accounted R hR := (h'.accounted R hR).trans (h.accounted R hR)

/-- Tables, memory and swap do not matter. -/
theorem Confined.of_same (hfree : k'.freelist = k.freelist) (hprocs : k'.procs = k.procs)
    (hpts : k'.pts = k.pts) : Confined root k k' :=
  ⟨hprocs, fun _ _ => by rw [hpts], fun _ _ =>
    accounted_congr hfree (fun _ => by rw [hprocs]) fun _ _ => by rw [hpts]⟩

theorem Walked.procs (h : Walked root k k') : k'.procs = k.procs := by
  rw [h.rest]

theorem Walked.confined (h : Walked root k k') : Confined root k k' :=
  ⟨h.procs, h.other, h.accounted⟩

/-- The entry of the trampoline or the trapframe changes. -/
theorem setLeaf_confined (hv : vpn trapframeVa ≤ v) (e : Option Pte) :
    Confined root k (k.setLeaf root (v * pgSize) e) := by
  refine ⟨rfl, fun r hr => by simp [setLeaf, setPt, hr], fun R _ =>
    accounted_congr rfl (fun _ => rfl) fun r _ => ?_⟩
  by_cases hr : r = root
  · subst hr
    simp only [setLeaf, setPt, Function.update_self, vpn_mul]
    exact PageTable.pages_updateLeaf hv e
  · simp [setLeaf, setPt, hr]

/-- A page is unmapped and freed, or only unmapped if it is not a user page. -/
theorem unmapPage_confined {o : Option ProcIdx} {doFree : Bool}
    (hv : doFree = true ↔ v < vpn trapframeVa)
    (h : k.unmapPage o root doFree (v * pgSize) = .ok k') : Confined root k k' := by
  unfold unmapPage at h
  extract_lets k₁ at h
  have hconf : Confined root k k₁ := by
    simp only [k₁]
    split
    · exact .of_same rfl rfl rfl
    · exact .refl root k
  refine hconf.trans ?_
  clear_value k₁
  split at h
  · cases h
  split at h
  · obtain rfl := Except.ok.inj h
    exact .refl root k₁
  · rename_i e he
    have hleaf : (k₁.pts root).leaf v = some e := by
      unfold pteAt at he
      split at he
      · rwa [vpn_mul] at he
      · cases he
    cases doFree with
    | false =>
      obtain rfl := Except.ok.inj h
      exact setLeaf_confined (Nat.not_lt.1 fun hlt => by simpa using hv.2 hlt) none
    | true =>
      obtain ⟨k₂, hfree, h⟩ := bind_eq_ok.1 h
      obtain rfl := Except.ok.inj h
      have hk₂ := kfree_eq_ok hfree
      have hpts : k₂.pts = k₁.pts := by rw [hk₂]; rfl
      refine ⟨by rw [hk₂]; rfl, fun r hr => by simp [setLeaf, setPt, hr, hpts], fun R hR => ?_⟩
      rw [clearLeaf_accounted hR (hv.1 rfl) hleaf]
      exact accounted_cons (by rw [hk₂]; rfl) (by rw [hk₂]; rfl) (by rw [hk₂]; rfl)

/-- A page is taken, and put into the page table or given back. -/
theorem kalloc_confined {k₁ : Kernel σ} (hk : k.kalloc = (some pa, k₁))
    (hprocs : k'.procs = k₁.procs) (hother : ∀ r ≠ root, k'.pts r = k₁.pts r)
    (hacc : ∀ R, root ∈ R → k'.accounted R = insert pa (k₁.accounted R)) : Confined root k k' := by
  have htake := kalloc_accounted hk
  obtain ⟨l, -, rfl⟩ := kalloc_some hk
  exact ⟨hprocs, hother, fun R hR => (hacc R hR).trans (htake R).symm⟩

/-- `mappages` of the trampoline or the trapframe. -/
theorem mappages_confined {perm : Perm} {b : Bool} (hv : vpn trapframeVa ≤ v)
    (h : k.mappages root (v * pgSize) pa perm = .ok (b, k')) : Confined root k k' := by
  obtain ⟨k₁, hw, ⟨-, rfl⟩ | ⟨-, -, rfl⟩⟩ := mappages_walked h
  · exact hw.confined
  · exact hw.confined.trans (setLeaf_confined hv _)

theorem unmapLoop_confined {o : Option ProcIdx} (m : ℕ) (hv : v + m ≤ vpn trapframeVa)
    (h : unmapLoop o root true m (v * pgSize) k = .ok k') : Confined root k k' := by
  induction m generalizing v k with
  | zero =>
    obtain rfl := Except.ok.inj h
    exact .refl root k
  | succ m ih =>
    obtain ⟨k₁, h₁, h⟩ := bind_eq_ok.1 h
    have hnext : v * pgSize + pgSize = (v + 1) * pgSize := by ring
    rw [hnext] at h
    have hlt : v < vpn trapframeVa := by omega
    exact (unmapPage_confined (by simp [hlt]) h₁).trans (ih (by omega) h)

/-! ## Freeing a page table -/

/-- A step of `freewalk`: pages of the page table `root` are freed, and `pt` is left of it. -/
structure Pruned (root : PA) (pt : PageTable) (k k' : Kernel σ) : Prop where
  procs : k'.procs = k.procs
  other : ∀ r ≠ root, k'.pts r = k.pts r
  table : k'.pts root = pt
  accounted : ∀ R, root ∈ R → k'.accounted R = k.accounted R

theorem Pruned.trans {pt pt' : PageTable} {k'' : Kernel σ} (h : Pruned root pt k k')
    (h' : Pruned root pt' k' k'') : Pruned root pt' k k'' where
  procs := h'.procs.trans h.procs
  other r hr := (h'.other r hr).trans (h.other r hr)
  table := h'.table
  accounted R hR := (h'.accounted R hR).trans (h.accounted R hR)

theorem Pruned.refl (root : PA) (k : Kernel σ) : Pruned root (k.pts root) k k :=
  ⟨rfl, fun _ _ => rfl, rfl, fun _ _ => rfl⟩

theorem Pruned.congr {pt pt' : PageTable} (h : Pruned root pt k k')
    (hmid : ∀ i, pt'.mid i = pt.mid i) (hlow : ∀ j, pt'.low j = pt.low j)
    (hleaf : pt'.leaf = pt.leaf) : Pruned root pt' k k' := by
  obtain ⟨mid, low, leaf⟩ := pt
  obtain ⟨mid', low', leaf'⟩ := pt'
  obtain rfl : mid' = mid := funext hmid
  obtain rfl : low' = low := funext hlow
  obtain rfl : leaf' = leaf := hleaf
  exact h

/-- A page is taken out of the table and freed. -/
theorem kfree_pruned {pt : PageTable} (hpages : (k.pts root).pages = insert pa pt.pages)
    (h : (k.setPt root pt).kfree pa = .ok k') : Pruned root pt k k' := by
  have hk := kfree_eq_ok h
  refine ⟨by rw [hk]; rfl, fun r hr => ?_, ?_, fun R hR => ?_⟩
  · rw [hk]
    simp [fill, setPt, hr]
  · rw [hk]
    simp [fill, setPt]
  · rw [kfree_accounted h, ← accounted_takePt hR hpages]

theorem freewalkLowEntry_pruned {j : ℕ} (h : k.freewalkLowEntry root j = .ok k') :
    Pruned root { k.pts root with low := Function.update (k.pts root).low j none } k k' := by
  unfold freewalkLowEntry at h
  split at h
  · rename_i hj
    obtain rfl := Except.ok.inj h
    rw [← hj, Function.update_eq_self]
    exact .refl root k
  · rename_i pg hj
    unfold freewalkLeaves at h
    split at h
    · cases h
    · rw [kfree_bind_setPt k pg root fun pt =>
        { pt with low := Function.update pt.low j none }] at h
      exact kfree_pruned (PageTable.pages_clearLow hj) h

theorem freewalkLow_pruned (js : List ℕ) (h : k.freewalkLow root js = .ok k') :
    Pruned root { k.pts root with
      low := fun j => if j ∈ js then none else (k.pts root).low j } k k' := by
  induction js generalizing k with
  | nil =>
    obtain rfl := Except.ok.inj h
    simp only [List.not_mem_nil, if_false]
    exact .refl root k
  | cons j js ih =>
    rw [freewalkLow, List.foldlM_cons] at h
    obtain ⟨k₁, h₁, h⟩ := bind_eq_ok.1 h
    have hp₁ := freewalkLowEntry_pruned h₁
    refine (hp₁.trans (ih h)).congr (fun _ => ?_) (fun i => ?_) ?_
    · rw [hp₁.table]
    · rw [hp₁.table]
      by_cases hij : i = j
      · simp [hij]
      · simp [hij]
    · rw [hp₁.table]

/-- The pages below entry `i` of the root go, and the page of the entry itself. -/
theorem freewalkMidEntry_pruned {i : ℕ}
    (hlow : ∀ j pg, (k.pts root).low j = some pg → ((k.pts root).mid (j / 512)).isSome)
    (h : k.freewalkMidEntry root i = .ok k') :
    Pruned root
      { k.pts root with
        mid := Function.update (k.pts root).mid i none
        low := fun j => if j / 512 = i then none else (k.pts root).low j } k k' := by
  unfold freewalkMidEntry at h
  split at h
  · rename_i hi
    obtain rfl := Except.ok.inj h
    have hnone : (fun j => if j / 512 = i then none else (k.pts root).low j) =
        (k.pts root).low := by
      funext j
      split
      · rename_i hj
        cases hl : (k.pts root).low j with
        | none => rfl
        | some pg =>
          have := hlow j pg hl
          simp [hj, hi] at this
      · rfl
    rw [hnone, ← hi, Function.update_eq_self]
    exact .refl root k
  · rename_i pg hi
    obtain ⟨k₁, h₁, h⟩ := bind_eq_ok.1 h
    rw [kfree_bind_setPt k₁ pg root fun pt => { pt with mid := Function.update pt.mid i none }] at h
    have hp₁ := freewalkLow_pruned _ h₁
    have hp₂ := kfree_pruned (PageTable.pages_clearMid (by rw [hp₁.table]; exact hi)) h
    refine (hp₁.trans hp₂).congr (fun _ => ?_) (fun j => ?_) ?_
    · rw [hp₁.table]
    swap
    · rw [hp₁.table]
    rw [hp₁.table]
    have hmem : j ∈ (List.range 512).map (fun j => 512 * i + j) ↔ j / 512 = i := by
      simp only [List.mem_map, List.mem_range]
      constructor
      · rintro ⟨l, hl, rfl⟩
        omega
      · intro hj
        exact ⟨j % 512, Nat.mod_lt _ (by decide), by omega⟩
    simp only [hmem]

theorem freewalkMid_pruned (is : List ℕ)
    (hlow : ∀ j pg, (k.pts root).low j = some pg → ((k.pts root).mid (j / 512)).isSome)
    (h : k.freewalkMid root is = .ok k') :
    Pruned root
      { k.pts root with
        mid := fun i => if i ∈ is then none else (k.pts root).mid i
        low := fun j => if j / 512 ∈ is then none else (k.pts root).low j } k k' := by
  induction is generalizing k with
  | nil =>
    obtain rfl := Except.ok.inj h
    simp only [List.not_mem_nil, if_false]
    exact .refl root k
  | cons i is ih =>
    rw [freewalkMid, List.foldlM_cons] at h
    obtain ⟨k₁, h₁, h⟩ := bind_eq_ok.1 h
    have hp₁ := freewalkMidEntry_pruned hlow h₁
    have hlow₁ : ∀ j pg, (k₁.pts root).low j = some pg →
        ((k₁.pts root).mid (j / 512)).isSome := by
      rw [hp₁.table]
      intro j pg hj
      by_cases hji : j / 512 = i
      · simp [hji] at hj
      · simpa [hji] using hlow j pg (by simpa [hji] using hj)
    refine (hp₁.trans (ih hlow₁ h)).congr (fun l => ?_) (fun j => ?_) ?_
    · rw [hp₁.table]
      by_cases hl : l = i
      · simp [hl]
      · simp [hl]
    · rw [hp₁.table]
      by_cases hj : j / 512 = i
      · simp [hj]
      · simp [hj]
    · rw [hp₁.table]

theorem freewalk_other
    (hlow : ∀ j pg, (k.pts root).low j = some pg → ((k.pts root).mid (j / 512)).isSome)
    (h : k.freewalk root = .ok k') : k'.procs = k.procs ∧ ∀ r ≠ root, k'.pts r = k.pts r := by
  obtain ⟨k₁, h₁, h⟩ := bind_eq_ok.1 h
  have hp := freewalkMid_pruned _ hlow h₁
  obtain rfl := kfree_eq_ok h
  exact ⟨hp.procs, hp.other⟩

/-- `freewalk` on an empty page table frees all pages it has. -/
theorem freewalk_accounted (hleaf : ∀ v < vpn trapframeVa, (k.pts root).leaf v = none)
    (hmid : ∀ i pg, (k.pts root).mid i = some pg → i < 512)
    (hlow : ∀ j pg, (k.pts root).low j = some pg → ((k.pts root).mid (j / 512)).isSome)
    (h : k.freewalk root = .ok k') (R : Set PA) :
    k'.accounted R = k.accounted (insert root R) := by
  obtain ⟨k₁, h₁, h⟩ := bind_eq_ok.1 h
  have hp := freewalkMid_pruned _ hlow h₁
  have hempty : (k₁.pts root).pages = ∅ := by
    rw [hp.table]
    ext x
    simp only [PageTable.pages, Set.mem_ofPred_eq, Set.mem_empty_iff_false, iff_false,
      List.mem_range]
    rintro (⟨i, hi⟩ | ⟨j, hj⟩ | ⟨v, e, hv, he, -⟩)
    · split at hi
      · cases hi
      · rename_i hge
        exact hge (hmid i x hi)
    · split at hj
      · cases hj
      · rename_i hge
        obtain ⟨pg, hpg⟩ := Option.isSome_iff_exists.1 (hlow j x hj)
        exact hge (hmid _ pg hpg)
    · simp [hleaf v hv] at he
  rw [← hp.accounted _ (Set.mem_insert root R), kfree_accounted h]
  ext x
  simp only [accounted, Set.mem_ofPred_eq, Set.mem_insert_iff]
  constructor
  · rintro (rfl | hfree | htrap | ⟨r, hr, hx⟩)
    · exact .inr (.inr ⟨x, .inl rfl, .inl rfl⟩)
    · exact .inl hfree
    · exact .inr (.inl htrap)
    · exact .inr (.inr ⟨r, .inr hr, hx⟩)
  · rintro (hfree | htrap | ⟨r, rfl | hr, hx⟩)
    · exact .inr (.inl hfree)
    · exact .inr (.inr (.inl htrap))
    · rcases hx with rfl | hx
      · exact .inl rfl
      · simp [hempty] at hx
    · exact .inr (.inr (.inr ⟨r, hr, hx⟩))

end Kernel

end Xv6Swap.Paging
