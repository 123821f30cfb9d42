import Xv6Swap.Paging.Fault

/-!
# Address spaces

Growing, shrinking and freeing address spaces: `uvmunmap`, `uvmalloc`, `uvmdealloc`, `freewalk`,
`uvmfree` of `kernel/vm.c`, `growproc`, `proc_freepagetable`, `freeproc` of `kernel/proc.c` and
`sys_sbrk`, each run to completion. The current process (`myproc()`) is an argument `cur`.
-/

namespace Xv6Swap.Paging.Kernel

open Raid (Page pgSize)

variable {σ : Type}

/-! ## Unmapping -/

/-- One round of the loop of `uvmunmap`. `p` is the current process if the page table is its own,
and otherwise none. -/
def unmapPage (p : Option ProcIdx) (root : PA) (doFree : Bool) (a : ℕ) (k : Kernel σ) :
    Result (Kernel σ) :=
  let k := match doFree, p with
    | true, some p => { k with tables := k.tables.freeSwapEntry p a }
    | _, _ => k
  if maxVa ≤ a then .error .walk
  else
    match k.pteAt root a with
    | none => .ok k
    | some pte => do
      let k ← if doFree then
          ({ k with tables := k.tables.freeFrameEntry p a }).kfree pte.pa
        else pure k
      return k.setLeaf root a none

def unmapLoop (p : Option ProcIdx) (root : PA) (doFree : Bool) :
    ℕ → ℕ → Kernel σ → Result (Kernel σ)
  | 0, _, k => .ok k
  | n + 1, a, k => do
    let k ← k.unmapPage p root doFree a
    unmapLoop p root doFree n (a + pgSize) k

/-- The guard of `uvmunmap`: the swap map is cleaned up only for the process's own page table. -/
def unmapOwner (cur : ProcIdx) (root : PA) (k : Kernel σ) : Option ProcIdx :=
  if (k.procs cur).pagetable = some root then some cur else none

def uvmunmap (cur : ProcIdx) (root : PA) (va npages : ℕ) (doFree : Bool) (k : Kernel σ) :
    Result (Kernel σ) :=
  if va % pgSize ≠ 0 then .error .uvmunmapNotAligned
  else k.unmapLoop (k.unmapOwner cur root) root doFree npages va

/-! ## Growing and shrinking -/

/-- `uvmdealloc`: the new size. -/
def uvmdealloc (cur : ProcIdx) (root : PA) (oldsz newsz : ℕ) (k : Kernel σ) :
    Result (ℕ × Kernel σ) :=
  if oldsz ≤ newsz then .ok (oldsz, k)
  else if pgRoundUp newsz < pgRoundUp oldsz then do
    let npages := (pgRoundUp oldsz - pgRoundUp newsz) / pgSize
    let k ← k.uvmunmap cur root (pgRoundUp newsz) npages true
    return (newsz, k)
  else .ok (newsz, k)

/-- The loop of `uvmalloc` with the pages left; `a` is the next page and `oldsz` where it began. -/
def uvmallocLoop (cur : ProcIdx) (root : PA) (oldsz : ℕ) (perm : Perm) :
    ℕ → ℕ → Kernel σ → Result (Bool × Kernel σ)
  | 0, _, k => .ok (true, k)
  | n + 1, a, k =>
    match k.kalloc with
    | (none, k) => do
      let (_, k) ← k.uvmdealloc cur root a oldsz
      return (false, k)
    | (some pa, k) => do
      let (ok, k) ← (k.fill pa 0).mappages root a pa perm
      if ok = false then do
        let k ← k.kfree pa
        let (_, k) ← k.uvmdealloc cur root a oldsz
        return (false, k)
      else uvmallocLoop cur root oldsz perm n (a + pgSize) k

/-- `uvmalloc`: the new size, or none if it failed. `perm` is `PTE_R | PTE_U | xperm`. -/
def uvmalloc (cur : ProcIdx) (root : PA) (oldsz newsz : ℕ) (perm : Perm) (k : Kernel σ) :
    Result (Option ℕ × Kernel σ) :=
  if newsz < oldsz then .ok (some oldsz, k)
  else do
    let oldsz := pgRoundUp oldsz
    let npages := (pgRoundUp newsz - oldsz) / pgSize
    let (ok, k) ← k.uvmallocLoop cur root oldsz perm npages oldsz
    return (if ok then some newsz else none, k)

/-- `sz + n` in `uint64` -/
def addSize (sz : ℕ) (n : ℤ) : ℕ := ((sz + n) % 2 ^ 64).toNat

def growproc (cur : ProcIdx) (n : ℤ) (k : Kernel σ) : Result (Bool × Kernel σ) :=
  match (k.procs cur).pagetable with
  | none => .ok (false, k)
  | some root =>
    let sz := (k.procs cur).sz
    if 0 < n then
      if trapframeVa < addSize sz n then .ok (false, k)
      else do
        let (r, k) ← k.uvmalloc cur root sz (addSize sz n) .userRw
        match r with
        | none => return (false, k)
        | some sz => return (true, k.setProc cur fun proc => { proc with sz := sz })
    else if n < 0 then do
      let (sz, k) ← k.uvmdealloc cur root sz (addSize sz n)
      return (true, k.setProc cur fun proc => { proc with sz := sz })
    else .ok (true, k)

/-- `sys_sbrk`: the old size, or none for -1. -/
def sysSbrk (cur : ProcIdx) (n : ℤ) (eager : Bool) (k : Kernel σ) :
    Result (Option ℕ × Kernel σ) :=
  let addr := (k.procs cur).sz
  if eager || n < 0 then do
    let (ok, k) ← k.growproc cur n
    return (if ok then some addr else none, k)
  else if addSize addr n < addr then .ok (none, k)
  else if trapframeVa < addSize addr n then .ok (none, k)
  else .ok (some addr, k.setProc cur fun proc => { proc with sz := addSize addr n })

/-! ## Freeing -/

/-- `freewalk` on the third-level page `pg` that holds the leaves from `512 * j` on. -/
def freewalkLeaves (root : PA) (j : ℕ) (pg : PA) (k : Kernel σ) : Result (Kernel σ) :=
  if (List.range 512).any fun i => ((k.pts root).leaf (512 * j + i)).isSome then
    .error .freewalkLeaf
  else k.kfree pg

/-- The round of `freewalk` on a second-level page for its entry `j`. -/
def freewalkLowEntry (root : PA) (j : ℕ) (k : Kernel σ) : Result (Kernel σ) :=
  match (k.pts root).low j with
  | none => .ok k
  | some pg => do
    let k ← k.freewalkLeaves root j pg
    return k.setPt root { k.pts root with low := Function.update (k.pts root).low j none }

/-- The loop of `freewalk` on a second-level page, over the entries `js`. -/
def freewalkLow (root : PA) (js : List ℕ) (k : Kernel σ) : Result (Kernel σ) :=
  js.foldlM (fun k j => k.freewalkLowEntry root j) k

/-- The round of `freewalk` on the root for its entry `i`. -/
def freewalkMidEntry (root : PA) (i : ℕ) (k : Kernel σ) : Result (Kernel σ) :=
  match (k.pts root).mid i with
  | none => .ok k
  | some pg => do
    let k ← k.freewalkLow root ((List.range 512).map fun j => 512 * i + j)
    let k ← k.kfree pg
    return k.setPt root { k.pts root with mid := Function.update (k.pts root).mid i none }

/-- The loop of `freewalk` on the root, over the entries `is`. -/
def freewalkMid (root : PA) (is : List ℕ) (k : Kernel σ) : Result (Kernel σ) :=
  is.foldlM (fun k i => k.freewalkMidEntry root i) k

def freewalk (root : PA) (k : Kernel σ) : Result (Kernel σ) := do
  let k ← k.freewalkMid root (List.range 512)
  k.kfree root

def uvmfree (cur : ProcIdx) (root : PA) (sz : ℕ) (k : Kernel σ) : Result (Kernel σ) :=
  if 0 < sz then do
    let k ← k.uvmunmap cur root 0 (pgRoundUp sz / pgSize) true
    k.freewalk root
  else k.freewalk root

def procFreepagetable (cur : ProcIdx) (root : PA) (sz : ℕ) (k : Kernel σ) :
    Result (Kernel σ) := do
  let k ← k.uvmunmap cur root trampolineVa 1 false
  let k ← k.uvmunmap cur root trapframeVa 1 false
  k.uvmfree cur root sz

/-- The first part of `freeproc(q)`: the trapframe. -/
def freeTrapframe (q : ProcIdx) (k : Kernel σ) : Result (Kernel σ) :=
  match (k.procs q).trapframe with
  | none => .ok k
  | some pa => do
    let k ← k.kfree pa
    return k.setProc q fun proc => { proc with trapframe := none }

/-- The second part of `freeproc(q)`, called by `cur`: the address space. -/
def freePagetable (cur q : ProcIdx) (k : Kernel σ) : Result (Kernel σ) :=
  match (k.procs q).pagetable with
  | none => .ok k
  | some root =>
    ({ k with tables := k.tables.freeProcSwapSlots q }).procFreepagetable cur root (k.procs q).sz

/-- `freeproc(q)` called by `cur`. -/
def freeproc (cur q : ProcIdx) (k : Kernel σ) : Result (Kernel σ) := do
  let k ← k.freeTrapframe q
  let k ← k.freePagetable cur q
  return k.setProc q fun proc =>
    { proc with pagetable := none, sz := 0, xstate := 0, state := .unused }

/-! ## Freeing a page table -/

section Rel

variable {k k' : Kernel σ} {root : PA} {r : Kernel σ → Kernel σ → Prop}

/-- What every round of a loop keeps, the loop keeps. -/
theorem foldlM_rel (hrefl : ∀ k, r k k) (htrans : ∀ k₁ k₂ k₃, r k₁ k₂ → r k₂ k₃ → r k₁ k₃)
    {α : Type} {f : Kernel σ → α → Result (Kernel σ)} (hf : ∀ a k k', f k a = .ok k' → r k k')
    {l : List α} (h : l.foldlM f k = .ok k') : r k k' := by
  induction l generalizing k with
  | nil =>
    obtain rfl := Except.ok.inj h
    exact hrefl k
  | cons a l ih =>
    rw [List.foldlM_cons] at h
    obtain ⟨k₁, hk₁, h⟩ := bind_eq_ok.1 h
    exact htrans k k₁ k' (hf a k k₁ hk₁) (ih h)

/-- What `kfree` and the clearing of entries above the leaves keep, `freewalk` keeps. -/
theorem freewalk_rel (hrefl : ∀ k, r k k) (htrans : ∀ k₁ k₂ k₃, r k₁ k₂ → r k₂ k₃ → r k₁ k₃)
    (hfree : ∀ k pa k', k.kfree pa = .ok k' → r k k')
    (hset : ∀ k pt, pt.leaf = (k.pts root).leaf → r k (k.setPt root pt))
    (h : k.freewalk root = .ok k') : r k k' := by
  have hlow : ∀ j k k', k.freewalkLowEntry root j = .ok k' → r k k' := by
    intro j k k' h
    unfold freewalkLowEntry at h
    split at h
    · obtain rfl := Except.ok.inj h
      exact hrefl k
    · obtain ⟨k₁, hleaves, h⟩ := bind_eq_ok.1 h
      obtain rfl := Except.ok.inj h
      unfold freewalkLeaves at hleaves
      split at hleaves
      · cases hleaves
      · exact htrans _ k₁ _ (hfree _ _ _ hleaves) (hset k₁ _ rfl)
  have hmid : ∀ i k k', k.freewalkMidEntry root i = .ok k' → r k k' := by
    intro i k k' h
    unfold freewalkMidEntry at h
    split at h
    · obtain rfl := Except.ok.inj h
      exact hrefl k
    · obtain ⟨k₁, hloop, h⟩ := bind_eq_ok.1 h
      obtain ⟨k₂, hpage, h⟩ := bind_eq_ok.1 h
      obtain rfl := Except.ok.inj h
      have hk₁ : r k k₁ := foldlM_rel hrefl htrans hlow hloop
      exact htrans _ k₂ _ (htrans _ k₁ _ hk₁ (hfree _ _ _ hpage)) (hset k₂ _ rfl)
  obtain ⟨k₁, hloop, h⟩ := bind_eq_ok.1 h
  exact htrans _ k₁ _ (foldlM_rel hrefl htrans hmid hloop) (hfree _ _ _ h)

end Rel

end Xv6Swap.Paging.Kernel
