import Xv6Swap.Paging.Tables
import Xv6Swap.Raid.Layout

/-!
# Physical memory and page tables

The memory side of the kernel state: the free list and the page allocator of `kernel/kalloc.c`, and
the page tables of `kernel/vm.c`. A page table is named by the physical address of its root page.
Its second- and third-level pages are real pages taken from the allocator (`mid` and `low`, by the
bits of the virtual address that select them); the entries of the third level are `leaf`, by virtual
page number. An entry that is zero is `none`.

A call of `panic` ends the computation with an error that names it.
-/

namespace Xv6Swap.Paging

open Raid (Page Byte pgSize)

/-- A physical address. -/
abbrev PA := ℕ

/-- One beyond the highest virtual address. -/
def maxVa : ℕ := 2 ^ 38

/-- `TRAMPOLINE` and `TRAPFRAME` -/
def trampolineVa : ℕ := maxVa - pgSize

def trapframeVa : ℕ := trampolineVa - pgSize

def phystop : PA := 0x88000000

def pgRoundUp (n : ℕ) : ℕ := (n + pgSize - 1) / pgSize * pgSize

def pgRoundDown (n : ℕ) : ℕ := n / pgSize * pgSize

/-- The permission bits of a page table entry. -/
structure Perm where
  r : Bool
  w : Bool
  x : Bool
  u : Bool
  deriving DecidableEq

/-- `PTE_W | PTE_U | PTE_R` -/
def Perm.userRw : Perm := ⟨true, true, false, true⟩

/-- A valid page table entry. -/
structure Pte where
  pa : PA
  perm : Perm
  deriving DecidableEq

structure PageTable where
  mid : ℕ → Option PA
  low : ℕ → Option PA
  leaf : ℕ → Option Pte

def PageTable.empty : PageTable := ⟨fun _ => none, fun _ => none, fun _ => none⟩

inductive ProcState
  | unused
  | used
  | sleeping
  | runnable
  | running
  | zombie
  deriving DecidableEq

/-- The fields of `struct proc` that the paging code uses. -/
structure Proc where
  state : ProcState
  sz : ℕ
  pagetable : Option PA
  trapframe : Option PA
  xstate : BitVec 32
  level : ℤ
  pageFaults : ℤ
  pagesEvicted : ℤ
  pagesSwappedIn : ℤ
  pagesSwappedOut : ℤ
  residentPages : ℤ

/-- `swap_disk_write` and `swap_disk_read` on a swap device with state `σ`. -/
structure SwapOps (σ : Type) where
  write : SlotIdx → Page → σ → ℤ × σ
  read : SlotIdx → Page → σ → ℤ × σ × Page

/-- The kernel state. `kernEnd` is the address `end` of the first page after the kernel, and
`trampoline` the page of the trampoline code. -/
structure Kernel (σ : Type) where
  tables : Tables
  freelist : List PA
  mem : PA → Page
  pts : PA → PageTable
  procs : ProcIdx → Proc
  swap : σ
  kernEnd : PA
  trampoline : PA

inductive Panic
  | kfree
  | walk
  | mappagesNotAligned
  | mappagesRemap
  | uvmunmapNotAligned
  | freewalkLeaf
  deriving DecidableEq

/-- The result of kernel code that may panic. -/
abbrev Result (α : Type) := Except Panic α

@[simp] theorem ok_bind {α β : Type} (a : α) (f : α → Result β) :
    (Except.ok a >>= f : Result β) = f a := rfl

/-- A computation that returns is made of computations that return. -/
theorem bind_eq_ok {α β : Type} {x : Result α} {f : α → Result β} {b : β} :
    x >>= f = .ok b ↔ ∃ a, x = .ok a ∧ f a = .ok b := by
  cases x with
  | error e => simp [Bind.bind, Except.bind]
  | ok a => simp

namespace Kernel

variable {σ : Type}

def setProc (k : Kernel σ) (p : ProcIdx) (f : Proc → Proc) : Kernel σ :=
  { k with procs := Function.update k.procs p (f (k.procs p)) }

def setPt (k : Kernel σ) (root : PA) (pt : PageTable) : Kernel σ :=
  { k with pts := Function.update k.pts root pt }

/-- `memset` of a whole page. -/
def fill (k : Kernel σ) (pa : PA) (b : Byte) : Kernel σ :=
  { k with mem := Function.update k.mem pa fun _ => b }

/-! ## The page allocator -/

/-- Take the first page off the free list. -/
def popFree (k : Kernel σ) : Option PA × Kernel σ :=
  match k.freelist with
  | [] => (none, k)
  | pa :: l => (some pa, { k with freelist := l })

def kalloc (k : Kernel σ) : Option PA × Kernel σ :=
  match k.popFree with
  | (none, k) => (none, k)
  | (some pa, k) => (some pa, k.fill pa 5)

def kfree (pa : PA) (k : Kernel σ) : Result (Kernel σ) :=
  if pa % pgSize ≠ 0 ∨ pa < k.kernEnd ∨ phystop ≤ pa then .error .kfree
  else .ok { k.fill pa 1 with freelist := pa :: k.freelist }

/-! ## Page tables -/

/-- The positions of a virtual address in the three levels. -/
def midIdx (va : ℕ) : ℕ := va / 2 ^ 30

def lowIdx (va : ℕ) : ℕ := va / 2 ^ 21

def vpn (va : ℕ) : ℕ := va / pgSize

/-- One level of `walk`: the page is there, or is allocated and cleared. -/
def walkMid (root : PA) (va : ℕ) (alloc : Bool) (k : Kernel σ) : Bool × Kernel σ :=
  match (k.pts root).mid (midIdx va), alloc with
  | some _, _ => (true, k)
  | none, false => (false, k)
  | none, true =>
    match k.kalloc with
    | (none, k) => (false, k)
    | (some pa, k) =>
      let k := k.fill pa 0
      (true, k.setPt root
        { k.pts root with mid := Function.update (k.pts root).mid (midIdx va) (some pa) })

def walkLow (root : PA) (va : ℕ) (alloc : Bool) (k : Kernel σ) : Bool × Kernel σ :=
  match (k.pts root).low (lowIdx va), alloc with
  | some _, _ => (true, k)
  | none, false => (false, k)
  | none, true =>
    match k.kalloc with
    | (none, k) => (false, k)
    | (some pa, k) =>
      let k := k.fill pa 0
      (true, k.setPt root
        { k.pts root with low := Function.update (k.pts root).low (lowIdx va) (some pa) })

/-- `walk`: whether there is a leaf entry for `va` (or a null pointer is returned). -/
def walk (root : PA) (va : ℕ) (alloc : Bool) (k : Kernel σ) : Result (Bool × Kernel σ) :=
  if maxVa ≤ va then .error .walk
  else
    match k.walkMid root va alloc with
    | (false, k) => .ok (false, k)
    | (true, k) => .ok (k.walkLow root va alloc)

/-- The leaf entry that `walk` without allocation leads to. -/
def pteAt (k : Kernel σ) (root : PA) (va : ℕ) : Option Pte :=
  if ((k.pts root).mid (midIdx va)).isSome ∧ ((k.pts root).low (lowIdx va)).isSome then
    (k.pts root).leaf (vpn va)
  else none

def setLeaf (k : Kernel σ) (root : PA) (va : ℕ) (pte : Option Pte) : Kernel σ :=
  k.setPt root { k.pts root with leaf := Function.update (k.pts root).leaf (vpn va) pte }

def ismapped (root : PA) (va : ℕ) (k : Kernel σ) : Result Bool :=
  if maxVa ≤ va then .error .walk else .ok (k.pteAt root va).isSome

/-- `walkaddr`, with `none` for the address 0. -/
def walkaddr (root : PA) (va : ℕ) (k : Kernel σ) : Option PA :=
  if maxVa ≤ va then none
  else
    match k.pteAt root va with
    | some pte => if pte.perm.u then some pte.pa else none
    | none => none

/-- `mappages` for one page, the only size it is called with on user page tables. -/
def mappages (root : PA) (va : ℕ) (pa : PA) (perm : Perm) (k : Kernel σ) :
    Result (Bool × Kernel σ) :=
  if va % pgSize ≠ 0 then .error .mappagesNotAligned
  else do
    let (found, k) ← k.walk root va true
    if found = false then return (false, k)
    else if ((k.pts root).leaf (vpn va)).isSome then throw .mappagesRemap
    else return (true, k.setLeaf root va (some ⟨pa, perm⟩))

/-! ## What the functions come down to -/

variable {k k' : Kernel σ} {root pa : PA} {va : ℕ} {alloc b : Bool}

theorem kalloc_none (hk : k.kalloc = (none, k')) : k' = k := by
  unfold kalloc popFree at hk
  cases hf : k.freelist with
  | nil => simpa [hf] using hk.symm
  | cons a l => simp [hf] at hk

theorem kalloc_some (hk : k.kalloc = (some pa, k')) :
    ∃ l, k.freelist = pa :: l ∧ k' = ({ k with freelist := l }).fill pa 5 := by
  unfold kalloc popFree at hk
  cases hf : k.freelist with
  | nil => simp [hf] at hk
  | cons a l =>
    simp only [hf, Prod.mk.injEq, Option.some.injEq] at hk
    obtain ⟨rfl, rfl⟩ := hk
    exact ⟨l, rfl, rfl⟩

theorem kalloc_pts {r : Option PA} (hk : k.kalloc = (r, k')) : k'.pts = k.pts := by
  cases r with
  | none => rw [kalloc_none hk]
  | some pa =>
    obtain ⟨l, -, rfl⟩ := kalloc_some hk
    rfl

theorem kfree_eq_ok (hk : k.kfree pa = .ok k') :
    k' = { k.fill pa 1 with freelist := pa :: k.freelist } := by
  unfold kfree at hk
  split at hk
  · cases hk
  · exact (Except.ok.inj hk).symm

/-- A level of `walk` changes nothing, or adds a cleared page that was free. -/
theorem walkMid_cases (h : k.walkMid root va alloc = (b, k')) :
    k' = k ∧ (b = true → ((k.pts root).mid (midIdx va)).isSome) ∨
      b = true ∧ (k.pts root).mid (midIdx va) = none ∧ ∃ pa k₁, k.kalloc = (some pa, k₁) ∧
        k' = (k₁.fill pa 0).setPt root
          { k.pts root with mid := Function.update (k.pts root).mid (midIdx va) (some pa) } := by
  unfold walkMid at h
  split at h
  · rename_i hmid
    obtain ⟨-, rfl⟩ := Prod.mk.inj h
    exact .inl ⟨rfl, fun _ => Option.isSome_of_mem hmid⟩
  · obtain ⟨rfl, rfl⟩ := Prod.mk.inj h
    exact .inl ⟨rfl, nofun⟩
  · rename_i hmid
    split at h
    · rename_i hk
      obtain ⟨rfl, rfl⟩ := Prod.mk.inj h
      exact .inl ⟨kalloc_none hk, nofun⟩
    · rename_i pa k₁ hk
      obtain ⟨rfl, rfl⟩ := Prod.mk.inj h
      have hpts : (k₁.fill pa 0).pts = k.pts := show k₁.pts = k.pts from kalloc_pts hk
      exact .inr ⟨rfl, hmid, pa, k₁, hk, by rw [hpts]⟩

theorem walkLow_cases (h : k.walkLow root va alloc = (b, k')) :
    k' = k ∧ (b = true → ((k.pts root).low (lowIdx va)).isSome) ∨
      b = true ∧ (k.pts root).low (lowIdx va) = none ∧ ∃ pa k₁, k.kalloc = (some pa, k₁) ∧
        k' = (k₁.fill pa 0).setPt root
          { k.pts root with low := Function.update (k.pts root).low (lowIdx va) (some pa) } := by
  unfold walkLow at h
  split at h
  · rename_i hlow
    obtain ⟨-, rfl⟩ := Prod.mk.inj h
    exact .inl ⟨rfl, fun _ => Option.isSome_of_mem hlow⟩
  · obtain ⟨rfl, rfl⟩ := Prod.mk.inj h
    exact .inl ⟨rfl, nofun⟩
  · rename_i hlow
    split at h
    · rename_i hk
      obtain ⟨rfl, rfl⟩ := Prod.mk.inj h
      exact .inl ⟨kalloc_none hk, nofun⟩
    · rename_i pa k₁ hk
      obtain ⟨rfl, rfl⟩ := Prod.mk.inj h
      have hpts : (k₁.fill pa 0).pts = k.pts := show k₁.pts = k.pts from kalloc_pts hk
      exact .inr ⟨rfl, hlow, pa, k₁, hk, by rw [hpts]⟩

theorem walk_cases (h : k.walk root va alloc = .ok (b, k')) :
    va < maxVa ∧ (b = false ∧ k.walkMid root va alloc = (false, k') ∨
      ∃ k₁, k.walkMid root va alloc = (true, k₁) ∧ k₁.walkLow root va alloc = (b, k')) := by
  unfold walk at h
  split at h
  · cases h
  · rename_i hva
    refine ⟨not_le.1 hva, ?_⟩
    split at h
    · rename_i hmid
      obtain ⟨rfl, rfl⟩ := Prod.mk.inj (Except.ok.inj h)
      exact .inl ⟨rfl, hmid⟩
    · rename_i k₁ hmid
      exact .inr ⟨k₁, hmid, Except.ok.inj h⟩

/-- What a new page-table page keeps, `walk` keeps. -/
theorem walk_rel {r : Kernel σ → Kernel σ → Prop} (hrefl : ∀ k, r k k)
    (htrans : ∀ k₁ k₂ k₃, r k₁ k₂ → r k₂ k₃ → r k₁ k₃)
    (hnew : ∀ k pa k₁ pt, k.kalloc = (some pa, k₁) → pt.leaf = (k.pts root).leaf →
      r k ((k₁.fill pa 0).setPt root pt)) (h : k.walk root va alloc = .ok (b, k')) : r k k' := by
  have hmid : ∀ {b k₁}, k.walkMid root va alloc = (b, k₁) → r k k₁ := by
    intro b k₁ h
    obtain ⟨rfl, -⟩ | ⟨-, -, pa, k₂, hk, rfl⟩ := walkMid_cases h
    · exact hrefl _
    · exact hnew k pa k₂ _ hk rfl
  obtain ⟨-, ⟨-, h⟩ | ⟨k₁, h₁, h⟩⟩ := walk_cases h
  · exact hmid h
  · refine htrans k k₁ k' (hmid h₁) ?_
    obtain ⟨rfl, -⟩ | ⟨-, -, pa, k₂, hk, rfl⟩ := walkLow_cases h
    · exact hrefl _
    · exact hnew k₁ pa k₂ _ hk rfl

/-- `mappages` is a walk, and the entry is set if the walk has found its page. -/
theorem mappages_cases {perm : Perm} (h : k.mappages root va pa perm = .ok (b, k')) :
    ∃ k₁, k.walk root va true = .ok (b, k₁) ∧ (b = false ∧ k' = k₁ ∨
      b = true ∧ (k₁.pts root).leaf (vpn va) = none ∧
        k' = k₁.setLeaf root va (some ⟨pa, perm⟩)) := by
  unfold mappages at h
  split at h
  · cases h
  · obtain ⟨⟨found, k₁⟩, hwalk, h⟩ := bind_eq_ok.1 h
    cases found with
    | false =>
      obtain ⟨rfl, rfl⟩ := Prod.mk.inj (Except.ok.inj h)
      exact ⟨k₁, hwalk, .inl ⟨rfl, rfl⟩⟩
    | true =>
      simp only [Bool.true_eq_false, if_false] at h
      split at h
      · cases h
      · rename_i hleaf
        obtain ⟨rfl, rfl⟩ := Prod.mk.inj (Except.ok.inj h)
        exact ⟨k₁, hwalk, .inr ⟨rfl, by simpa using hleaf, rfl⟩⟩

end Kernel

end Xv6Swap.Paging
