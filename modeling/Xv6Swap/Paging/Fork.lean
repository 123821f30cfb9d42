import Xv6Swap.Threads.Space

/-!
# `fork`, run to completion

`uvmcopy` of `kernel/vm.c` and `kfork` of `kernel/proc.c` without interference from other processes.
The loop of `uvmcopy` has three kinds of pages: a resident page is copied to a new page of the
child, a page in swap is copied to a new slot by way of a temporary page, and a page that was never
touched is skipped. After a failure the child's resident pages are unmapped; its slots are left to
`freeproc`.
-/

namespace Xv6Swap.Paging.Kernel

open Raid (Page pgSize)

variable {σ : Type} (S : SwapOps σ)

/-- A resident page of the parent is copied and mapped in the page table `new` of the child. -/
def copyMapped (new : PA) (i : ℕ) (pte : Pte) (k : Kernel σ) : Result (Bool × Kernel σ) :=
  match k.kalloc with
  | (none, k) => .ok (false, k)
  | (some mem, k) => do
    let k := { k with mem := Function.update k.mem mem (k.mem pte.pa) }
    let (ok, k) ← k.mappages new (i * pgSize) mem pte.perm
    if ok = false then do
      let k ← k.kfree mem
      return (false, k)
    else return (true, k)

/-- The page `tmp` is written to a new slot of the child and freed. -/
def copyToSlot (child : ProcIdx) (i : ℕ) (tmp : PA) (k : Kernel σ) : Result (Bool × Kernel σ) :=
  match k.tables.reserveSlot with
  | none => do
    let k ← k.kfree tmp
    return (false, k)
  | some (dst, t) =>
    let (r, dev) := S.write dst (k.mem tmp) k.swap
    let k := { k with tables := t, swap := dev }
    if r < 0 then do
      let k ← ({ k with tables := k.tables.setSwapUsed dst false }).kfree tmp
      return (false, k)
    else do
      let k ← k.kfree tmp
      let (inserted, t) := k.tables.insertSwap child (i * pgSize) dst
      return (inserted, { k with tables := t })

/-- A page of the parent in the slot `src` is copied to a slot of the child. -/
def copySwapped (child : ProcIdx) (i : ℕ) (src : SlotIdx) (k : Kernel σ) :
    Result (Bool × Kernel σ) :=
  match k.kalloc with
  | (none, k) => .ok (false, k)
  | (some tmp, k) =>
    let (ok, k) := k.readSwap S (some src) tmp
    if ok = false then do
      let k ← k.kfree tmp
      return (false, k)
    else k.copyToSlot S child i tmp

/-- One round of the loop of `uvmcopy`, for page `i`. -/
def uvmcopyPage (parent child : ProcIdx) (old new : PA) (i : ℕ) (k : Kernel σ) :
    Result (Bool × Kernel σ) :=
  if maxVa ≤ i * pgSize then .error .walk
  else
    match k.pteAt old (i * pgSize) with
    | some pte => k.copyMapped new i pte
    | none =>
      match (k.tables.findSwap parent (i * pgSize)).bind fun s => (k.tables.swapMap s).swapSlot with
      | some src => k.copySwapped S child i src
      | none => .ok (true, k)

/-- The loop of `uvmcopy` with the pages left, at page `i`. -/
def uvmcopyLoop (parent child : ProcIdx) (old new : PA) :
    ℕ → ℕ → Kernel σ → Result (Bool × Kernel σ)
  | 0, _, k => .ok (true, k)
  | n + 1, i, k => do
    let (ok, k) ← k.uvmcopyPage S parent child old new i
    if ok = false then do
      let k ← k.uvmunmap parent new 0 i true
      return (false, k)
    else uvmcopyLoop parent child old new n (i + 1) k

/-- `uvmcopy` by the process `parent`: whether it succeeded. -/
def uvmcopy (parent child : ProcIdx) (old new : PA) (sz : ℕ) (k : Kernel σ) :
    Result (Bool × Kernel σ) :=
  k.uvmcopyLoop S parent child old new (pgRoundUp sz / pgSize) 0

/-- The search of `allocproc` for a process that is not in use. -/
def findUnused (k : Kernel σ) : Option ProcIdx :=
  Fin.find? fun q => decide ((k.procs q).state = .unused)

/-- `kfork` by `p`: the child, or none for -1. -/
def kfork (p : ProcIdx) (k : Kernel σ) : Result (Option ProcIdx × Kernel σ) :=
  match k.findUnused with
  | none => .ok (none, k)
  | some q => do
    let (ok, k) ← k.allocproc p q
    if ok = false then return (none, k)
    else
      match (k.procs p).pagetable, (k.procs q).pagetable with
      | some old, some new => do
        let (ok, k) ← k.uvmcopy S p q old new (k.procs p).sz
        if ok = false then do
          let k ← k.freeproc p q
          return (none, k)
        else return (some q, k.forkDone p q)
      | _, _ => return (none, k)

end Xv6Swap.Paging.Kernel
