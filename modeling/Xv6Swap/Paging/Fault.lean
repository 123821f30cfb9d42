import Xv6Swap.Paging.Memory

/-!
# Page faults and eviction

`evict_one_user_frame`, `kalloc_user` and `free_user_frame` of `kernel/kalloc.c` and `vmfault` of
`kernel/vm.c`, each run to completion without interruption. They are composed of the critical
sections of `Tables` and the primitives of `Kernel`. An address that a function returns is `none`
for 0, and a result `-1` is `false`.
-/

namespace Xv6Swap.Paging.Kernel

open Raid (Page pgSize)

variable {σ : Type} (S : SwapOps σ)

/-- The levels of the processes. -/
def levels (k : Kernel σ) (p : ProcIdx) : ℤ := (k.procs p).level

/-- The page table of the process a victim belongs to. -/
def victimRoot (k : Kernel σ) (v : Victim) : Option PA :=
  v.proc.bind fun p => (k.procs p).pagetable

/-- The statistics after a successful eviction. -/
def countEviction (v : Victim) (k : Kernel σ) : Kernel σ :=
  match v.proc with
  | none => k
  | some p => k.setProc p fun proc =>
    { proc with
      pagesEvicted := proc.pagesEvicted + 1
      residentPages := if 0 < proc.residentPages then proc.residentPages - 1
        else proc.residentPages
      pagesSwappedOut := proc.pagesSwappedOut + 1 }

/-- `evict_one_user_frame` with the attempts left. -/
def evictLoop : ℕ → Kernel σ → Result (Bool × Kernel σ)
  | 0, k => .ok (false, k)
  | attempts + 1, k =>
    match k.tables.evictBegin k.levels with
    | (none, t) => .ok (false, { k with tables := t })
    | (some v, t) =>
      let k := { k with tables := t }
      match k.victimRoot v with
      | none => evictLoop attempts { k with tables := k.tables.evictAbort v }
      | some root =>
        if maxVa ≤ v.va then .error .walk
        else
          match k.pteAt root v.va with
          | none => evictLoop attempts { k with tables := k.tables.evictAbort v }
          | some pte =>
            let k := k.setLeaf root v.va none
            let (r, dev) := S.write v.slot (k.mem pte.pa) k.swap
            let k := { k with swap := dev }
            if r < 0 then
              .ok (false,
                { k.setLeaf root v.va (some pte) with tables := k.tables.evictUndo v })
            else do
              let k := ({ k with tables := k.tables.evictPublish v }).countEviction v
              let k ← k.kfree pte.pa
              return (true, k)

def evictOneUserFrame (k : Kernel σ) : Result (Bool × Kernel σ) :=
  evictLoop S maxFrames k

/-- `free_user_frame` -/
def freeUserFrame (p : ProcIdx) (va : ℕ) (pa : PA) (k : Kernel σ) : Result (Kernel σ) :=
  ({ k with tables := k.tables.freeFrameEntry (some p) va }).kfree pa

/-- The eviction at the start of a round of `kalloc_user`, if `need_evict`. -/
def evictIfNeeded (k : Kernel σ) : Result (Bool × Kernel σ) :=
  if k.tables.needEvict then k.evictOneUserFrame S else .ok (true, k)

/-- One round of the loop of `kalloc_user`: it returns, or goes on with another round (`none`). -/
def kallocUserRound (p : ProcIdx) (va : ℕ) (k : Kernel σ) :
    Result (Option (Option PA) × Kernel σ) := do
  let (ok, k) ← k.evictIfNeeded S
  if ok = false then return (some none, k)
  else
    match k.popFree with
    | (none, k) =>
      -- `can_retry`
      if k.tables.userFrameCount = 0 then return (some none, k)
      else do
        let (ok, k) ← k.evictOneUserFrame S
        return (if ok then none else some none, k)
    | (some pa, k) =>
      let k := k.fill pa 0
      match k.tables.registerUserFrame p va with
      | some t => return (some (some pa), { k with tables := t })
      | none => do
        let k ← k.kfree pa
        let (ok, k) ← k.evictOneUserFrame S
        return (if ok then none else some none, k)

/-- The loop of `kalloc_user` with the attempts left. -/
def kallocUserLoop (p : ProcIdx) (va : ℕ) : ℕ → Kernel σ → Result (Option PA × Kernel σ)
  | 0, k => .ok (none, k)
  | attempts + 1, k => do
    let (r, k) ← k.kallocUserRound S p va
    match r with
    | some r => return (r, k)
    | none => kallocUserLoop p va attempts k

def kallocUser (p : ProcIdx) (va : ℕ) (k : Kernel σ) : Result (Option PA × Kernel σ) :=
  kallocUserLoop S p va 2 k

/-- `swap_disk_read` into a page. A used entry always has a slot; reading slot -1 fails. -/
def readSwap (slot : Option SlotIdx) (pa : PA) (k : Kernel σ) : Bool × Kernel σ :=
  match slot with
  | none => (false, k)
  | some s =>
    let (r, dev, page) := S.read s (k.mem pa) k.swap
    (decide (0 ≤ r), { k with swap := dev, mem := Function.update k.mem pa page })

/-- The path of `vmfault` for a page in entry `i` of the swap map, at `slot`. -/
def swapIn (p : ProcIdx) (root : PA) (va : ℕ) (i : SlotIdx) (slot : Option SlotIdx)
    (k : Kernel σ) : Result (Option PA × Kernel σ) := do
  let (mem, k) ← k.kallocUser S p va
  match mem with
  | none => return (none, k)
  | some pa =>
    let (ok, k) := k.readSwap S slot pa
    if ok = false then do
      let k ← k.freeUserFrame p va pa
      return (none, k)
    else do
      let (ok, k) ← k.mappages root va pa .userRw
      if ok = false then do
        let k ← k.freeUserFrame p va pa
        return (none, k)
      else
        let k := { k with tables := (k.tables.setRefBit p va).releaseSwap i slot }
        return (some pa, k.setProc p fun proc =>
          { proc with
            pagesSwappedIn := proc.pagesSwappedIn + 1
            residentPages := proc.residentPages + 1 })

/-- The path of `vmfault` for a page that was never allocated. -/
def zeroFill (p : ProcIdx) (root : PA) (va : ℕ) (k : Kernel σ) :
    Result (Option PA × Kernel σ) := do
  let (mem, k) ← k.kallocUser S p va
  match mem with
  | none => return (none, k)
  | some pa =>
    let (ok, k) ← (k.fill pa 0).mappages root va pa .userRw
    if ok = false then do
      let k ← k.freeUserFrame p va pa
      return (none, k)
    else
      let k := { k with tables := k.tables.setRefBit p va }
      return (some pa, k.setProc p fun proc =>
        { proc with residentPages := proc.residentPages + 1 })

/-- `vmfault` by the current process `p` on its own page table, the only way it is called. -/
def vmfault (p : ProcIdx) (va : ℕ) (k : Kernel σ) : Result (Option PA × Kernel σ) :=
  match (k.procs p).pagetable with
  | none => .ok (none, k)
  | some root =>
    if (k.procs p).sz ≤ va then .ok (none, k)
    else do
      let va := pgRoundDown va
      let mapped ← k.ismapped root va
      if mapped then
        let k := { k with tables := k.tables.setRefBit p va }
        return (k.walkaddr root va, k)
      else
        let k := k.setProc p fun proc => { proc with pageFaults := proc.pageFaults + 1 }
        match k.tables.findSwap p va with
        | some i => k.swapIn S p root va i (k.tables.swapMap i).swapSlot
        | none => k.zeroFill S p root va

end Xv6Swap.Paging.Kernel
