import Xv6Swap.Paging.Fault

/-!
# Page faults in steps

`evict_one_user_frame`, `kalloc_user` and `vmfault` cut into atomic steps, so that the code of other
processes can run in between. A step is a critical section of `frame_lock` or `kmem.lock`, an access
to a page table, or a swap disk transfer, together with the code around it that only concerns the
process itself. Where the code is between two steps is a program counter with the values of the
local variables; a step leads to the next one or returns.
-/

namespace Xv6Swap.Paging

open Raid (Page pgSize)

/-- Where a step leads: on to another one, or back to the caller. -/
inductive Next (α β : Type)
  | go (pc : α)
  | ret (r : β)

/-! ## Eviction -/

/-- The points inside `evict_one_user_frame`, with the attempts left where the loop may go on. -/
inductive EvictPc
  | select (attempts : ℕ)
  | update (attempts : ℕ) (v : Victim)
  | abort (attempts : ℕ) (v : Victim)
  | write (v : Victim) (root : PA) (pte : Pte)
  | restore (v : Victim) (root : PA) (pte : Pte)
  | undo (v : Victim)
  | publish (v : Victim) (pa : PA)
  | free (v : Victim) (pa : PA)
  deriving DecidableEq

/-- The points inside `kalloc_user`. `again` tells whether a new round follows the eviction. -/
inductive AllocPc
  | need (attempts : ℕ)
  | evict (attempts : ℕ) (again : Bool) (pc : EvictPc)
  | pop (attempts : ℕ)
  | canRetry (attempts : ℕ)
  | register (attempts : ℕ) (pa : PA)
  | giveBack (attempts : ℕ) (pa : PA)
  deriving DecidableEq

/-- `found_swap` and `swap_slot` in `vmfault` -/
abbrev Found := Option (SlotIdx × Option SlotIdx)

/-- The points inside `vmfault`. -/
inductive FaultPc
  | enter
  | touch
  | addr
  | lookup
  | alloc (found : Found) (pc : AllocPc)
  | read (i : SlotIdx) (slot : Option SlotIdx) (pa : PA)
  | map (found : Found) (pa : PA)
  | drop (pa : PA)
  | dropFree (pa : PA)
  | finish (found : Found) (pa : PA)
  deriving DecidableEq

namespace Kernel

variable {σ : Type} (S : SwapOps σ)

/-- The access of an eviction to the page table of its victim: the entry is read and cleared. -/
def evictUpdate (attempts : ℕ) (v : Victim) (k : Kernel σ) :
    Result (Next EvictPc Bool × Kernel σ) :=
  match k.victimRoot v with
  | none => .ok (.go (.abort attempts v), k)
  | some root =>
    if maxVa ≤ v.va then .error .walk
    else
      match k.pteAt root v.va with
      | none => .ok (.go (.abort attempts v), k)
      | some pte => .ok (.go (.write v root pte), k.setLeaf root v.va none)

/-- The section that selects a victim, if there are attempts left. -/
def evictSelect (k : Kernel σ) : ℕ → Next EvictPc Bool × Kernel σ
  | 0 => (.ret false, k)
  | attempts + 1 =>
    match k.tables.evictBegin k.levels with
    | (none, t) => (.ret false, { k with tables := t })
    | (some v, t) => (.go (.update attempts v), { k with tables := t })

def evictNext (k : Kernel σ) : EvictPc → Result (Next EvictPc Bool × Kernel σ)
  | .select attempts => .ok (k.evictSelect attempts)
  | .update attempts v => k.evictUpdate attempts v
  | .abort attempts v =>
    .ok (.go (.select attempts), { k with tables := k.tables.evictAbort v })
  | .write v root pte =>
    let (r, dev) := S.write v.slot (k.mem pte.pa) k.swap
    .ok (.go (if r < 0 then .restore v root pte else .publish v pte.pa), { k with swap := dev })
  | .restore v root pte => .ok (.go (.undo v), k.setLeaf root v.va (some pte))
  | .undo v => .ok (.ret false, { k with tables := k.tables.evictUndo v })
  | .publish v pa => .ok (.go (.free v pa), { k with tables := k.tables.evictPublish v })
  | .free v pa => do
    let k ← (k.countEviction v).kfree pa
    return (.ret true, k)

/-! ## Allocation -/

/-- The next round of the loop of `kalloc_user`, if there are attempts left. -/
def allocRound : ℕ → Next AllocPc (Option PA)
  | 0 => .ret none
  | attempts + 1 => .go (.need attempts)

/-- How `kalloc_user` goes on with the result of `evict_one_user_frame`. -/
def allocEvicted (attempts : ℕ) (again : Bool) :
    Next EvictPc Bool → Next AllocPc (Option PA)
  | .go e => .go (.evict attempts again e)
  | .ret false => .ret none
  | .ret true => if again then allocRound attempts else .go (.pop attempts)

/-- A page from the free list, filled with zeros. -/
def allocPop (attempts : ℕ) (k : Kernel σ) : Next AllocPc (Option PA) × Kernel σ :=
  match k.popFree with
  | (none, k) => (.go (.canRetry attempts), k)
  | (some pa, k) => (.go (.register attempts pa), k.fill pa 0)

/-- The section that registers the frame. -/
def allocRegister (p : ProcIdx) (va attempts : ℕ) (pa : PA) (k : Kernel σ) :
    Next AllocPc (Option PA) × Kernel σ :=
  match k.tables.registerUserFrame p va with
  | some t => (.ret (some pa), { k with tables := t })
  | none => (.go (.giveBack attempts pa), k)

def allocNext (p : ProcIdx) (va : ℕ) (k : Kernel σ) :
    AllocPc → Result (Next AllocPc (Option PA) × Kernel σ)
  | .need attempts =>
    .ok (.go (if k.tables.needEvict then .evict attempts false (.select maxFrames)
      else .pop attempts), k)
  | .evict attempts again e => do
    let (next, k) ← k.evictNext S e
    return (allocEvicted attempts again next, k)
  | .pop attempts => .ok (k.allocPop attempts)
  | .canRetry attempts =>
    .ok (if k.tables.userFrameCount = 0 then .ret none
      else .go (.evict attempts true (.select maxFrames)), k)
  | .register attempts pa => .ok (k.allocRegister p va attempts pa)
  | .giveBack attempts pa => do
    let k ← k.kfree pa
    return (.go (.evict attempts true (.select maxFrames)), k)

/-! ## Page faults -/

/-- How `vmfault` goes on with the result of `kalloc_user`. -/
def faultAlloced (found : Found) :
    Next AllocPc (Option PA) → Next FaultPc (Option PA)
  | .go a => .go (.alloc found a)
  | .ret none => .ret none
  | .ret (some pa) =>
    match found with
    | some (i, slot) => .go (.read i slot pa)
    | none => .go (.map none pa)

/-- The page is entered into the page table; before, the page of a lazy allocation is cleared. -/
def faultMap (p : ProcIdx) (va : ℕ) (found : Found) (pa : PA) (k : Kernel σ) :
    Result (Next FaultPc (Option PA) × Kernel σ) :=
  match (k.procs p).pagetable with
  | none => .ok (.ret none, k)
  | some root => do
    let k := if found.isSome then k else k.fill pa 0
    let (ok, k) ← k.mappages root va pa .userRw
    return (.go (if ok then .finish found pa else .drop pa), k)

/-- The last section of `vmfault` and the statistics. -/
def faultFinish (p : ProcIdx) (va : ℕ) (found : Found) (k : Kernel σ) : Kernel σ :=
  match found with
  | some (i, slot) =>
    ({ k with tables := (k.tables.setRefBit p va).releaseSwap i slot }).setProc p fun proc =>
      { proc with
        pagesSwappedIn := proc.pagesSwappedIn + 1
        residentPages := proc.residentPages + 1 }
  | none =>
    ({ k with tables := k.tables.setRefBit p va }).setProc p fun proc =>
      { proc with residentPages := proc.residentPages + 1 }

/-- The start of `vmfault`: the checks, and whether the page is mapped. -/
def faultEnter (p : ProcIdx) (va : ℕ) (k : Kernel σ) :
    Result (Next FaultPc (Option PA) × Kernel σ) :=
  match (k.procs p).pagetable with
  | none => .ok (.ret none, k)
  | some root =>
    if (k.procs p).sz ≤ va then .ok (.ret none, k)
    else do
      let mapped ← k.ismapped root (pgRoundDown va)
      if mapped then return (.go .touch, k)
      else return (.go .lookup,
        k.setProc p fun proc => { proc with pageFaults := proc.pageFaults + 1 })

/-- `vmfault` by the process `p` for the address `va`. -/
def faultNext (p : ProcIdx) (va : ℕ) (k : Kernel σ) :
    FaultPc → Result (Next FaultPc (Option PA) × Kernel σ)
  | .enter => k.faultEnter p va
  | .touch => .ok (.go .addr, { k with tables := k.tables.setRefBit p (pgRoundDown va) })
  | .addr => .ok (.ret ((k.procs p).pagetable.bind fun root => k.walkaddr root (pgRoundDown va)), k)
  | .lookup =>
    .ok (.go (.alloc ((k.tables.findSwap p (pgRoundDown va)).map fun i =>
      (i, (k.tables.swapMap i).swapSlot)) (.need 1)), k)
  | .alloc found a => do
    let (next, k) ← k.allocNext S p (pgRoundDown va) a
    return (faultAlloced found next, k)
  | .read i slot pa =>
    let (ok, k) := k.readSwap S slot pa
    .ok (.go (if ok then .map (some (i, slot)) pa else .drop pa), k)
  | .map found pa => k.faultMap p (pgRoundDown va) found pa
  | .drop pa =>
    .ok (.go (.dropFree pa),
      { k with tables := k.tables.freeFrameEntry (some p) (pgRoundDown va) })
  | .dropFree pa => do
    let k ← k.kfree pa
    return (.ret none, k)
  | .finish found pa => .ok (.ret (some pa), k.faultFinish p (pgRoundDown va) found)

end Kernel

end Xv6Swap.Paging
