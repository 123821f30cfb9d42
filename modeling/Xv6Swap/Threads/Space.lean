import Xv6Swap.Paging.Space
import Xv6Swap.Threads.Fault

/-!
# Address spaces in steps

`uvmunmap`, `uvmalloc`, `freeproc`, `allocproc` and `uvmcopy` cut into atomic steps, as the page
fault in `Threads.Fault`. `allocproc` is one step: the lock of the new process is held, and there is
no section of `frame_lock` in it.
-/

namespace Xv6Swap.Paging

open Raid (Page pgSize)

/-! ## Unmapping -/

/-- The points inside the loop of `uvmunmap` with `do_free`, at the page `a` with `n` more pages to
follow. -/
inductive UnmapPc
  | swap (a n : ℕ)
  | look (a n : ℕ)
  | frame (a n : ℕ) (pte : Pte)
  | clear (a n : ℕ) (pte : Pte)
  deriving DecidableEq

/-- A call of `uvmunmap` with `do_free`: whose entries are cleaned up, and the page table. -/
structure Unmapping where
  owner : Option ProcIdx
  root : PA
  pc : UnmapPc
  deriving DecidableEq

/-- The points inside `freeproc`. -/
inductive FreePc
  | trapframe
  | slots
  | detach
  | pages (u : Unmapping)
  | walk (root : PA)
  | reset
  deriving DecidableEq

/-- The points inside `uvmcopy` and the rest of `kfork`, at the page number `i`. -/
inductive ForkPc
  | page (i : ℕ)
  | lookup (i : ℕ)
  | read (i : ℕ) (src : SlotIdx)
  | reserve (i : ℕ) (tmp : PA)
  | write (i : ℕ) (tmp : PA) (dst : SlotIdx)
  | unreserve (i : ℕ) (tmp : PA) (dst : SlotIdx)
  | insert (i : ℕ) (dst : SlotIdx)
  | err (i : ℕ)
  | undo (u : Unmapping)
  | free (pc : FreePc)
  deriving DecidableEq

/-- The points inside `growproc`, which ends with the size `sz`: allocating the page `a` with `n`
more to follow, and unmapping. After a failed allocation the size is left alone (`none`). -/
inductive GrowPc
  | alloc (root : PA) (oldsz sz a n : ℕ)
  | unmap (sz : Option ℕ) (u : Unmapping)
  deriving DecidableEq

namespace Kernel

variable {σ : Type} (S : SwapOps σ)

/-- The next page of the loop of `uvmunmap`, with the pages left. -/
def unmapRound (owner : Option ProcIdx) (root : PA) (a : ℕ) : ℕ → Next Unmapping Unit
  | 0 => .ret ()
  | n + 1 => .go ⟨owner, root, if owner.isSome then .swap a n else .look a n⟩

/-- The start of `uvmunmap` with `do_free`, called by `cur`. -/
def unmapStart (cur : ProcIdx) (root : PA) (a n : ℕ) (k : Kernel σ) : Next Unmapping Unit :=
  unmapRound (k.unmapOwner cur root) root a n

def unmapNext (u : Unmapping) (k : Kernel σ) : Result (Next Unmapping Unit × Kernel σ) :=
  match u.pc with
  | .swap a n =>
    .ok (.go { u with pc := .look a n }, match u.owner with
      | some p => { k with tables := k.tables.freeSwapEntry p a }
      | none => k)
  | .look a n =>
    if maxVa ≤ a then .error .walk
    else
      match k.pteAt u.root a with
      | none => .ok (unmapRound u.owner u.root (a + pgSize) n, k)
      | some pte => .ok (.go { u with pc := .frame a n pte }, k)
  | .frame a n pte =>
    .ok (.go { u with pc := .clear a n pte },
      { k with tables := k.tables.freeFrameEntry u.owner a })
  | .clear a n pte => do
    let k ← k.kfree pte.pa
    return (unmapRound u.owner u.root (a + pgSize) n, k.setLeaf u.root a none)

/-! ## Growing and shrinking -/

/-- How `growproc` goes on after a step of `uvmunmap`. -/
def growUnmapped (sz : Option ℕ) : Next Unmapping Unit → Next GrowPc (Option ℕ)
  | .go u => .go (.unmap sz u)
  | .ret _ => .ret sz

/-- `uvmdealloc` at the end of which `growproc` returns with `sz`. -/
def deallocStart (cur : ProcIdx) (root : PA) (oldsz newsz : ℕ) (sz : Option ℕ) (k : Kernel σ) :
    Next GrowPc (Option ℕ) :=
  if newsz < oldsz ∧ pgRoundUp newsz < pgRoundUp oldsz then
    growUnmapped sz (k.unmapStart cur root (pgRoundUp newsz)
      ((pgRoundUp oldsz - pgRoundUp newsz) / pgSize))
  else .ret sz

/-- The next page of the loop of `uvmalloc`, with the pages left. -/
def growRound (root : PA) (oldsz sz a : ℕ) : ℕ → Next GrowPc (Option ℕ)
  | 0 => .ret (some sz)
  | n + 1 => .go (.alloc root oldsz sz a n)

/-- `growproc`: the new size, or none if it fails. -/
def growStart (cur : ProcIdx) (n : ℤ) (k : Kernel σ) : Next GrowPc (Option ℕ) :=
  match (k.procs cur).pagetable with
  | none => .ret none
  | some root =>
    let sz := (k.procs cur).sz
    let newsz := addSize sz n
    if 0 < n then
      if trapframeVa < newsz then .ret none
      else growRound root (pgRoundUp sz) newsz (pgRoundUp sz)
        ((pgRoundUp newsz - pgRoundUp sz) / pgSize)
    else k.deallocStart cur root sz newsz (some (min sz newsz))

def growNext (cur : ProcIdx) (k : Kernel σ) : GrowPc → Result (Next GrowPc (Option ℕ) × Kernel σ)
  | .alloc root oldsz sz a n =>
    match k.kalloc with
    | (none, k) => .ok (k.deallocStart cur root a oldsz none, k)
    | (some pa, k) => do
      let (ok, k) ← (k.fill pa 0).mappages root a pa .userRw
      if ok = false then do
        let k ← k.kfree pa
        return (k.deallocStart cur root a oldsz none, k)
      else return (growRound root oldsz sz (a + pgSize) n, k)
  | .unmap sz u => do
    let (next, k) ← k.unmapNext u
    return (growUnmapped sz next, k)

/-! ## Freeing a process -/

/-- The end of `freeproc(q)`. -/
def resetProc (q : ProcIdx) (k : Kernel σ) : Kernel σ :=
  k.setProc q fun proc => { proc with pagetable := none, sz := 0, xstate := 0, state := .unused }

/-- How `freeproc` goes on after a step of the loop over the pages. -/
def freeUnmapped (root : PA) : Next Unmapping Unit → Next FreePc Unit
  | .go u => .go (.pages u)
  | .ret _ => .go (.walk root)

/-- `freeproc(q)` by `cur`. -/
def freeNext (cur q : ProcIdx) (k : Kernel σ) : FreePc → Result (Next FreePc Unit × Kernel σ)
  | .trapframe => do
    let k ← k.freeTrapframe q
    return (.go (if (k.procs q).pagetable.isSome then .slots else .reset), k)
  | .slots => .ok (.go .detach, { k with tables := k.tables.freeProcSwapSlots q })
  | .detach =>
    match (k.procs q).pagetable with
    | none => .ok (.go .reset, k)
    | some root => do
      let k ← k.uvmunmap cur root trampolineVa 1 false
      let k ← k.uvmunmap cur root trapframeVa 1 false
      return (freeUnmapped root (k.unmapStart cur root 0 (pgRoundUp (k.procs q).sz / pgSize)), k)
  | .pages u => do
    let (next, k) ← k.unmapNext u
    return (freeUnmapped u.root next, k)
  | .walk root => do
    let k ← k.freewalk root
    return (.go .reset, k)
  | .reset => .ok (.ret (), k.resetProc q)

/-! ## Making a process -/

/-- `uvmcreate` -/
def uvmcreate (k : Kernel σ) : Option PA × Kernel σ :=
  match k.kalloc with
  | (none, k) => (none, k)
  | (some pa, k) => (some pa, (k.fill pa 0).setPt pa .empty)

/-- `PTE_R | PTE_X` and `PTE_R | PTE_W`, not for users. -/
def trampolinePerm : Perm := ⟨true, false, true, false⟩

def trapframePerm : Perm := ⟨true, true, false, false⟩

/-- `proc_pagetable` for the trapframe page `tf`, called by `cur`. -/
def procPagetable (cur : ProcIdx) (tf : PA) (k : Kernel σ) : Result (Option PA × Kernel σ) :=
  match k.uvmcreate with
  | (none, k) => .ok (none, k)
  | (some root, k) => do
    let (ok, k) ← k.mappages root trampolineVa k.trampoline trampolinePerm
    if ok = false then do
      let k ← k.uvmfree cur root 0
      return (none, k)
    else do
      let (ok, k) ← k.mappages root trapframeVa tf trapframePerm
      if ok = false then do
        let k ← k.uvmunmap cur root trampolineVa 1 false
        let k ← k.uvmfree cur root 0
        return (none, k)
      else return (some root, k)

/-- `freeproc(q)` of a process that has no page table yet. -/
def freeBare (q : ProcIdx) (k : Kernel σ) : Result (Kernel σ) := do
  let k ← k.freeTrapframe q
  return k.resetProc q

/-- `allocproc` by `cur` when it has found the unused process `q`: whether it succeeded. -/
def allocproc (cur q : ProcIdx) (k : Kernel σ) : Result (Bool × Kernel σ) :=
  match (k.setProc q fun proc => { proc with state := .used }).kalloc with
  | (none, k) => do
    let k ← k.freeBare q
    return (false, k)
  | (some tf, k) => do
    let k := k.setProc q fun proc => { proc with trapframe := some tf }
    let (root, k) ← k.procPagetable cur tf
    match root with
    | none => do
      let k ← k.freeBare q
      return (false, k)
    | some root =>
      return (true, k.setProc q fun proc =>
        { proc with
          pagetable := some root, level := 0, pageFaults := 0, pagesEvicted := 0,
          pagesSwappedIn := 0, pagesSwappedOut := 0, residentPages := 0 })

/-! ## Copying an address space -/

/-- The copy of a resident page of the parent: the next page, or an error. -/
def copyResident (q : ProcIdx) (i : ℕ) (pte : Pte) (k : Kernel σ) :
    Result (ForkPc × Kernel σ) :=
  match k.kalloc with
  | (none, k) => .ok (.err i, k)
  | (some pa, k) =>
    match (k.procs q).pagetable with
    | none => .ok (.err i, k)
    | some root => do
      let k := { k with mem := Function.update k.mem pa (k.mem pte.pa) }
      let (ok, k) ← k.mappages root (i * pgSize) pa pte.perm
      if ok = false then do
        let k ← k.kfree pa
        return (.err i, k)
      else return (.page (i + 1), k)

/-- The temporary page of `uvmcopy`, and the transfer of the parent's page into it. -/
def copyRead (i : ℕ) (src : SlotIdx) (k : Kernel σ) : Result (ForkPc × Kernel σ) :=
  match k.kalloc with
  | (none, k) => .ok (.err i, k)
  | (some tmp, k) =>
    let (ok, k) := k.readSwap S (some src) tmp
    if ok = false then do
      let k ← k.kfree tmp
      return (.err i, k)
    else .ok (.reserve i tmp, k)

/-- The reservation of a slot for the child. -/
def copyReserve (i : ℕ) (tmp : PA) (k : Kernel σ) : Result (ForkPc × Kernel σ) :=
  match k.tables.reserveSlot with
  | none => do
    let k ← k.kfree tmp
    return (.err i, k)
  | some (dst, t) => .ok (.write i tmp dst, { k with tables := t })

/-- The transfer to the slot of the child. -/
def copyWrite (i : ℕ) (tmp : PA) (dst : SlotIdx) (k : Kernel σ) : Result (ForkPc × Kernel σ) :=
  let (r, dev) := S.write dst (k.mem tmp) k.swap
  let k := { k with swap := dev }
  if r < 0 then .ok (.unreserve i tmp dst, k)
  else do
    let k ← k.kfree tmp
    return (.insert i dst, k)

/-- What follows the loop of `uvmcopy`: the child gets its size and can run. -/
def forkDone (p q : ProcIdx) (k : Kernel σ) : Kernel σ :=
  k.setProc q fun proc => { proc with sz := (k.procs p).sz, state := .runnable }

/-- How `kfork` goes on after a step of `uvmunmap`. -/
def forkUnmapped : Next Unmapping Unit → ForkPc
  | .go u => .undo u
  | .ret _ => .free .trapframe

/-- A round of the loop of `uvmcopy`: the end of the loop, a page that is not resident, or a copy.
-/
def copyPage (p q : ProcIdx) (i : ℕ) (k : Kernel σ) : Result (Next ForkPc Bool × Kernel σ) :=
  if (k.procs p).sz ≤ i * pgSize then .ok (.ret true, k.forkDone p q)
  else
    match (k.procs p).pagetable.bind fun root => k.pteAt root (i * pgSize) with
    | none => .ok (.go (.lookup i), k)
    | some pte => do
      let (pc, k) ← k.copyResident q i pte
      return (.go pc, k)

/-- The section that looks for the parent's page in the swap map. -/
def copyLookup (p : ProcIdx) (i : ℕ) (k : Kernel σ) : ForkPc :=
  match (k.tables.findSwap p (i * pgSize)).bind fun s => (k.tables.swapMap s).swapSlot with
  | some src => .read i src
  | none => .page (i + 1)

/-- The section that records the child's page in the swap map. -/
def copyInsert (q : ProcIdx) (i : ℕ) (dst : SlotIdx) (k : Kernel σ) :
    Next ForkPc Bool × Kernel σ :=
  match k.tables.insertSwap q (i * pgSize) dst with
  | (true, t) => (.go (.page (i + 1)), { k with tables := t })
  | (false, t) => (.go (.err i), { k with tables := t })

/-- The error exit of `uvmcopy`. -/
def copyErr (p q : ProcIdx) (i : ℕ) (k : Kernel σ) : ForkPc :=
  match (k.procs q).pagetable with
  | none => .free .trapframe
  | some root => forkUnmapped (k.unmapStart p root 0 i)

/-- `kfork` by `p` for the child `q`, after `allocproc`. The result tells whether there is a
child. -/
def forkNext (p q : ProcIdx) (k : Kernel σ) : ForkPc → Result (Next ForkPc Bool × Kernel σ)
  | .page i => k.copyPage p q i
  | .lookup i => .ok (.go (k.copyLookup p i), k)
  | .read i src => do
    let (pc, k) ← k.copyRead S i src
    return (.go pc, k)
  | .reserve i tmp => do
    let (pc, k) ← k.copyReserve i tmp
    return (.go pc, k)
  | .write i tmp dst => do
    let (pc, k) ← k.copyWrite S i tmp dst
    return (.go pc, k)
  | .unreserve i tmp dst => do
    let k ← ({ k with tables := k.tables.setSwapUsed dst false }).kfree tmp
    return (.go (.err i), k)
  | .insert i dst => .ok (k.copyInsert q i dst)
  | .err i => .ok (.go (k.copyErr p q i), k)
  | .undo u => do
    let (next, k) ← k.unmapNext u
    return (.go (forkUnmapped next), k)
  | .free pc => do
    let (next, k) ← k.freeNext p q pc
    match next with
    | .go pc => return (.go (.free pc), k)
    | .ret _ => return (.ret false, k)

end Kernel

end Xv6Swap.Paging
