import Xv6Swap.Paging.Space

/-!
# What processes do

The operations of processes on their memory, each run to completion: loads and stores by user code,
with the page fault that `usertrap` handles, `sbrk`, `exit`, and `wait` with the copy of the exit
status by `copyout`.

An access that the page table does not permit traps into `vmfault`; when that returns an address
the access is tried again. If it is still not permitted it traps for ever, so it never completes,
which is counted as a failure here.
-/

namespace Xv6Swap.Paging

open Raid (Byte Page pgSize)

/-- The offset of an address in its page. -/
def pageOffset (va : ℕ) : Fin pgSize := ⟨va % pgSize, Nat.mod_lt _ (by decide)⟩

/-- A page with the bytes `src` from the offset `i` on. -/
def overlay (x : Page) (i : ℕ) (src : List Byte) : Page := fun j =>
  if i ≤ j ∧ j < i + src.length then src.getD (j - i) 0 else x j

/-- The bytes of an `int` in memory. -/
def intBytes (x : BitVec 32) : List Byte :=
  (List.range 4).map fun i => x.extractLsb' (8 * i) 8

namespace Kernel

variable {σ : Type} (S : SwapOps σ)

/-! ## User code -/

/-- The page that the hardware finds for an access with the permission `ok`. -/
def translate (root : PA) (va : ℕ) (ok : Perm → Bool) (k : Kernel σ) : Option PA :=
  match k.pteAt root va with
  | some pte => if pte.perm.u && ok pte.perm then some pte.pa else none
  | none => none

/-- A user access of process `p`. -/
def access (p : ProcIdx) (va : ℕ) (ok : Perm → Bool) (k : Kernel σ) :
    Result (Option PA × Kernel σ) :=
  match (k.procs p).pagetable with
  | none => .ok (none, k)
  | some root =>
    match k.translate root va ok with
    | some pa => .ok (some pa, k)
    | none => do
      let (r, k) ← k.vmfault S p va
      return (r.bind fun _ => k.translate root va ok, k)

def setByte (pa : PA) (i : Fin pgSize) (b : Byte) (k : Kernel σ) : Kernel σ :=
  { k with mem := Function.update k.mem pa (Function.update (k.mem pa) i b) }

def load (p : ProcIdx) (va : ℕ) (k : Kernel σ) : Result (Option Byte × Kernel σ) := do
  let (r, k) ← k.access S p va Perm.r
  return (r.map fun pa => k.mem pa (pageOffset va), k)

def store (p : ProcIdx) (va : ℕ) (b : Byte) (k : Kernel σ) : Result (Bool × Kernel σ) := do
  let (r, k) ← k.access S p va Perm.w
  match r with
  | some pa => return (true, k.setByte pa (pageOffset va) b)
  | none => return (false, k)

/-! ## `copyout` -/

/-- `memmove` of bytes into a page, from the offset `i` on. -/
def copyBytes (pa : PA) (i : ℕ) (src : List Byte) (k : Kernel σ) : Kernel σ :=
  { k with mem := Function.update k.mem pa (overlay (k.mem pa) i src) }

/-- `walkaddr`, or else `vmfault`. -/
def userPage (p : ProcIdx) (root : PA) (va : ℕ) (k : Kernel σ) : Result (Option PA × Kernel σ) :=
  match k.walkaddr root va with
  | some pa => .ok (some pa, k)
  | none => k.vmfault S p va

/-- One round of `copyout` for the part of `src` that goes to one page. -/
def copyoutPage (p : ProcIdx) (root : PA) (dstva : ℕ) (src : List Byte) (k : Kernel σ) :
    Result (Bool × Kernel σ) :=
  let va0 := pgRoundDown dstva
  if maxVa ≤ va0 then .ok (false, k)
  else do
    let (r, k) ← k.userPage S p root va0
    match r with
    | none => return (false, k)
    | some pa0 =>
      match k.pteAt root va0 with
      | none => return (false, k)
      | some pte =>
        if pte.perm.w = false then return (false, k)
        else return (true, k.copyBytes pa0 (dstva - va0) src)

/-- `copyout` by the current process `p` to its own page table, with the rounds left. There are at
most as many rounds as bytes. -/
def copyoutLoop (p : ProcIdx) (root : PA) : ℕ → ℕ → List Byte → Kernel σ → Result (Bool × Kernel σ)
  | 0, _, _, k => .ok (true, k)
  | rounds + 1, dstva, src, k =>
    if src = [] then .ok (true, k)
    else do
      let n := pgSize - (dstva - pgRoundDown dstva)
      let (ok, k) ← k.copyoutPage S p root dstva (src.take n)
      if ok = false then return (false, k)
      else copyoutLoop p root rounds (pgRoundDown dstva + pgSize) (src.drop n) k

def copyout (p : ProcIdx) (root : PA) (dstva : ℕ) (src : List Byte) (k : Kernel σ) :
    Result (Bool × Kernel σ) :=
  copyoutLoop S p root src.length dstva src k

/-! ## System calls -/

/-- What `kexit` does to the process. -/
def kexit (p : ProcIdx) (status : BitVec 32) (k : Kernel σ) : Kernel σ :=
  k.setProc p fun proc => { proc with xstate := status, state := .zombie }

/-- The copy of the exit status of `q` in `kwait`, if the address is not null. -/
def copyStatus (p q : ProcIdx) (addr : ℕ) (k : Kernel σ) : Result (Bool × Kernel σ) :=
  match (k.procs p).pagetable with
  | none => .ok (false, k)
  | some root =>
    if addr = 0 then .ok (true, k)
    else k.copyout S p root addr (intBytes (k.procs q).xstate)

/-- `kwait` by `p` when it has found the exited process `q`. -/
def kwait (p q : ProcIdx) (addr : ℕ) (k : Kernel σ) : Result (Bool × Kernel σ) := do
  let (ok, k) ← k.copyStatus S p q addr
  if ok = false then return (false, k)
  else do
    let k ← k.freeproc p q
    return (true, k)

end Kernel

/-- The operations of processes. -/
inductive Op
  | load (p : ProcIdx) (va : ℕ)
  | store (p : ProcIdx) (va : ℕ) (b : Byte)
  | sbrk (p : ProcIdx) (n : Int32) (eager : Bool)
  | exit (p : ProcIdx) (status : BitVec 32)
  | wait (p q : ProcIdx) (addr : ℕ)

inductive Outcome
  | value (b : Byte)
  | done
  | failed
  deriving DecidableEq

namespace Kernel

variable {σ : Type} (S : SwapOps σ)

/-- The process can run. -/
def Alive (k : Kernel σ) (p : ProcIdx) : Prop :=
  (k.procs p).state ≠ .unused ∧ (k.procs p).state ≠ .zombie ∧ (k.procs p).pagetable.isSome

instance (k : Kernel σ) (p : ProcIdx) : Decidable (k.Alive p) :=
  inferInstanceAs (Decidable (_ ∧ _ ∧ _))

/-- The operation may be performed: its process can run, accesses are below the size of the process,
and the process that is waited for has exited. -/
def Allowed (k : Kernel σ) : Op → Prop
  | .load p va => k.Alive p ∧ va < (k.procs p).sz
  | .store p va _ => k.Alive p ∧ va < (k.procs p).sz
  | .sbrk p _ _ => k.Alive p
  | .exit p _ => k.Alive p
  | .wait p q _ => k.Alive p ∧ (k.procs q).state = .zombie

instance (k : Kernel σ) : (op : Op) → Decidable (k.Allowed op)
  | .load _ _ => inferInstanceAs (Decidable (_ ∧ _))
  | .store _ _ _ => inferInstanceAs (Decidable (_ ∧ _))
  | .sbrk p _ _ => inferInstanceAs (Decidable (k.Alive p))
  | .exit p _ => inferInstanceAs (Decidable (k.Alive p))
  | .wait _ _ _ => inferInstanceAs (Decidable (_ ∧ _))

def perform (op : Op) (k : Kernel σ) : Result (Outcome × Kernel σ) :=
  match op with
  | .load p va => do
    let (r, k) ← k.load S p va
    return (match r with
      | some b => .value b
      | none => .failed, k)
  | .store p va b => do
    let (ok, k) ← k.store S p va b
    return (if ok then .done else .failed, k)
  | .sbrk p n eager => do
    let (r, k) ← k.sysSbrk p n.toInt eager
    return (if r.isSome then .done else .failed, k)
  | .exit p status => .ok (.done, k.kexit p status)
  | .wait p q addr => do
    let (ok, k) ← k.kwait S p q addr
    return (if ok then .done else .failed, k)

/-- One operation of a process, with its outcome. -/
def Performs (k : Kernel σ) (a : Op × Outcome) (k' : Kernel σ) : Prop :=
  k.Allowed a.1 ∧ k.perform S a.1 = .ok (a.2, k')

end Kernel

end Xv6Swap.Paging
