import Xv6Swap.Foundations.Interleave
import Xv6Swap.Paging.Process
import Xv6Swap.Threads.Space

/-!
# Processes in the kernel

The kernel with its processes as an interleaved system: each process is a thread that runs in user
mode or is at some point inside a page fault, `sbrk`, `fork` or `wait`. The lock of a process is
held while the process is made by `fork` or freed by `wait`; the other locks are held within one
step only.
-/

namespace Xv6Swap.Paging

open Raid (Byte Page pgSize)
open Interleave (System Cfg)

/-- Where a process is. -/
inductive Pc
  | user
  | fault (va : ℕ) (pc : FaultPc)
  | grow (pc : GrowPc)
  | fork (child : ProcIdx) (pc : ForkPc)
  | reap (child : ProcIdx) (pc : FreePc)
  deriving DecidableEq

/-- What a process does next: it goes on in the kernel, or in user mode it accesses memory or makes
a system call. A process that is waited for, and the one that a child is made in, is chosen by the
action, as the order in which the process table is searched is not fixed by the locks. The bytes
that `wait` copies out are stored by accesses before it. -/
inductive Act
  | go
  | fault (va : ℕ)
  | store (va : ℕ) (b : Byte)
  | sbrk (n : Int32) (eager : Bool)
  | fork (child : ProcIdx)
  | exit (status : BitVec 32)
  | wait (child : ProcIdx)

/-- The shared state. `locked` are the processes whose lock is held by a `fork` or `wait`. -/
structure Shared (σ : Type) where
  kern : Kernel σ
  locked : ProcIdx → Bool

/-- The state of a process that can run. -/
def ProcState.runs : ProcState → Bool
  | .unused | .used | .zombie => false
  | .sleeping | .runnable | .running => true

namespace Shared

variable {σ : Type} (S : SwapOps σ)

def runs (g : Shared σ) (p : ProcIdx) : Bool := (g.kern.procs p).state.runs

def setLock (g : Shared σ) (q : ProcIdx) (b : Bool) : Shared σ :=
  { g with locked := Function.update g.locked q b }

/-- How a process goes on after a step inside the kernel. After a panic nothing goes on. -/
def proceed {α β : Type} (g : Shared σ) (go : α → Pc) (ret : β → Kernel σ → Shared σ) :
    Result (Next α β × Kernel σ) → Option (Pc × Shared σ)
  | .error _ => none
  | .ok (.go pc, k) => some (go pc, { g with kern := k })
  | .ok (.ret r, k) => some (.user, ret r k)

/-- The end of `growproc`. -/
def setSize (g : Shared σ) (p : ProcIdx) (sz : Option ℕ) (k : Kernel σ) : Shared σ :=
  { g with kern := match sz with
    | some sz => k.setProc p fun proc => { proc with sz := sz }
    | none => k }

/-- A store in user mode to a page that is mapped. -/
def userStore (p : ProcIdx) (va : ℕ) (b : Byte) (g : Shared σ) : Option (Shared σ) :=
  ((g.kern.procs p).pagetable.bind fun root => g.kern.translate root va Perm.w).map fun pa =>
    { g with kern := g.kern.setByte pa (pageOffset va) b }

/-- `sbrk` in user mode. -/
def userSbrk (p : ProcIdx) (n : Int32) (eager : Bool) (g : Shared σ) : Option (Pc × Shared σ) :=
  if eager ∨ n.toInt < 0 then
    g.proceed .grow (g.setSize p) (.ok (g.kern.growStart p n.toInt, g.kern))
  else
    match g.kern.sysSbrk p n.toInt false with
    | .error _ => none
    | .ok (_, k) => some (.user, { g with kern := k })

/-- The start of `fork`. -/
def userFork (p q : ProcIdx) (g : Shared σ) : Option (Pc × Shared σ) :=
  match g.kern.allocproc p q with
  | .error _ => none
  | .ok (false, k) => some (.user, { g with kern := k })
  | .ok (true, k) => some (.fork q (.page 0), { g with kern := k }.setLock q true)

/-- A step from user mode. -/
def userNext (p : ProcIdx) (g : Shared σ) : Act → Option (Pc × Shared σ)
  | .go => none
  | .fault va => some (.fault va .enter, g)
  | .store va b => (g.userStore p va b).map fun g => (.user, g)
  | .sbrk n eager => g.userSbrk p n eager
  | .fork q =>
    if (g.kern.procs q).state = .unused ∧ g.locked q = false then g.userFork p q else none
  | .exit status => some (.user, { g with kern := g.kern.kexit p status })
  | .wait q =>
    if (g.kern.procs q).state = .zombie ∧ g.locked q = false then
      some (.reap q .trapframe, g.setLock q true)
    else none

/-- A step inside the kernel. -/
def kernelNext (p : ProcIdx) (g : Shared σ) : Pc → Option (Pc × Shared σ)
  | .user => none
  | .fault va pc =>
    g.proceed (.fault va) (fun _ k => { g with kern := k }) (g.kern.faultNext S p va pc)
  | .grow pc => g.proceed .grow (g.setSize p) (g.kern.growNext p pc)
  | .fork q pc =>
    g.proceed (.fork q) (fun _ k => { g with kern := k }.setLock q false)
      (g.kern.forkNext S p q pc)
  | .reap q pc =>
    g.proceed (.reap q) (fun _ k => { g with kern := k }.setLock q false)
      (g.kern.freeNext p q pc)

end Shared

/-- The processes as a system of threads. -/
def procSystem {σ : Type} (S : SwapOps σ) : System ProcIdx Act Pc (Shared σ) where
  next p a pc g :=
    match pc with
    | .user => if g.runs p then g.userNext p a else none
    | pc => match a with
      | .go => g.kernelNext S p pc
      | _ => none

/-! ## Names in small configurations -/

def proc₀ : ProcIdx := ⟨0, nProc_pos⟩

def proc₁ : ProcIdx := ⟨1, one_lt_nProc⟩

def proc₂ : ProcIdx := ⟨2, by decide⟩

def slot₀ : SlotIdx := ⟨0, maxSwapPages_pos⟩

def slot₂ : SlotIdx := ⟨2, by decide⟩

/-- The first pages after the kernel. -/
def pageNo (i : ℕ) : PA := 0x80100000 + i * pgSize

/-- A swap device that holds nothing. -/
def nullSwap : SwapOps Unit where
  write _ _ _ := (0, ())
  read _ buf _ := (0, (), buf)

end Xv6Swap.Paging
