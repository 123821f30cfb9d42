import Xv6Swap.Threads.Slots

/-!
# Spinlocks held while sleeping

`sched` panics when a process sleeps with a spinlock held besides the one it passes to `sleep`. A
swap disk transfer sleeps: a write always, a read unless all its blocks are in valid buffers that
nobody has locked. `kfork` makes such transfers in `uvmcopy` with the lock of the child held, and
`kwait` in the `vmfault` of `copyout` with `wait_lock` and the lock of the child held.

The system `lockSystem` is `procSystem` with the number `noff` of spinlocks each process holds, and
with the `copyout` of `kwait`. The other locks are acquired and released within one step.
`schedLocks_unreachable` says that `sched` does not panic in the runs in which `fork` and `wait` get
by without a transfer that sleeps (`Calm`); `fork_sleeps` is a `fork` of a process with a page in
swap.
-/

namespace Xv6Swap.Paging

open Raid (Byte Page pgSize)
open Interleave (System Cfg)

/-! ## Transfers -/

/-- The next step is a swap disk transfer that sleeps. `hit` tells whether every block that a read
needs is in a valid, unlocked buffer. -/
def EvictPc.sleeps : EvictPc → Bool
  | .write _ _ _ => true
  | _ => false

def FaultPc.sleeps (hit : Bool) : FaultPc → Bool
  | .alloc _ (.evict _ _ e) => e.sleeps
  | .read _ slot _ => slot.isSome && !hit
  | _ => false

/-- `uvmcopy` reads only if it gets a page to read into. -/
def ForkPc.sleeps (hit : Bool) (free : List PA) : ForkPc → Bool
  | .read _ _ => !free.isEmpty && !hit
  | .write _ _ _ => true
  | _ => false

def Pc.sleeps (hit : Bool) (free : List PA) : Pc → Bool
  | .fault _ pc => pc.sleeps hit
  | .fork _ pc => pc.sleeps hit free
  | _ => false

/-! ## The system -/

/-- The points inside a round of `copyout`. -/
inductive CopyPc
  | page
  | fault (pc : FaultPc)
  | store (pa0 : PA)
  deriving DecidableEq

/-- Where a process is. -/
inductive LockPc
  | kern (pc : Pc)
  /-- in `kwait(addr)`, looking for an exited child -/
  | waiting (addr : ℕ)
  /-- in `sleep(p, &wait_lock)` -/
  | asleep (addr : ℕ)
  /-- in the `copyout` of `kwait`, with the bytes `src` left for `dstva` -/
  | copy (child : ProcIdx) (dstva : ℕ) (src : List Byte) (pc : CopyPc)
  /-- `panic("sched locks")` -/
  | schedLocks
  deriving DecidableEq

/-- A process and the number of spinlocks it holds. -/
structure Holder where
  pc : LockPc
  noff : ℕ
  deriving DecidableEq

structure LockShared (σ : Type) where
  shared : Shared σ
  waitLock : Bool

/-- What a process does next. -/
inductive LockAct
  /-- a step of `procSystem` or of `copyout` -/
  | act (a : Act) (hit : Bool)
  | wait (addr : ℕ)
  | found (child : ProcIdx)
  /-- `sleep(p, &wait_lock)`, and its end -/
  | sleep
  | wake
  | giveUp

/-- `noff` after a step of `procSystem`: `fork` holds the lock of the child, and `wait` that and
`wait_lock`. -/
def Pc.noff (pc pc' : Pc) (n : ℕ) : ℕ :=
  match pc, pc' with
  | .user, .fork _ _ => n + 1
  | .fork _ _, .user => n - 1
  | .reap _ _, .user => n - 2
  | _, _ => n

/-- `wait_lock` after a step of `procSystem`. -/
def Pc.waitLock (pc pc' : Pc) (b : Bool) : Bool :=
  match pc, pc' with
  | .reap _ _, .user => false
  | _, _ => b

namespace LockShared

variable {σ : Type} (S : SwapOps σ)

def kern (g : LockShared σ) : Kernel σ := g.shared.kern

def setKern (g : LockShared σ) (k : Kernel σ) : LockShared σ :=
  { g with shared := { g.shared with kern := k } }

/-- A step of `procSystem`. -/
def kernStep (p : ProcIdx) (a : Act) (pc : Pc) (n : ℕ) (g : LockShared σ) :
    Option (Holder × LockShared σ) :=
  match a with
  | .wait _ => none
  | a => ((procSystem S).next p a pc g.shared).map fun r =>
    (⟨.kern r.1, pc.noff r.1 n⟩, ⟨r.2, pc.waitLock r.1 g.waitLock⟩)

/-- An exited child is found; its lock is acquired. The status is copied unless `addr` is 0. -/
def foundStep (q : ProcIdx) (addr n : ℕ) (g : LockShared σ) : Option (Holder × LockShared σ) :=
  if (g.kern.procs q).state = .zombie ∧ g.shared.locked q = false then
    some (⟨if addr = 0 then .kern (.reap q .trapframe)
      else .copy q addr (intBytes (g.kern.procs q).xstate) .page, n + 1⟩,
      { g with shared := g.shared.setLock q true })
  else none

/-- `copyout` fails: both locks are released, and `kwait` returns -1. -/
def copyFail (q : ProcIdx) (n : ℕ) (g : LockShared σ) : Holder × LockShared σ :=
  (⟨.kern .user, n - 2⟩, ⟨g.shared.setLock q false, false⟩)

/-- The start of a round of `copyout`; after the last one `kwait` goes on with `freeproc`. -/
def copyPage (p q : ProcIdx) (dstva : ℕ) (src : List Byte) (n : ℕ) (g : LockShared σ) :
    Holder × LockShared σ :=
  if src = [] then (⟨.kern (.reap q .trapframe), n⟩, g)
  else if maxVa ≤ pgRoundDown dstva then g.copyFail q n
  else
    match (g.kern.procs p).pagetable.bind fun root => g.kern.walkaddr root (pgRoundDown dstva) with
    | some pa0 => (⟨.copy q dstva src (.store pa0), n⟩, g)
    | none => (⟨.copy q dstva src (.fault .enter), n⟩, g)

/-- A step of the `vmfault` of `copyout`. -/
def copyFault (p q : ProcIdx) (dstva : ℕ) (src : List Byte) (pc : FaultPc) (n : ℕ)
    (g : LockShared σ) : Option (Holder × LockShared σ) :=
  match g.kern.faultNext S p (pgRoundDown dstva) pc with
  | .error _ => none
  | .ok (.go pc, k) => some (⟨.copy q dstva src (.fault pc), n⟩, g.setKern k)
  | .ok (.ret none, k) => some ((g.setKern k).copyFail q n)
  | .ok (.ret (some pa0), k) => some (⟨.copy q dstva src (.store pa0), n⟩, g.setKern k)

/-- The end of a round of `copyout`. -/
def copyStore (p q : ProcIdx) (dstva : ℕ) (src : List Byte) (pa0 : PA) (n : ℕ)
    (g : LockShared σ) : Holder × LockShared σ :=
  let va0 := pgRoundDown dstva
  let m := pgSize - (dstva - va0)
  match (g.kern.procs p).pagetable.bind fun root => g.kern.pteAt root va0 with
  | none => g.copyFail q n
  | some pte =>
    if pte.perm.w = false then g.copyFail q n
    else (⟨.copy q (va0 + pgSize) (src.drop m) .page, n⟩,
      g.setKern (g.kern.copyBytes pa0 (dstva - va0) (src.take m)))

/-- A step. `sleep` adds the lock of the process and releases the one passed to it; `sched` panics
if more than the lock of the process is left. -/
def next (p : ProcIdx) (a : LockAct) (l : Holder) (g : LockShared σ) :
    Option (Holder × LockShared σ) :=
  match l.pc, a with
  | .kern pc, .act a hit =>
    if pc.sleeps hit g.kern.freelist && (l.noff != 0) then some (⟨.schedLocks, l.noff⟩, g)
    else g.kernStep S p a pc l.noff
  | .kern .user, .wait addr =>
    if g.shared.runs p ∧ g.waitLock = false then
      some (⟨.waiting addr, l.noff + 1⟩, { g with waitLock := true })
    else none
  | .waiting addr, .found q => g.foundStep q addr l.noff
  | .waiting addr, .sleep =>
    -- the lock passed to `sleep` is `wait_lock`
    if l.noff - 1 ≠ 0 then some (⟨.schedLocks, l.noff⟩, g)
    else some (⟨.asleep addr, l.noff - 1⟩, { g with waitLock := false })
  | .asleep addr, .wake =>
    if g.waitLock = false then some (⟨.waiting addr, l.noff + 1⟩, { g with waitLock := true })
    else none
  | .waiting _, .giveUp => some (⟨.kern .user, l.noff - 1⟩, { g with waitLock := false })
  | .copy q dstva src .page, .act .go _ => some (g.copyPage p q dstva src l.noff)
  | .copy q dstva src (.fault pc), .act .go hit =>
    if pc.sleeps hit && (l.noff != 0) then some (⟨.schedLocks, l.noff⟩, g)
    else g.copyFault S p q dstva src pc l.noff
  | .copy q dstva src (.store pa0), .act .go _ => some (g.copyStore p q dstva src pa0 l.noff)
  | _, _ => none

end LockShared

/-- The processes with their locks. Only the panic of `sched` is modelled. A read that finds its
blocks in the cache is stepped past also when the lock of the child is held; in the code its
`brelse` calls `wakeup`, which acquires the locks of all other processes, and `acquire` panics on
the lock that the hart holds already. -/
def lockSystem {σ : Type} (S : SwapOps σ) : System ProcIdx LockAct Holder (LockShared σ) where
  next p a l g := g.next S p a l

/-- All processes are in user mode, in any kernel state. -/
def lockStart {σ : Type} (k : Kernel σ) : Cfg ProcIdx Holder (LockShared σ) :=
  ⟨fun _ => ⟨.kern .user, 0⟩, ⟨⟨k, fun _ => false⟩, false⟩⟩

/-! ## Runs without transfers under a lock -/

/-- The victim of an eviction that comes to the page table is not mapped any more. -/
def Kernel.victimGone {σ : Type} (k : Kernel σ) (v : Victim) : Bool :=
  ((k.victimRoot v).bind fun root => k.pteAt root v.va).isNone

/-- While `fork` or `wait` holds locks, reads find their blocks in the buffer cache, `uvmcopy` finds
no slot to write to, and an eviction does not find its victim mapped. -/
def Calm {σ : Type} (c : Cfg ProcIdx Holder (LockShared σ)) (p : ProcIdx) (a : LockAct) : Prop :=
  match (c.loc p).pc, a with
  | .kern (.fork _ (.read _ _)), .act _ hit => (hit || c.mem.kern.freelist.isEmpty) = true
  | .kern (.fork _ (.reserve _ _)), _ => c.mem.kern.tables.reserveSlot.isNone = true
  | .copy _ _ _ (.fault (.read _ slot _)), .act _ hit => (hit || slot.isNone) = true
  | .copy _ _ _ (.fault (.alloc _ (.evict _ _ (.update _ v)))), _ =>
    c.mem.kern.victimGone v = true
  | _, _ => True

instance {σ : Type} (c : Cfg ProcIdx Holder (LockShared σ)) (p : ProcIdx) (a : LockAct) :
    Decidable (Calm c p a) := by
  unfold Calm
  split <;> infer_instance

/-- `uvmcopy` has a slot to write to. -/
def ForkPc.writes : ForkPc → Bool
  | .write _ _ _ => true
  | _ => false

/-- An eviction has a page to write. -/
def AllocPc.writes : AllocPc → Bool
  | .evict _ _ e => e.sleeps
  | _ => false

def FaultPc.writes : FaultPc → Bool
  | .alloc _ a => a.writes
  | _ => false

/-- The locks a process holds at each point, and no write with a lock held. -/
def Holder.Ok (l : Holder) : Prop :=
  match l.pc with
  | .kern .user => l.noff = 0
  | .kern (.fault _ _) => l.noff = 0
  | .kern (.grow _) => l.noff = 0
  | .kern (.fork _ pc) => l.noff = 1 ∧ pc.writes = false
  | .kern (.reap _ _) => l.noff = 2
  | .waiting _ => l.noff = 1
  | .asleep _ => l.noff = 0
  | .copy _ _ _ (.fault pc) => l.noff = 2 ∧ pc.writes = false
  | .copy _ _ _ _ => l.noff = 2
  | .schedLocks => False

namespace Kernel

variable {σ : Type} {S : SwapOps σ} {k k' : Kernel σ} {p q : ProcIdx} {va : ℕ}

theorem evictUpdate_sleeps {n : ℕ} {v : Victim} {next : Next EvictPc Bool}
    (h : k.evictUpdate n v = .ok (next, k')) (hgone : k.victimGone v = true) :
    next.getD EvictPc.sleeps false = false := by
  unfold evictUpdate at h
  split at h
  · obtain ⟨rfl, -⟩ := Prod.mk.inj (Except.ok.inj h)
    rfl
  · rename_i root hroot
    split at h
    · cases h
    · split at h
      · obtain ⟨rfl, -⟩ := Prod.mk.inj (Except.ok.inj h)
        rfl
      · rename_i pte hpte
        simp [victimGone, hroot, hpte] at hgone

/-- An eviction gets to its write only if it finds its victim mapped. -/
theorem evictNext_sleeps {e : EvictPc} {next : Next EvictPc Bool}
    (h : k.evictNext S e = .ok (next, k'))
    (hgone : ∀ n v, e = .update n v → k.victimGone v = true) :
    next.getD EvictPc.sleeps false = false := by
  cases e with
  | select n =>
    have hselect := Except.ok.inj h
    cases n with
    | zero =>
      obtain ⟨rfl, -⟩ := Prod.mk.inj hselect
      rfl
    | succ n =>
      simp only [evictSelect] at hselect
      split at hselect <;> (obtain ⟨rfl, -⟩ := Prod.mk.inj hselect; rfl)
  | update n v => exact evictUpdate_sleeps h (hgone n v rfl)
  | write v root pte =>
    obtain ⟨rfl, -⟩ := Prod.mk.inj (Except.ok.inj h)
    simp only [Next.getD]
    split <;> rfl
  | free v pa =>
    obtain ⟨k₁, -, h⟩ := bind_eq_ok.1 h
    obtain ⟨rfl, -⟩ := Prod.mk.inj (Except.ok.inj h)
    rfl
  | abort n v | restore v root pte | undo v | publish v pa =>
    obtain ⟨rfl, -⟩ := Prod.mk.inj (Except.ok.inj h)
    rfl

theorem allocEvicted_writes (n : ℕ) (again : Bool) (next : Next EvictPc Bool) :
    (allocEvicted n again next).getD AllocPc.writes false = next.getD EvictPc.sleeps false := by
  match next with
  | .go e => rfl
  | .ret false => rfl
  | .ret true => cases again <;> cases n <;> rfl

theorem allocNext_writes {a : AllocPc} {next : Next AllocPc (Option PA)}
    (h : k.allocNext S p va a = .ok (next, k'))
    (hgone : ∀ n again m v, a = .evict n again (.update m v) → k.victimGone v = true) :
    next.getD AllocPc.writes false = false := by
  cases a with
  | need n =>
    obtain ⟨rfl, -⟩ := Prod.mk.inj (Except.ok.inj h)
    simp only [Next.getD]
    split <;> rfl
  | evict n again e =>
    obtain ⟨⟨next', k₁⟩, hevict, h⟩ := bind_eq_ok.1 h
    obtain ⟨rfl, -⟩ := Prod.mk.inj (Except.ok.inj h)
    rw [allocEvicted_writes]
    refine evictNext_sleeps hevict ?_
    rintro m v rfl
    exact hgone n again m v rfl
  | pop n =>
    have hpop := Except.ok.inj h
    unfold allocPop at hpop
    split at hpop <;> (obtain ⟨rfl, -⟩ := Prod.mk.inj hpop; rfl)
  | canRetry n =>
    obtain ⟨rfl, -⟩ := Prod.mk.inj (Except.ok.inj h)
    split <;> rfl
  | register n pa =>
    have hreg := Except.ok.inj h
    unfold allocRegister at hreg
    split at hreg <;> (obtain ⟨rfl, -⟩ := Prod.mk.inj hreg; rfl)
  | giveBack n pa =>
    obtain ⟨k₁, -, h⟩ := bind_eq_ok.1 h
    obtain ⟨rfl, -⟩ := Prod.mk.inj (Except.ok.inj h)
    rfl

theorem faultAlloced_writes (found : Found) (next : Next AllocPc (Option PA)) :
    (faultAlloced found next).getD FaultPc.writes false = next.getD AllocPc.writes false := by
  match next, found with
  | .go a, found => rfl
  | .ret none, _ => rfl
  | .ret (some pa), some (i, slot) => rfl
  | .ret (some pa), none => rfl

/-- `vmfault` writes only in an eviction that finds its victim mapped. -/
theorem faultNext_writes {f : FaultPc} {next : Next FaultPc (Option PA)}
    (h : k.faultNext S p va f = .ok (next, k'))
    (hgone : ∀ found n again m v, f = .alloc found (.evict n again (.update m v)) →
      k.victimGone v = true) :
    next.getD FaultPc.writes false = false := by
  cases f with
  | enter =>
    have henter : k.faultEnter p va = _ := h
    unfold faultEnter at henter
    split at henter
    · obtain ⟨rfl, -⟩ := Prod.mk.inj (Except.ok.inj henter)
      rfl
    · split at henter
      · obtain ⟨rfl, -⟩ := Prod.mk.inj (Except.ok.inj henter)
        rfl
      · obtain ⟨mapped, -, henter⟩ := bind_eq_ok.1 henter
        split at henter <;> (obtain ⟨rfl, -⟩ := Prod.mk.inj (Except.ok.inj henter); rfl)
  | lookup =>
    rw [faultNext_lookup] at h
    obtain ⟨rfl, -⟩ := Prod.mk.inj (Except.ok.inj h)
    rfl
  | alloc found a =>
    obtain ⟨⟨next', k₁⟩, halloc, h⟩ := bind_eq_ok.1 h
    obtain ⟨rfl, -⟩ := Prod.mk.inj (Except.ok.inj h)
    rw [faultAlloced_writes]
    refine allocNext_writes halloc ?_
    rintro n again m v rfl
    exact hgone found n again m v rfl
  | read i slot pa =>
    rw [faultNext_read] at h
    obtain ⟨rfl, -⟩ := Prod.mk.inj (Except.ok.inj h)
    simp only [Next.getD]
    split <;> rfl
  | map found pa =>
    have hmap : k.faultMap p (pgRoundDown va) found pa = _ := h
    unfold faultMap at hmap
    split at hmap
    · obtain ⟨rfl, -⟩ := Prod.mk.inj (Except.ok.inj hmap)
      rfl
    · obtain ⟨⟨ok, k₁⟩, -, hmap⟩ := bind_eq_ok.1 hmap
      obtain ⟨rfl, -⟩ := Prod.mk.inj (Except.ok.inj hmap)
      cases ok <;> rfl
  | dropFree pa =>
    obtain ⟨k₁, -, h⟩ := bind_eq_ok.1 h
    obtain ⟨rfl, -⟩ := Prod.mk.inj (Except.ok.inj h)
    rfl
  | touch | addr | drop pa | finish found pa =>
    obtain ⟨rfl, -⟩ := Prod.mk.inj (Except.ok.inj h)
    rfl

theorem copyPage_writes {i : ℕ} {next : Next ForkPc Bool}
    (h : k.copyPage p q i = .ok (next, k')) : next.getD ForkPc.writes false = false := by
  unfold copyPage at h
  split at h
  · obtain ⟨rfl, -⟩ := Prod.mk.inj (Except.ok.inj h)
    rfl
  · split at h
    · obtain ⟨rfl, -⟩ := Prod.mk.inj (Except.ok.inj h)
      rfl
    · obtain ⟨⟨pc, k₁⟩, hcopy, h⟩ := bind_eq_ok.1 h
      obtain ⟨rfl, -⟩ := Prod.mk.inj (Except.ok.inj h)
      obtain ⟨-, rfl | rfl⟩ := copyResident_untouched hcopy <;> rfl

theorem copyLookup_writes (p : ProcIdx) (i : ℕ) (k : Kernel σ) :
    (k.copyLookup p i).writes = false := by
  unfold copyLookup
  split <;> rfl

/-- `uvmcopy` writes only to a slot it reserved for the child. -/
theorem forkNext_writes {pc : ForkPc} {next : Next ForkPc Bool}
    (h : k.forkNext S p q pc = .ok (next, k'))
    (hfull : ∀ i tmp, pc = .reserve i tmp → k.tables.reserveSlot.isNone = true) :
    next.getD ForkPc.writes false = false := by
  cases pc with
  | page i => exact copyPage_writes (h : k.copyPage p q i = _)
  | lookup i =>
    have hpc := copyLookup_writes p i k
    obtain ⟨rfl, -⟩ := Prod.mk.inj (Except.ok.inj h)
    simpa only [Next.getD] using hpc
  | read i src =>
    obtain ⟨⟨pc', k₁⟩, hread, h⟩ := bind_eq_ok.1 h
    obtain ⟨rfl, -⟩ := Prod.mk.inj (Except.ok.inj h)
    obtain ⟨-, -, rfl | ⟨tmp, rfl⟩⟩ := copyRead_life hread <;> rfl
  | reserve i tmp =>
    obtain ⟨⟨pc', k₁⟩, hreserve, h⟩ := bind_eq_ok.1 h
    obtain ⟨rfl, -⟩ := Prod.mk.inj (Except.ok.inj h)
    obtain ⟨-, ⟨-, rfl⟩ | ⟨dst, hslot, rfl⟩⟩ := copyReserve_life hreserve
    · rfl
    · have hnone := hfull i tmp rfl
      rw [hslot] at hnone
      cases hnone
  | write i tmp dst =>
    obtain ⟨⟨pc', k₁⟩, hwrite, h⟩ := bind_eq_ok.1 h
    obtain ⟨rfl, -⟩ := Prod.mk.inj (Except.ok.inj h)
    obtain ⟨-, -, rfl | rfl⟩ := copyWrite_life hwrite <;> rfl
  | unreserve i tmp dst =>
    obtain ⟨k₁, -, h⟩ := bind_eq_ok.1 h
    obtain ⟨rfl, -⟩ := Prod.mk.inj (Except.ok.inj h)
    rfl
  | insert i dst =>
    have hins := Except.ok.inj h
    unfold copyInsert at hins
    generalize k.tables.insertSwap q (i * pgSize) dst = r at hins
    obtain ⟨b, t⟩ := r
    cases b <;> (obtain ⟨rfl, -⟩ := Prod.mk.inj hins; rfl)
  | err i =>
    obtain ⟨rfl, -⟩ := Prod.mk.inj (Except.ok.inj h)
    simp only [Next.getD, copyErr]
    split
    · rfl
    · cases k.unmapStart p _ 0 i <;> rfl
  | undo u =>
    obtain ⟨⟨next', k₁⟩, -, h⟩ := bind_eq_ok.1 h
    obtain ⟨rfl, -⟩ := Prod.mk.inj (Except.ok.inj h)
    cases next' <;> rfl
  | free pc =>
    obtain ⟨⟨next', k₁⟩, -, h⟩ := bind_eq_ok.1 h
    cases next' <;> (obtain ⟨rfl, -⟩ := Prod.mk.inj (Except.ok.inj h); rfl)

end Kernel

section Steps

variable {σ : Type} {S : SwapOps σ} {g g' : LockShared σ} {p q : ProcIdx} {l l' : Holder} {a : Act}
  {c : Cfg ProcIdx Holder (LockShared σ)}

/-- A step of `procSystem` from user mode. -/
theorem userNext_ok {pc : Pc} {g' : Shared σ} (h : g.shared.userNext p a = some (pc, g'))
    (hwait : ∀ q, a ≠ .wait q) : Holder.Ok ⟨.kern pc, Pc.noff .user pc 0⟩ := by
  cases a with
  | go => cases h
  | fault va | exit status =>
    obtain ⟨rfl, -⟩ := Prod.mk.inj (Option.some.inj h)
    rfl
  | store va b =>
    obtain ⟨g₁, -, h⟩ := Option.map_eq_some_iff.1 h
    obtain ⟨rfl, -⟩ := Prod.mk.inj h
    rfl
  | sbrk n eager =>
    have hsbrk : g.shared.userSbrk p n eager = _ := h
    unfold Shared.userSbrk at hsbrk
    split at hsbrk
    · rcases Shared.proceed_eq_some hsbrk with ⟨pc', k, -, rfl, -⟩ | ⟨sz, k, -, rfl, -⟩ <;> rfl
    · split at hsbrk
      · cases hsbrk
      · obtain ⟨rfl, -⟩ := Prod.mk.inj (Option.some.inj hsbrk)
        rfl
  | fork q =>
    obtain ⟨-, hfork⟩ := Option.ite_none_right_eq_some.1 h
    unfold Shared.userFork at hfork
    split at hfork
    · cases hfork
    · obtain ⟨rfl, -⟩ := Prod.mk.inj (Option.some.inj hfork)
      rfl
    · obtain ⟨rfl, -⟩ := Prod.mk.inj (Option.some.inj hfork)
      exact ⟨rfl, rfl⟩
  | wait q => exact absurd rfl (hwait q)

/-- A step of `procSystem` inside the kernel. -/
theorem kernelNext_ok {pc pc' : Pc} {n : ℕ} {g' : Shared σ} (hok : Holder.Ok ⟨.kern pc, n⟩)
    (hfull : ∀ q i tmp, pc = .fork q (.reserve i tmp) →
      g.kern.tables.reserveSlot.isNone = true)
    (h : g.shared.kernelNext S p pc = some (pc', g')) :
    Holder.Ok ⟨.kern pc', pc.noff pc' n⟩ := by
  cases pc with
  | user => cases h
  | fault va f =>
    rcases Shared.proceed_eq_some h with ⟨f', k, -, rfl, -⟩ | ⟨r, k, -, rfl, -⟩ <;> exact hok
  | grow gr =>
    rcases Shared.proceed_eq_some h with ⟨gr', k, -, rfl, -⟩ | ⟨sz, k, -, rfl, -⟩ <;> exact hok
  | fork q f =>
    rcases Shared.proceed_eq_some h with ⟨f', k, hr, rfl, -⟩ | ⟨r, k, -, rfl, -⟩
    · refine ⟨hok.1, Kernel.forkNext_writes hr ?_⟩
      rintro i tmp rfl
      exact hfull q i tmp rfl
    · exact (congrArg (· - 1) hok.1 : n - 1 = 0)
  | reap q f =>
    rcases Shared.proceed_eq_some h with ⟨f', k, -, rfl, -⟩ | ⟨r, k, -, rfl, -⟩
    · exact hok
    · exact (congrArg (· - 2) hok : n - 2 = 0)

/-- What a step of a process under `Calm` may assume at its point. -/
theorem Calm.reserve {hit : Bool} (h : Calm c p (.act a hit)) {i : ℕ} {tmp : PA}
    (hpc : (c.loc p).pc = .kern (.fork q (.reserve i tmp))) :
    c.mem.kern.tables.reserveSlot.isNone = true := by
  simpa only [Calm, hpc] using h

theorem Calm.update {hit : Bool} (h : Calm c p (.act a hit)) {dstva n m : ℕ} {src : List Byte}
    {found : Found} {again : Bool} {v : Victim}
    (hpc : (c.loc p).pc =
      .copy q dstva src (.fault (.alloc found (.evict n again (.update m v))))) :
    c.mem.kern.victimGone v = true := by
  simpa only [Calm, hpc] using h

/-- A transfer in `uvmcopy` does not sleep. -/
theorem Calm.fork_awake {hit : Bool} (h : Calm c p (.act a hit)) {f : ForkPc}
    (hpc : (c.loc p).pc = .kern (.fork q f)) (hf : f.writes = false) :
    f.sleeps hit c.mem.kern.freelist = false := by
  cases f with
  | read i src =>
    have hread : (hit || c.mem.kern.freelist.isEmpty) = true := by simpa only [Calm, hpc] using h
    cases hit <;> simp_all [ForkPc.sleeps]
  | write i tmp dst => cases hf
  | _ => rfl

/-- A transfer in the `vmfault` of `copyout` does not sleep. -/
theorem Calm.copy_awake {hit : Bool} (h : Calm c p (.act a hit)) {dstva : ℕ} {src : List Byte}
    {f : FaultPc} (hpc : (c.loc p).pc = .copy q dstva src (.fault f)) (hf : f.writes = false) :
    f.sleeps hit = false := by
  cases f with
  | alloc found al =>
    cases al with
    | evict n again e => exact hf
    | _ => rfl
  | read i slot pa =>
    have hread : (hit || slot.isNone) = true := by simpa only [Calm, hpc] using h
    cases hit <;> simp_all [FaultPc.sleeps]
  | _ => rfl

theorem kernStep_ok {pc : Pc} {n : ℕ} (hok : Holder.Ok ⟨.kern pc, n⟩)
    (hfull : ∀ q i tmp, pc = .fork q (.reserve i tmp) →
      g.kern.tables.reserveSlot.isNone = true)
    (h : g.kernStep S p a pc n = some (l', g')) : l'.Ok := by
  unfold LockShared.kernStep at h
  split at h
  · cases h
  · rename_i hwait
    obtain ⟨⟨pc', g₁⟩, hn, heq⟩ := Option.map_eq_some_iff.1 h
    obtain ⟨rfl, -⟩ := Prod.mk.inj heq
    rcases procSystem_next hn with ⟨rfl, -, huser⟩ | ⟨-, -, hkern⟩
    · obtain rfl : n = 0 := hok
      exact userNext_ok huser hwait
    · exact kernelNext_ok hok hfull hkern

theorem copyFault_ok {dstva n : ℕ} {src : List Byte} {f : FaultPc} (hn : n = 2)
    (hgone : ∀ found n again m v, f = .alloc found (.evict n again (.update m v)) →
      g.kern.victimGone v = true)
    (h : g.copyFault S p q dstva src f n = some (l', g')) : l'.Ok := by
  subst hn
  unfold LockShared.copyFault at h
  split at h
  · cases h
  · rename_i f' k hf
    obtain ⟨rfl, -⟩ := Prod.mk.inj (Option.some.inj h)
    exact ⟨rfl, Kernel.faultNext_writes hf hgone⟩
  · obtain ⟨rfl, -⟩ := Prod.mk.inj (Option.some.inj h)
    rfl
  · obtain ⟨rfl, -⟩ := Prod.mk.inj (Option.some.inj h)
    rfl

theorem copyPage_ok (dstva : ℕ) (src : List Byte) (g : LockShared σ) :
    (g.copyPage p q dstva src 2).1.Ok := by
  unfold LockShared.copyPage
  split
  · rfl
  · split
    · rfl
    · split
      · rfl
      · exact ⟨rfl, rfl⟩

theorem copyStore_ok (dstva : ℕ) (src : List Byte) (pa0 : PA) (g : LockShared σ) :
    (g.copyStore p q dstva src pa0 2).1.Ok := by
  unfold LockShared.copyStore
  dsimp only
  split
  · rfl
  · split <;> rfl

/-- No transfer of `procSystem` sleeps with a lock held. -/
theorem Calm.kern_awake {pc : Pc} {n : ℕ} {hit : Bool} (h : Calm c p (.act a hit))
    (hl : c.loc p = ⟨.kern pc, n⟩) (hok : Holder.Ok ⟨.kern pc, n⟩) :
    (pc.sleeps hit c.mem.kern.freelist && (n != 0)) = false := by
  cases pc with
  | fault va f =>
    obtain rfl : n = 0 := hok
    exact Bool.and_false _
  | fork q f =>
    have hawake : f.sleeps hit c.mem.kern.freelist = false := h.fork_awake (by rw [hl]) hok.2
    simp only [Pc.sleeps, hawake, Bool.false_and]
  | user | grow f | reap q f => rfl

theorem kern_next_ok {pc : Pc} {n : ℕ} {a : LockAct} (hl : c.loc p = ⟨.kern pc, n⟩)
    (hok : Holder.Ok ⟨.kern pc, n⟩) (hcalm : Calm c p a)
    (h : c.mem.next S p a ⟨.kern pc, n⟩ = some (l', g')) : l'.Ok := by
  cases a with
  | act a hit =>
    simp only [LockShared.next, hcalm.kern_awake hl hok, Bool.false_eq_true, if_false] at h
    refine kernStep_ok hok ?_ h
    rintro q i tmp rfl
    exact hcalm.reserve (by rw [hl])
  | wait addr =>
    cases pc with
    | user =>
      obtain ⟨-, heq⟩ := Option.ite_none_right_eq_some.1 h
      obtain ⟨rfl, -⟩ := Prod.mk.inj (Option.some.inj heq)
      exact congrArg (· + 1) hok
    | _ => cases h
  | _ => cases h

theorem waiting_next_ok {addr n : ℕ} {a : LockAct} (hok : Holder.Ok ⟨.waiting addr, n⟩)
    (h : g.next S p a ⟨.waiting addr, n⟩ = some (l', g')) : l'.Ok := by
  obtain rfl : n = 1 := hok
  cases a with
  | found q =>
    obtain ⟨-, heq⟩ := Option.ite_none_right_eq_some.1 h
    obtain ⟨rfl, -⟩ := Prod.mk.inj (Option.some.inj heq)
    by_cases haddr : addr = 0
    · rw [if_pos haddr]
      rfl
    · rw [if_neg haddr]
      rfl
  | sleep | giveUp =>
    obtain ⟨rfl, -⟩ := Prod.mk.inj (Option.some.inj h)
    rfl
  | _ => cases h

theorem copy_next_ok {dstva n : ℕ} {src : List Byte} {f : CopyPc} {a : LockAct}
    (hl : c.loc p = ⟨.copy q dstva src f, n⟩) (hok : Holder.Ok ⟨.copy q dstva src f, n⟩)
    (hcalm : Calm c p a) (h : c.mem.next S p a ⟨.copy q dstva src f, n⟩ = some (l', g')) :
    l'.Ok := by
  cases a with
  | act a hit =>
    cases a with
    | go =>
      cases f with
      | page =>
        obtain rfl : n = 2 := hok
        obtain rfl := congrArg Prod.fst (Option.some.inj h)
        exact copyPage_ok ..
      | store pa0 =>
        obtain rfl : n = 2 := hok
        obtain rfl := congrArg Prod.fst (Option.some.inj h)
        exact copyStore_ok ..
      | fault f =>
        have hawake : f.sleeps hit = false := hcalm.copy_awake (by rw [hl]) hok.2
        simp only [LockShared.next, hawake, Bool.false_and, Bool.false_eq_true, if_false] at h
        refine copyFault_ok hok.1 ?_ h
        rintro found m again j v rfl
        exact hcalm.update (by rw [hl])
    | _ => cases f <;> cases h
  | _ => cases f <;> cases h

/-- The number of locks at each point, through one step. -/
theorem Holder.Ok.next {a : LockAct} (hok : (c.loc p).Ok) (hcalm : Calm c p a)
    (h : c.mem.next S p a (c.loc p) = some (l', g')) : l'.Ok := by
  generalize hl : c.loc p = l at hok h
  obtain ⟨pc, n⟩ := l
  cases pc with
  | kern pc => exact kern_next_ok hl hok hcalm h
  | waiting addr => exact waiting_next_ok hok h
  | asleep addr =>
    cases a with
    | wake =>
      obtain ⟨-, heq⟩ := Option.ite_none_right_eq_some.1 h
      obtain ⟨rfl, -⟩ := Prod.mk.inj (Option.some.inj heq)
      exact congrArg (· + 1) hok
    | _ => cases h
  | copy q dstva src f => exact copy_next_ok hl hok hcalm h
  | schedLocks => exact hok.elim

end Steps

/-! ## Runs -/

section Runs

variable {σ : Type} {S : SwapOps σ} {k : Kernel σ} {c : Cfg ProcIdx Holder (LockShared σ)}

/-- **No sleep with a spinlock held.** In every run of processes that fault, fork and wait, on any
kernel state, in which no transfer of `fork` and `wait` has to sleep, `sched` does not panic. -/
theorem schedLocks_unreachable (h : (lockSystem S).Reaches Calm (lockStart k) c) (p : ProcIdx) :
    (c.loc p).pc ≠ .schedLocks := by
  have hok : ∀ p, (c.loc p).Ok := by
    refine h.inv (P := fun c => ∀ p, (c.loc p).Ok) ?_ fun p => rfl
    intro c q a l g hcalm hok hn p
    by_cases hp : p = q
    · subst hp
      simpa using (hok p).next hcalm hn
    · simpa [hp] using hok p
  intro hpc
  have hp := hok p
  rw [Holder.Ok, hpc] at hp
  exact hp

end Runs

/-- The kernel of `bothSwapped` with more free pages. -/
def roomyKernel : Kernel Unit :=
  { bothSwapped.mem.kern with freelist := (List.range 10).map fun i => pageNo (6 + i) }

/-- A process swaps in its first page, forks, and waits for the child, whose status is copied to
that page. -/
def forkAndWait : List (ProcIdx × LockAct) :=
  List.flatten [(proc₁, .act (.fault 0) false) :: List.replicate 8 (proc₁, .act .go false),
    (proc₁, .act (.fork proc₂) false) :: List.replicate 4 (proc₁, .act .go false),
    [(proc₂, .act (.exit 7) false), (proc₁, .wait 8), (proc₁, .found proc₂)],
    List.replicate 12 (proc₁, .act .go false)]

theorem schedLocks_unreachable_forkAndWait :
    ∃ c, (lockSystem nullSwap).Reaches Calm (lockStart roomyKernel) c ∧
      (c.loc proc₁).pc = .kern .user ∧ ∀ p, (c.loc p).pc ≠ .schedLocks := by
  have hrun : ((lockSystem nullSwap).execWhile Calm forkAndWait (lockStart roomyKernel)).map
      (fun c => (c.loc proc₁).pc) = some (.kern .user) := by
    decide +kernel
  obtain ⟨c, hc, hpc⟩ := Option.map_eq_some_iff.1 hrun
  have hreach := System.reaches_of_execWhile hc
  exact ⟨c, hreach, hpc, schedLocks_unreachable hreach⟩

/-- `fork` of a process with a page in swap: `uvmcopy` reads the page, which is in no buffer, with
the lock of the child held. -/
def forkSwapped : List (ProcIdx × LockAct) :=
  (proc₀, .act (.fork proc₂) false) :: List.replicate 3 (proc₀, .act .go false)

theorem fork_sleeps :
    ∃ c, (lockSystem nullSwap).Reaches System.any (lockStart bothSwapped.mem.kern) c ∧
      (c.loc proc₀).pc = .schedLocks := by
  have hrun : ((lockSystem nullSwap).exec forkSwapped (lockStart bothSwapped.mem.kern)).map
      (fun c => (c.loc proc₀).pc) = some .schedLocks := by
    decide +kernel
  obtain ⟨c, hc, hpc⟩ := Option.map_eq_some_iff.1 hrun
  exact ⟨c, System.reaches_of_exec hc, hpc⟩

end Xv6Swap.Paging
