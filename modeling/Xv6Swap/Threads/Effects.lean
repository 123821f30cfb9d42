import Xv6Swap.Paging.Sections
import Xv6Swap.Threads.Life

/-!
# What steps do to the tables

A process inside the kernel may hold a victim of an eviction with its reserved swap slot, a slot
reserved by `uvmcopy`, or an entry of the swap map that its page fault has found (`Hold`). Each step
is one of the critical sections on the frame table and the swap map or leaves them alone, and
changes what its process holds accordingly (`TableStep`, `next_tables`).
-/

namespace Xv6Swap.Paging

open Interleave (System Cfg)
open Raid (pgSize)
open Tables (SameEntries Begun)

/-! ## What a process holds -/

def EvictPc.victim : EvictPc → Option Victim
  | .update _ v | .abort _ v | .write v _ _ | .restore v _ _ | .undo v | .publish v _ => some v
  | .select _ | .free _ _ => none

def AllocPc.victim : AllocPc → Option Victim
  | .evict _ _ e => e.victim
  | _ => none

def FaultPc.victim : FaultPc → Option Victim
  | .alloc _ a => a.victim
  | _ => none

/-- The entry of the swap map that a page fault has found. -/
def FaultPc.found : FaultPc → Found
  | .alloc found _ | .map found _ | .finish found _ => found
  | .read i slot _ => some (i, slot)
  | .enter | .touch | .addr | .lookup | .drop _ | .dropFree _ => none

/-- The slot that `uvmcopy` has reserved for the child. -/
def ForkPc.dst : ForkPc → Option SlotIdx
  | .write _ _ dst | .unreserve _ _ dst | .insert _ dst => some dst
  | _ => none

/-- What a process holds of the frame table and the swap map. -/
structure Hold where
  victim : Option Victim
  dst : Option SlotIdx
  found : Found

def Hold.none : Hold := ⟨.none, .none, .none⟩

/-- A property of the point that a step leads to, with a default for a return. -/
def Next.getD {α β γ : Type} (f : α → γ) (d : γ) : Next α β → γ
  | .go pc => f pc
  | .ret _ => d

def FaultPc.hold (pc : FaultPc) : Hold := ⟨pc.victim, none, pc.found⟩

def ForkPc.hold (pc : ForkPc) : Hold := ⟨none, pc.dst, none⟩

def Pc.hold : Pc → Hold
  | .fault _ pc => pc.hold
  | .fork _ pc => pc.hold
  | .user | .grow _ | .reap _ _ => .none

/-! ## Effects -/

/-- What a step inside `kalloc_user` does, with the victim that is held before and after it. -/
inductive AllocEffect (p : ProcIdx) (va : ℕ) :
    Option Victim → Tables → Option Victim → Tables → Prop
  | same {v : Option Victim} {t t' : Tables} (h : SameEntries t t') : AllocEffect p va v t v t'
  | begun {v : Victim} {t t' : Tables} (h : Begun t t' v) : AllocEffect p va none t (some v) t'
  | abort {v : Victim} {t : Tables} : AllocEffect p va (some v) t none (t.evictAbort v)
  | undo {v : Victim} {t : Tables} : AllocEffect p va (some v) t none (t.evictUndo v)
  | publish {v : Victim} {t : Tables} : AllocEffect p va (some v) t none (t.evictPublish v)
  | register {t t' : Tables} (h : t.registerUserFrame p va = some t') :
      AllocEffect p va none t none t'

/-- What a step of the process `p` from the point `l` does. -/
inductive TableStep (p : ProcIdx) (l : Pc) : Hold → Tables → Hold → Tables → Prop
  | same {h : Hold} {t t' : Tables} (hsame : SameEntries t t') : TableStep p l h t h t'
  | forget {found : Found} {t : Tables} : TableStep p l ⟨none, none, found⟩ t .none t
  | lookup (va : ℕ) {t : Tables} :
      TableStep p l .none t
        ⟨none, none, (t.findSwap p va).map fun i => (i, (t.swapMap i).swapSlot)⟩ t
  | alloc {va : ℕ} {v v' : Option Victim} {found found' : Found} {t t' : Tables}
      (h : AllocEffect p va v t v' t') (hfound : found' = found ∨ found' = none) :
      TableStep p l ⟨v, none, found⟩ t ⟨v', none, found'⟩ t'
  | freeFrame {o : Option ProcIdx} {va : ℕ} {t : Tables} (ho : o = none ∨ o = some p) :
      TableStep p l .none t .none (t.freeFrameEntry o va)
  | finish {va : ℕ} {i : SlotIdx} {slot : Option SlotIdx} {t : Tables} :
      TableStep p l ⟨none, none, some (i, slot)⟩ t .none
        ((t.setRefBit p va).releaseSwap i slot)
  | freeSwap {va : ℕ} {t : Tables} : TableStep p l .none t .none (t.freeSwapEntry p va)
  | reserve {dst : SlotIdx} {t t' : Tables} (h : t.reserveSlot = some (dst, t')) :
      TableStep p l .none t ⟨none, some dst, none⟩ t'
  | unreserve {dst : SlotIdx} {t : Tables} :
      TableStep p l ⟨none, some dst, none⟩ t .none (t.setSwapUsed dst false)
  | insert {q : ProcIdx} {n : ℕ} {i dst : SlotIdx} {t : Tables} (hl : l = .fork q (.insert n dst))
      (hi : (Fin.find? fun i => !(t.swapMap i).used) = some i) :
      TableStep p l ⟨none, some dst, none⟩ t .none
        (t.setSwap i ⟨true, some q, n * pgSize, some dst⟩)
  | freeProc {q : ProcIdx} {t : Tables} (hq : l.target = some q) :
      TableStep p l .none t .none (t.freeProcSwapSlots q)

namespace Kernel

variable {σ : Type} {S : SwapOps σ} {k k' : Kernel σ} {p q cur : ProcIdx} {va : ℕ}

/-! ## Page faults -/

theorem evictSelect_effect {n : ℕ} {next : Next EvictPc Bool} (h : k.evictSelect n = (next, k')) :
    AllocEffect p va none k.tables (next.getD EvictPc.victim none) k'.tables := by
  cases n with
  | zero =>
    obtain ⟨rfl, rfl⟩ := Prod.mk.inj h
    exact .same (.refl _)
  | succ n =>
    simp only [evictSelect] at h
    split at h
    · rename_i hbegin
      obtain ⟨rfl, rfl⟩ := Prod.mk.inj h
      exact .same (Tables.evictBegin_none hbegin)
    · rename_i hbegin
      obtain ⟨rfl, rfl⟩ := Prod.mk.inj h
      exact .begun (Tables.evictBegin_some hbegin)

theorem evictUpdate_effect {n : ℕ} {v : Victim} {next : Next EvictPc Bool}
    (h : k.evictUpdate n v = .ok (next, k')) :
    AllocEffect p va (some v) k.tables (next.getD EvictPc.victim none) k'.tables := by
  have hsame : SameEntries k.tables k'.tables := by
    rw [(evictUpdate_life h).1]
    exact .refl _
  unfold evictUpdate at h
  split at h
  · obtain ⟨rfl, -⟩ := Prod.mk.inj (Except.ok.inj h)
    exact .same hsame
  · split at h
    · cases h
    · split at h <;> (obtain ⟨rfl, -⟩ := Prod.mk.inj (Except.ok.inj h); exact .same hsame)

theorem evictNext_effect {e : EvictPc} {next : Next EvictPc Bool}
    (h : k.evictNext S e = .ok (next, k')) :
    AllocEffect p va e.victim k.tables (next.getD EvictPc.victim none) k'.tables := by
  cases e with
  | select n => exact evictSelect_effect (Except.ok.inj h)
  | update n v => exact evictUpdate_effect h
  | abort n v =>
    obtain ⟨rfl, rfl⟩ := Prod.mk.inj (Except.ok.inj h)
    exact .abort
  | write v root pte =>
    obtain ⟨rfl, rfl⟩ := Prod.mk.inj (Except.ok.inj h)
    have hv : ((if (S.write v.slot (k.mem pte.pa) k.swap).1 < 0 then .restore v root pte
        else .publish v pte.pa : EvictPc)).victim = some v := by
      split <;> rfl
    simp only [Next.getD, hv]
    exact .same (.refl _)
  | restore v root pte =>
    obtain ⟨rfl, rfl⟩ := Prod.mk.inj (Except.ok.inj h)
    exact .same (.refl _)
  | undo v =>
    obtain ⟨rfl, rfl⟩ := Prod.mk.inj (Except.ok.inj h)
    exact .undo
  | publish v pa =>
    obtain ⟨rfl, rfl⟩ := Prod.mk.inj (Except.ok.inj h)
    exact .publish
  | free v pa =>
    obtain ⟨k₁, hfree, h⟩ := bind_eq_ok.1 h
    obtain ⟨rfl, rfl⟩ := Prod.mk.inj (Except.ok.inj h)
    have htab : k₁.tables = k.tables := by
      rw [(kfree_untouched hfree).tables]
      unfold countEviction
      split <;> rfl
    exact .same (htab ▸ .refl _)

theorem allocEvicted_victim (n : ℕ) (again : Bool) (next : Next EvictPc Bool) :
    (allocEvicted n again next).getD AllocPc.victim none = next.getD EvictPc.victim none := by
  match next with
  | .go e => rfl
  | .ret false => rfl
  | .ret true => cases again <;> cases n <;> rfl

theorem allocNext_effect {a : AllocPc} {next : Next AllocPc (Option PA)}
    (h : k.allocNext S p va a = .ok (next, k')) :
    AllocEffect p va a.victim k.tables (next.getD AllocPc.victim none) k'.tables := by
  cases a with
  | need n =>
    obtain ⟨rfl, rfl⟩ := Prod.mk.inj (Except.ok.inj h)
    have hv : (if k.tables.needEvict then .evict n false (.select maxFrames)
        else .pop n : AllocPc).victim = none := by
      split <;> rfl
    simp only [Next.getD, hv]
    exact .same (.refl _)
  | evict n again e =>
    obtain ⟨⟨next', k₁⟩, hevict, h⟩ := bind_eq_ok.1 h
    obtain ⟨rfl, rfl⟩ := Prod.mk.inj (Except.ok.inj h)
    rw [allocEvicted_victim]
    exact evictNext_effect hevict
  | pop n =>
    have htab := (allocPop_untouched (Except.ok.inj h)).tables
    have hv : next.getD AllocPc.victim none = none := by
      have hpop := Except.ok.inj h
      unfold allocPop at hpop
      split at hpop <;> (obtain ⟨rfl, -⟩ := Prod.mk.inj hpop; rfl)
    rw [hv, htab]
    exact .same (.refl _)
  | canRetry n =>
    obtain ⟨rfl, rfl⟩ := Prod.mk.inj (Except.ok.inj h)
    have hv : Next.getD AllocPc.victim none (if k.tables.userFrameCount = 0 then .ret none
        else .go (.evict n true (.select maxFrames)) : Next AllocPc (Option PA)) = none := by
      split <;> rfl
    rw [hv]
    exact .same (.refl _)
  | register n pa =>
    have hreg := Except.ok.inj h
    unfold allocRegister at hreg
    split at hreg
    · rename_i t ht
      obtain ⟨rfl, rfl⟩ := Prod.mk.inj hreg
      exact .register ht
    · obtain ⟨rfl, rfl⟩ := Prod.mk.inj hreg
      exact .same (.refl _)
  | giveBack n pa =>
    obtain ⟨k₁, hfree, h⟩ := bind_eq_ok.1 h
    obtain ⟨rfl, rfl⟩ := Prod.mk.inj (Except.ok.inj h)
    rw [(kfree_untouched hfree).tables]
    exact .same (.refl _)

theorem faultEnter_hold {next : Next FaultPc (Option PA)} (h : k.faultEnter p va = .ok (next, k')) :
    next.getD FaultPc.hold .none = .none := by
  unfold faultEnter at h
  split at h
  · obtain ⟨rfl, -⟩ := Prod.mk.inj (Except.ok.inj h)
    rfl
  · split at h
    · obtain ⟨rfl, -⟩ := Prod.mk.inj (Except.ok.inj h)
      rfl
    · obtain ⟨mapped, -, h⟩ := bind_eq_ok.1 h
      split at h <;> (obtain ⟨rfl, -⟩ := Prod.mk.inj (Except.ok.inj h); rfl)

theorem faultAlloced_hold (found : Found) (next : Next AllocPc (Option PA)) :
    ∃ found', (faultAlloced found next).getD FaultPc.hold .none =
      ⟨next.getD AllocPc.victim none, none, found'⟩ ∧ (found' = found ∨ found' = none) := by
  match next, found with
  | .go a, found => exact ⟨found, rfl, .inl rfl⟩
  | .ret none, _ => exact ⟨none, rfl, .inr rfl⟩
  | .ret (some pa), some (i, slot) => exact ⟨some (i, slot), rfl, .inl rfl⟩
  | .ret (some pa), none => exact ⟨none, rfl, .inl rfl⟩

theorem faultMap_hold {found : Found} {pa : PA} {next : Next FaultPc (Option PA)}
    (h : k.faultMap p va found pa = .ok (next, k')) :
    next.getD FaultPc.hold .none = ⟨none, none, found⟩ ∨
      next.getD FaultPc.hold .none = .none := by
  unfold faultMap at h
  split at h
  · obtain ⟨rfl, -⟩ := Prod.mk.inj (Except.ok.inj h)
    exact .inr rfl
  · obtain ⟨⟨ok, k₁⟩, hmap, h⟩ := bind_eq_ok.1 h
    obtain ⟨rfl, -⟩ := Prod.mk.inj (Except.ok.inj h)
    cases ok
    · exact .inr rfl
    · exact .inl rfl

theorem faultFinish_step {l : Pc} (p : ProcIdx) (va : ℕ) (found : Found)
    (k : Kernel σ) :
    TableStep p l ⟨none, none, found⟩ k.tables .none (k.faultFinish p va found).tables := by
  match found with
  | some (i, slot) => exact .finish
  | none => exact .same (Tables.sameEntries_setRefBit _ p va)

theorem faultNext_lookup :
    k.faultNext S p va .lookup =
      .ok (.go (.alloc ((k.tables.findSwap p (pgRoundDown va)).map fun i =>
        (i, (k.tables.swapMap i).swapSlot)) (.need 1)), k) := rfl

theorem alloc_need_hold (found : Found) (n : ℕ) :
    (.go (.alloc found (.need n)) : Next FaultPc (Option PA)).getD FaultPc.hold .none =
      ⟨none, none, found⟩ := rfl

theorem faultNext_read (i : SlotIdx) (slot : Option SlotIdx) (pa : PA) :
    k.faultNext S p va (.read i slot pa) =
      .ok (.go (if (k.readSwap S slot pa).1 then .map (some (i, slot)) pa else .drop pa),
        (k.readSwap S slot pa).2) := rfl

/-- The steps of a page fault. -/
theorem faultNext_step {l : Pc} {f : FaultPc} {next : Next FaultPc (Option PA)}
    (h : k.faultNext S p va f = .ok (next, k')) :
    TableStep p l f.hold k.tables (next.getD FaultPc.hold .none) k'.tables := by
  cases f with
  | enter =>
    rw [faultEnter_hold h, (faultEnter_life h).1]
    exact .same (.refl _)
  | touch =>
    obtain ⟨rfl, rfl⟩ := Prod.mk.inj (Except.ok.inj h)
    exact .same (Tables.sameEntries_setRefBit _ p _)
  | addr =>
    obtain ⟨rfl, rfl⟩ := Prod.mk.inj (Except.ok.inj h)
    exact .same (.refl _)
  | lookup =>
    rw [faultNext_lookup] at h
    obtain ⟨rfl, rfl⟩ := Prod.mk.inj (Except.ok.inj h)
    rw [alloc_need_hold]
    exact .lookup (pgRoundDown va)
  | alloc found a =>
    obtain ⟨⟨next', k₁⟩, halloc, h⟩ := bind_eq_ok.1 h
    obtain ⟨rfl, rfl⟩ := Prod.mk.inj (Except.ok.inj h)
    obtain ⟨found', heq, hfound⟩ := faultAlloced_hold found next'
    rw [heq]
    exact .alloc (allocNext_effect halloc) hfound
  | read i slot pa =>
    have htab := (readSwap_life (S := S) slot pa k).1
    rw [faultNext_read] at h
    obtain ⟨rfl, rfl⟩ := Prod.mk.inj (Except.ok.inj h)
    rw [htab]
    cases (k.readSwap S slot pa).1
    · exact .forget
    · exact .same (.refl _)
  | map found pa =>
    rw [(faultMap_life h).1]
    rcases faultMap_hold h with heq | heq <;> rw [heq]
    · exact .same (.refl _)
    · exact .forget
  | drop pa =>
    obtain ⟨rfl, rfl⟩ := Prod.mk.inj (Except.ok.inj h)
    exact .freeFrame (.inr rfl)
  | dropFree pa =>
    obtain ⟨k₁, hfree, h⟩ := bind_eq_ok.1 h
    obtain ⟨rfl, rfl⟩ := Prod.mk.inj (Except.ok.inj h)
    rw [(kfree_untouched hfree).tables]
    exact .same (.refl _)
  | finish found pa =>
    obtain ⟨rfl, rfl⟩ := Prod.mk.inj (Except.ok.inj h)
    exact faultFinish_step p _ found k

/-! ## Address spaces -/

theorem unmapRound_owner (o : Option ProcIdx) (root : PA) (a n : ℕ) :
    (unmapRound o root a n).getD Unmapping.owner none = none ∨
      (unmapRound o root a n).getD Unmapping.owner none = o := by
  cases n with
  | zero => exact .inl rfl
  | succ n => exact .inr rfl

theorem unmapStart_owner (cur : ProcIdx) (root : PA) (a n : ℕ) (k : Kernel σ) :
    (k.unmapStart cur root a n).getD Unmapping.owner none = none ∨
      (k.unmapStart cur root a n).getD Unmapping.owner none = some cur := by
  rcases unmapRound_owner (k.unmapOwner cur root) root a n with h | h
  · exact .inl h
  · unfold unmapStart
    rw [h, unmapOwner]
    split
    · exact .inr rfl
    · exact .inl rfl

/-- The steps of `uvmunmap`. -/
theorem unmapNext_step {l : Pc} {u : Unmapping} {next : Next Unmapping Unit}
    (ho : u.owner = none ∨ u.owner = some p) (h : k.unmapNext u = .ok (next, k')) :
    TableStep p l .none k.tables .none k'.tables ∧
      (next.getD Unmapping.owner none = none ∨ next.getD Unmapping.owner none = some p) := by
  have hround : ∀ a n, (unmapRound u.owner u.root a n).getD Unmapping.owner none = none ∨
      (unmapRound u.owner u.root a n).getD Unmapping.owner none = some p := by
    intro a n
    rcases unmapRound_owner u.owner u.root a n with h | h
    · exact .inl h
    · rw [h]
      exact ho
  unfold unmapNext at h
  split at h
  · rename_i a n hpc
    have hfree : TableStep p l .none k.tables .none (k.tables.freeSwapEntry p a) := .freeSwap
    obtain ⟨rfl, rfl⟩ := Prod.mk.inj (Except.ok.inj h)
    refine ⟨?_, ho⟩
    rcases ho with ho | ho <;> simp only [ho]
    · exact .same (.refl _)
    · exact hfree
  · split at h
    · cases h
    · split at h
      · obtain ⟨rfl, rfl⟩ := Prod.mk.inj (Except.ok.inj h)
        exact ⟨.same (.refl _), hround _ _⟩
      · obtain ⟨rfl, rfl⟩ := Prod.mk.inj (Except.ok.inj h)
        exact ⟨.same (.refl _), ho⟩
  · obtain ⟨rfl, rfl⟩ := Prod.mk.inj (Except.ok.inj h)
    exact ⟨.freeFrame ho, ho⟩
  · rename_i a n pte hpc
    obtain ⟨k₁, hfree, h⟩ := bind_eq_ok.1 h
    obtain ⟨rfl, rfl⟩ := Prod.mk.inj (Except.ok.inj h)
    have htab : (k₁.setLeaf u.root a none).tables = k.tables := (kfree_untouched hfree).tables
    rw [htab]
    exact ⟨.same (.refl _), hround _ _⟩

theorem growUnmapped_owner (sz : Option ℕ) (next : Next Unmapping Unit) :
    (growUnmapped sz next).getD GrowPc.owner none = next.getD Unmapping.owner none := by
  cases next <;> rfl

theorem deallocStart_owner (cur : ProcIdx) (root : PA) (oldsz newsz : ℕ) (sz : Option ℕ)
    (k : Kernel σ) : (k.deallocStart cur root oldsz newsz sz).getD GrowPc.owner none = none ∨
      (k.deallocStart cur root oldsz newsz sz).getD GrowPc.owner none = some cur := by
  unfold deallocStart
  split
  · rw [growUnmapped_owner]
    exact unmapStart_owner cur root _ _ k
  · exact .inl rfl

theorem growRound_owner (root : PA) (oldsz sz a n : ℕ) :
    (growRound root oldsz sz a n).getD GrowPc.owner none = none := by
  cases n <;> rfl

theorem growStart_owner (cur : ProcIdx) (n : ℤ) (k : Kernel σ) :
    (k.growStart cur n).getD GrowPc.owner none = none ∨
      (k.growStart cur n).getD GrowPc.owner none = some cur := by
  unfold growStart
  split
  · exact .inl rfl
  · dsimp only
    split
    · split
      · exact .inl rfl
      · exact .inl (growRound_owner ..)
    · exact deallocStart_owner ..

/-- The steps of `growproc`. -/
theorem growNext_step {l : Pc} {pc : GrowPc} {next : Next GrowPc (Option ℕ)}
    (ho : pc.owner = none ∨ pc.owner = some p) (h : k.growNext p pc = .ok (next, k')) :
    TableStep p l .none k.tables .none k'.tables ∧
      (next.getD GrowPc.owner none = none ∨ next.getD GrowPc.owner none = some p) := by
  cases pc with
  | alloc root oldsz sz a n =>
    refine ⟨(growAlloc_untouched h).tables ▸ .same (.refl _), ?_⟩
    simp only [growNext] at h
    split at h
    · obtain ⟨rfl, -⟩ := Prod.mk.inj (Except.ok.inj h)
      exact deallocStart_owner ..
    · obtain ⟨⟨ok, k₂⟩, -, h⟩ := bind_eq_ok.1 h
      dsimp only at h
      split at h
      · obtain ⟨k₃, -, h⟩ := bind_eq_ok.1 h
        obtain ⟨rfl, -⟩ := Prod.mk.inj (Except.ok.inj h)
        exact deallocStart_owner ..
      · obtain ⟨rfl, -⟩ := Prod.mk.inj (Except.ok.inj h)
        exact .inl (growRound_owner ..)
  | unmap sz u =>
    obtain ⟨⟨next', k₁⟩, hunmap, h⟩ := bind_eq_ok.1 h
    obtain ⟨rfl, rfl⟩ := Prod.mk.inj (Except.ok.inj h)
    rw [growUnmapped_owner]
    exact unmapNext_step ho hunmap

theorem freeUnmapped_owner (root : PA) (next : Next Unmapping Unit) :
    (freeUnmapped root next).getD FreePc.owner none = next.getD Unmapping.owner none := by
  cases next <;> rfl

/-- The steps of `freeproc`. -/
theorem freeNext_step {l : Pc} {pc : FreePc} {next : Next FreePc Unit} (hl : l.target = some q)
    (ho : pc.owner = none ∨ pc.owner = some p) (h : k.freeNext p q pc = .ok (next, k')) :
    TableStep p l .none k.tables .none k'.tables ∧
      (next.getD FreePc.owner none = none ∨ next.getD FreePc.owner none = some p) := by
  cases pc with
  | trapframe =>
    obtain ⟨k₁, hfree, h⟩ := bind_eq_ok.1 h
    obtain ⟨rfl, rfl⟩ := Prod.mk.inj (Except.ok.inj h)
    rw [(freeTrapframe_life hfree).1]
    refine ⟨.same (.refl _), .inl ?_⟩
    cases (k₁.procs q).pagetable.isSome <;> rfl
  | slots =>
    have hfree : TableStep p l .none k.tables .none (k.tables.freeProcSwapSlots q) :=
      .freeProc hl
    simp only [freeNext] at h
    generalize k.tables.freeProcSwapSlots q = t at h hfree
    obtain ⟨rfl, rfl⟩ := Prod.mk.inj (Except.ok.inj h)
    exact ⟨hfree, .inl rfl⟩
  | detach =>
    simp only [freeNext] at h
    split at h
    · obtain ⟨rfl, rfl⟩ := Prod.mk.inj (Except.ok.inj h)
      exact ⟨.same (.refl _), .inl rfl⟩
    · obtain ⟨k₁, hunmap₁, h⟩ := bind_eq_ok.1 h
      obtain ⟨k₂, hunmap₂, h⟩ := bind_eq_ok.1 h
      obtain ⟨rfl, rfl⟩ := Prod.mk.inj (Except.ok.inj h)
      have hk := (uvmunmap_keep_untouched hunmap₁).trans (uvmunmap_keep_untouched hunmap₂)
      rw [hk.tables, freeUnmapped_owner]
      exact ⟨.same (.refl _), unmapStart_owner ..⟩
  | pages u =>
    obtain ⟨⟨next', k₁⟩, hunmap, h⟩ := bind_eq_ok.1 h
    obtain ⟨rfl, rfl⟩ := Prod.mk.inj (Except.ok.inj h)
    rw [freeUnmapped_owner]
    exact unmapNext_step ho hunmap
  | walk root =>
    obtain ⟨k₁, hwalk, h⟩ := bind_eq_ok.1 h
    obtain ⟨rfl, rfl⟩ := Prod.mk.inj (Except.ok.inj h)
    rw [(freewalk_untouched hwalk).tables]
    exact ⟨.same (.refl _), .inl rfl⟩
  | reset =>
    obtain ⟨rfl, rfl⟩ := Prod.mk.inj (Except.ok.inj h)
    exact ⟨.same (.refl _), .inl rfl⟩

theorem insertSwap_eq {t : Tables} {dst : SlotIdx} {b : Bool} {t' : Tables}
    (h : t.insertSwap q va dst = (b, t')) :
    (∃ i, (Fin.find? fun i => !(t.swapMap i).used) = some i ∧ b = true ∧
      t' = t.setSwap i ⟨true, some q, va, some dst⟩) ∨
      b = false ∧ t' = t.setSwapUsed dst false := by
  unfold Tables.insertSwap at h
  split at h
  · rename_i i hi
    obtain ⟨rfl, rfl⟩ := Prod.mk.inj h
    exact .inl ⟨i, hi, rfl, rfl⟩
  · obtain ⟨rfl, rfl⟩ := Prod.mk.inj h
    exact .inr ⟨rfl, rfl⟩

theorem copyInsert_step {i : ℕ} {dst : SlotIdx} {next : Next ForkPc Bool}
    (h : k.copyInsert q i dst = (next, k')) :
    TableStep p (.fork q (.insert i dst)) ⟨none, some dst, none⟩ k.tables
        (next.getD ForkPc.hold .none) k'.tables ∧
      next.getD ForkPc.owner none = none := by
  unfold copyInsert at h
  cases hins : k.tables.insertSwap q (i * pgSize) dst with
  | mk b t =>
    simp only [hins] at h
    rcases insertSwap_eq hins with ⟨j, hj, rfl, rfl⟩ | ⟨rfl, rfl⟩
    · obtain ⟨rfl, rfl⟩ := Prod.mk.inj h
      exact ⟨.insert rfl hj, rfl⟩
    · obtain ⟨rfl, rfl⟩ := Prod.mk.inj h
      exact ⟨.unreserve, rfl⟩

theorem forkUnmapped_owner (next : Next Unmapping Unit) :
    (forkUnmapped next).owner = next.getD Unmapping.owner none ∧
      (forkUnmapped next).hold = .none := by
  cases next <;> exact ⟨rfl, rfl⟩

theorem copyPage_step {l : Pc} {i : ℕ} {next : Next ForkPc Bool}
    (h : k.copyPage p q i = .ok (next, k')) :
    TableStep p l .none k.tables (next.getD ForkPc.hold .none) k'.tables ∧
      next.getD ForkPc.owner none = none := by
  unfold copyPage at h
  split at h
  · obtain ⟨rfl, rfl⟩ := Prod.mk.inj (Except.ok.inj h)
    exact ⟨.same (.refl _), rfl⟩
  · split at h
    · obtain ⟨rfl, rfl⟩ := Prod.mk.inj (Except.ok.inj h)
      exact ⟨.same (.refl _), rfl⟩
    · obtain ⟨⟨pc, k₁⟩, hcopy, h⟩ := bind_eq_ok.1 h
      obtain ⟨rfl, rfl⟩ := Prod.mk.inj (Except.ok.inj h)
      obtain ⟨hk, hpc⟩ := copyResident_untouched hcopy
      rw [hk.tables]
      rcases hpc with rfl | rfl <;> exact ⟨.same (.refl _), rfl⟩

theorem copyLookup_hold (p : ProcIdx) (i : ℕ) (k : Kernel σ) :
    (k.copyLookup p i).hold = .none ∧ (k.copyLookup p i).owner = none := by
  unfold copyLookup
  split <;> exact ⟨rfl, rfl⟩

/-- The steps of `fork`. -/
theorem forkNext_step {pc : ForkPc} {next : Next ForkPc Bool}
    (ho : pc.owner = none ∨ pc.owner = some p) (h : k.forkNext S p q pc = .ok (next, k')) :
    TableStep p (.fork q pc) pc.hold k.tables (next.getD ForkPc.hold .none) k'.tables ∧
      (next.getD ForkPc.owner none = none ∨ next.getD ForkPc.owner none = some p) := by
  cases pc with
  | page i =>
    obtain ⟨hstep, hown⟩ := copyPage_step (h : k.copyPage p q i = _)
    exact ⟨hstep, .inl hown⟩
  | lookup i =>
    obtain ⟨hhold, hown⟩ := copyLookup_hold p i k
    obtain ⟨rfl, rfl⟩ := Prod.mk.inj (Except.ok.inj h)
    simp only [Next.getD, hhold, hown]
    exact ⟨.same (.refl _), .inl trivial⟩
  | read i src =>
    obtain ⟨⟨pc', k₁⟩, hread, h⟩ := bind_eq_ok.1 h
    obtain ⟨rfl, rfl⟩ := Prod.mk.inj (Except.ok.inj h)
    obtain ⟨htab, -, hpc⟩ := copyRead_life hread
    rw [htab]
    rcases hpc with rfl | ⟨tmp, rfl⟩ <;> exact ⟨.same (.refl _), .inl rfl⟩
  | reserve i tmp =>
    obtain ⟨⟨pc', k₁⟩, hreserve, h⟩ := bind_eq_ok.1 h
    obtain ⟨rfl, rfl⟩ := Prod.mk.inj (Except.ok.inj h)
    obtain ⟨-, ⟨htab, rfl⟩ | ⟨dst, hslot, rfl⟩⟩ := copyReserve_life hreserve
    · rw [htab]
      exact ⟨.same (.refl _), .inl rfl⟩
    · exact ⟨.reserve hslot, .inl rfl⟩
  | write i tmp dst =>
    obtain ⟨⟨pc', k₁⟩, hwrite, h⟩ := bind_eq_ok.1 h
    obtain ⟨rfl, rfl⟩ := Prod.mk.inj (Except.ok.inj h)
    obtain ⟨htab, -, hpc⟩ := copyWrite_life hwrite
    rw [htab]
    rcases hpc with rfl | rfl <;> exact ⟨.same (.refl _), .inl rfl⟩
  | unreserve i tmp dst =>
    obtain ⟨k₁, hfree, h⟩ := bind_eq_ok.1 h
    obtain ⟨rfl, rfl⟩ := Prod.mk.inj (Except.ok.inj h)
    rw [(kfree_untouched hfree).tables]
    exact ⟨.unreserve, .inl rfl⟩
  | insert i dst =>
    obtain ⟨hstep, hown⟩ := copyInsert_step (p := p) (Except.ok.inj h)
    exact ⟨hstep, .inl hown⟩
  | err i =>
    obtain ⟨rfl, rfl⟩ := Prod.mk.inj (Except.ok.inj h)
    simp only [Next.getD, copyErr]
    split
    · exact ⟨.same (.refl _), .inl rfl⟩
    · rename_i root hroot
      obtain ⟨hown, hhold⟩ := forkUnmapped_owner (k.unmapStart p root 0 i)
      rw [hown, hhold]
      exact ⟨.same (.refl _), unmapStart_owner p root 0 i k⟩
  | undo u =>
    obtain ⟨⟨next', k₁⟩, hunmap, h⟩ := bind_eq_ok.1 h
    obtain ⟨rfl, rfl⟩ := Prod.mk.inj (Except.ok.inj h)
    obtain ⟨hown, hhold⟩ := forkUnmapped_owner next'
    simp only [Next.getD, hown, hhold]
    exact unmapNext_step ho hunmap
  | free pc =>
    obtain ⟨⟨next', k₁⟩, hfree, h⟩ := bind_eq_ok.1 h
    have hstep := freeNext_step (l := .fork q (.free pc)) rfl ho hfree
    cases next' with
    | go pc' =>
      obtain ⟨rfl, rfl⟩ := Prod.mk.inj (Except.ok.inj h)
      exact hstep
    | ret r =>
      obtain ⟨rfl, rfl⟩ := Prod.mk.inj (Except.ok.inj h)
      exact hstep

end Kernel

/-! ## Every step -/

section Steps

variable {σ : Type} {S : SwapOps σ} {g g' : Shared σ} {p q : ProcIdx} {l l' : Pc} {a : Act}

theorem setSize_tables (g : Shared σ) (p : ProcIdx) (sz : Option ℕ) (k : Kernel σ) :
    (g.setSize p sz k).kern.tables = k.tables := by
  cases sz <;> rfl

theorem userSbrk_tables {n : Int32} {eager : Bool} (h : g.userSbrk p n eager = some (l', g')) :
    g'.kern.tables = g.kern.tables ∧ l'.hold = .none ∧ (l'.owner = none ∨ l'.owner = some p) := by
  unfold Shared.userSbrk at h
  split at h
  · rcases Shared.proceed_eq_some h with ⟨pc, k, hr, rfl, rfl⟩ | ⟨sz, k, hr, rfl, rfl⟩
    · obtain ⟨hgo, rfl⟩ := Prod.mk.inj (Except.ok.inj hr)
      have hown := g.kern.growStart_owner p n.toInt
      rw [hgo] at hown
      exact ⟨rfl, rfl, hown⟩
    · obtain ⟨-, rfl⟩ := Prod.mk.inj (Except.ok.inj hr)
      exact ⟨setSize_tables .., rfl, .inl rfl⟩
  · rename_i hn
    split at h
    · cases h
    · rename_i hsbrk
      obtain ⟨rfl, rfl⟩ := Prod.mk.inj (Option.some.inj h)
      exact ⟨(sysSbrk_lazy_life (fun hlt => hn (.inr hlt)) hsbrk).1, rfl, .inl rfl⟩

theorem userFork_tables (h : g.userFork p q = some (l', g')) :
    g'.kern.tables = g.kern.tables ∧ l'.hold = .none ∧ (l'.owner = none ∨ l'.owner = some p) := by
  unfold Shared.userFork at h
  split at h
  · cases h
  · rename_i halloc
    obtain ⟨rfl, rfl⟩ := Prod.mk.inj (Option.some.inj h)
    exact ⟨(Kernel.allocproc_life halloc).1, rfl, .inl rfl⟩
  · rename_i halloc
    obtain ⟨rfl, rfl⟩ := Prod.mk.inj (Option.some.inj h)
    exact ⟨(Kernel.allocproc_life halloc).1, rfl, .inl rfl⟩

theorem userNext_tables (h : g.userNext p a = some (l', g')) :
    g'.kern.tables = g.kern.tables ∧ l'.hold = .none ∧ (l'.owner = none ∨ l'.owner = some p) := by
  cases a with
  | go => cases h
  | fault va | exit status =>
    obtain ⟨rfl, rfl⟩ := Prod.mk.inj (Option.some.inj h)
    exact ⟨rfl, rfl, .inl rfl⟩
  | store va b =>
    obtain ⟨g₁, hstore, h⟩ := Option.map_eq_some_iff.1 h
    obtain ⟨rfl, rfl⟩ := Prod.mk.inj h
    obtain ⟨pa, -, rfl⟩ := Option.map_eq_some_iff.1 hstore
    exact ⟨rfl, rfl, .inl rfl⟩
  | sbrk n eager => exact userSbrk_tables h
  | fork q =>
    obtain ⟨-, h⟩ := Option.ite_none_right_eq_some.1 h
    exact userFork_tables h
  | wait q =>
    obtain ⟨-, h⟩ := Option.ite_none_right_eq_some.1 h
    obtain ⟨rfl, rfl⟩ := Prod.mk.inj (Option.some.inj h)
    exact ⟨rfl, rfl, .inl rfl⟩

theorem kernelNext_tables (ho : l.owner = none ∨ l.owner = some p)
    (h : g.kernelNext S p l = some (l', g')) :
    TableStep p l l.hold g.kern.tables l'.hold g'.kern.tables ∧
      (l'.owner = none ∨ l'.owner = some p) := by
  cases l with
  | user => cases h
  | fault va pc =>
    rcases Shared.proceed_eq_some h with ⟨pc', k, hr, rfl, rfl⟩ | ⟨r, k, hr, rfl, rfl⟩
    · exact ⟨Kernel.faultNext_step hr, .inl rfl⟩
    · exact ⟨Kernel.faultNext_step hr, .inl rfl⟩
  | grow pc =>
    rcases Shared.proceed_eq_some h with ⟨pc', k, hr, rfl, rfl⟩ | ⟨sz, k, hr, rfl, rfl⟩
    · exact Kernel.growNext_step ho hr
    · rw [setSize_tables]
      exact Kernel.growNext_step ho hr
  | fork q pc =>
    rcases Shared.proceed_eq_some h with ⟨pc', k, hr, rfl, rfl⟩ | ⟨r, k, hr, rfl, rfl⟩
    · exact Kernel.forkNext_step ho hr
    · exact Kernel.forkNext_step ho hr
  | reap q pc =>
    rcases Shared.proceed_eq_some h with ⟨pc', k, hr, rfl, rfl⟩ | ⟨r, k, hr, rfl, rfl⟩
    · exact Kernel.freeNext_step rfl ho hr
    · exact Kernel.freeNext_step rfl ho hr

/-- **What a step does to the frame table and the swap map.** -/
theorem next_tables (ho : l.owner = none ∨ l.owner = some p)
    (h : (procSystem S).next p a l g = some (l', g')) :
    TableStep p l l.hold g.kern.tables l'.hold g'.kern.tables ∧
      (l'.owner = none ∨ l'.owner = some p) := by
  rcases procSystem_next h with ⟨rfl, -, h⟩ | ⟨-, -, h⟩
  · obtain ⟨htab, hhold, hown⟩ := userNext_tables h
    rw [htab, hhold]
    exact ⟨.same (.refl _), hown⟩
  · exact kernelNext_tables ho h

end Steps

/-- `uvmunmap` cleans up the entries of the process that calls it only. -/
def OwnerOk {σ : Type} (c : Cfg ProcIdx Pc (Shared σ)) : Prop :=
  ∀ p, (c.loc p).owner = none ∨ (c.loc p).owner = some p

section Runs

variable {σ : Type} {S : SwapOps σ} {c : Cfg ProcIdx Pc (Shared σ)} {p : ProcIdx} {a : Act} {l : Pc}
  {g : Shared σ}

theorem Idle.ownerOk (h : Idle c) : OwnerOk c := fun p => .inl (by rw [h.user p]; rfl)

theorem OwnerOk.next (h : OwnerOk c)
    (hn : (procSystem S).next p a (c.loc p) c.mem = some (l, g)) :
    OwnerOk ⟨Function.update c.loc p l, g⟩ := by
  intro q
  by_cases hq : q = p
  · subst hq
    simpa using (next_tables (h q) hn).2
  · simpa [hq] using h q

/-- What the processes hold. -/
def holds (c : Cfg ProcIdx Pc (Shared σ)) (p : ProcIdx) : Hold := (c.loc p).hold

theorem holds_update : holds (⟨Function.update c.loc p l, g⟩ : Cfg ProcIdx Pc (Shared σ)) =
    Function.update (holds c) p l.hold := by
  funext q
  by_cases hq : q = p
  · subst hq
    simp [holds]
  · simp [holds, hq]

theorem Idle.holds (h : Idle c) : holds c = fun _ => .none := by
  funext p
  rw [Paging.holds, h.user p]
  rfl

end Runs

end Xv6Swap.Paging
