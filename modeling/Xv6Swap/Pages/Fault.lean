import Xv6Swap.Pages.Moves
import Xv6Swap.Threads.Effects

/-!
# The books during a page fault

Each step of `evict_one_user_frame`, `kalloc_user` and `vmfault` keeps the books
(`faultNext_moved`): the page that the code has in a local variable is in hand. An eviction that
writes its page to the swap disk has left a hole in the page table of the victim, where the page is
put back if the write fails.
-/

namespace Xv6Swap.Paging

open Raid (Page pgSize)
open Kernel (vpn lowIdx Steady)
open Tables (SameEntries Begun)

/-! ## User addresses -/

/-- The address is below the trapframe. -/
def UserVa (va : ℕ) : Prop := vpn va < vpn trapframeVa

theorem userVa_of_lt {va : ℕ} (h : va < trapframeVa) : UserVa va :=
  Nat.div_lt_div_of_lt_of_dvd (by decide) h

theorem userVa_zero : UserVa 0 := by unfold UserVa; decide

theorem userVa_pgRoundDown {va : ℕ} (h : va < trapframeVa) : UserVa (pgRoundDown va) :=
  userVa_of_lt ((Nat.div_mul_le_self va pgSize).trans_lt h)

/-- The addresses in the frame table and of the victim have the property `A`. -/
structure VasIn (A : ℕ → Prop) (t : Tables) (v : Option Victim) : Prop where
  frame : ∀ i, A (t.frameTable i).va
  victim : ∀ w, v = some w → A w.va

namespace VasIn

variable {A : ℕ → Prop} {t t' : Tables} {v v' : Option Victim} {p : ProcIdx} {va : ℕ}

theorem of_entries (h : VasIn A t v)
    (hframe : ∀ i, (t'.frameTable i).entry = (t.frameTable i).entry) : VasIn A t' v where
  frame i := by
    have hva : (t'.frameTable i).va = (t.frameTable i).va := congrArg (·.2.2.2) (hframe i)
    exact hva ▸ h.frame i
  victim := h.victim

theorem setFrame (h : VasIn A t v) (i : FrameIdx) {f : Frame} (hf : A f.va) :
    VasIn A (t.setFrame i f) v where
  frame j := by
    by_cases hj : j = i
    · subst hj
      simpa [Tables.setFrame] using hf
    · simpa [Tables.setFrame, hj] using h.frame j
  victim := h.victim

theorem freeFrameEntry (h : VasIn A t v) (h0 : A 0) (o : Option ProcIdx) (a : ℕ) :
    VasIn A (t.freeFrameEntry o a) v := by
  unfold Tables.freeFrameEntry
  split
  · exact (h.setFrame _ h0).of_entries fun _ => rfl
  · exact h

/-- The sections of `kalloc_user` for an address with the property. -/
theorem alloc (h : VasIn A t v) (h0 : A 0) (hva : A va) (heff : AllocEffect p va v t v' t') :
    VasIn A t' v' := by
  cases heff with
  | same hsame => exact h.of_entries hsame.frame
  | @begun w _ _ hb =>
    have hentry : (t.frameTable w.frame).va = w.va := congrArg (·.2.2.2) hb.entry
    refine ⟨fun i => ?_, fun w' hw' => ?_⟩
    · by_cases hi : i = w.frame
      · rw [hi, hb.hidden]
        exact h0
      · have hva' : (t'.frameTable i).va = (t.frameTable i).va := congrArg (·.2.2.2) (hb.frame i hi)
        exact hva' ▸ h.frame i
    · obtain rfl := Option.some.inj hw'
      exact hentry ▸ h.frame w.frame
  | @abort w _ =>
    have hclear : VasIn A (t.setFrame w.frame .clear) (some w) := h.setFrame _ h0
    exact ⟨hclear.frame, nofun⟩
  | @undo w _ =>
    have hset : VasIn A (t.setFrame w.frame ⟨true, true, w.proc, w.va, true⟩) (some w) :=
      h.setFrame _ (h.victim w rfl)
    exact ⟨hset.frame, nofun⟩
  | @publish w _ =>
    have hset : VasIn A (t.setFrame w.frame { t.frameTable w.frame with used := false })
        (some w) := h.setFrame _ (h.frame w.frame)
    exact ⟨hset.frame, nofun⟩
  | register hreg =>
    obtain ⟨i, -, rfl⟩ := Option.map_eq_some_iff.1 hreg
    exact (h.setFrame i hva).of_entries fun _ => rfl

end VasIn

/-- The addresses in the frame table and of the victim are for user code. -/
structure UserVas (t : Tables) (v : Option Victim) : Prop where
  frame : ∀ i, UserVa (t.frameTable i).va
  victim : ∀ w, v = some w → UserVa w.va

namespace UserVas

variable {t t' : Tables} {v v' : Option Victim} {p : ProcIdx} {va : ℕ}

theorem vasIn (h : UserVas t v) : VasIn UserVa t v := ⟨h.frame, h.victim⟩

theorem of_vasIn (h : VasIn UserVa t v) : UserVas t v := ⟨h.frame, h.victim⟩

theorem of_entries (h : UserVas t v)
    (hframe : ∀ i, (t'.frameTable i).entry = (t.frameTable i).entry) : UserVas t' v :=
  of_vasIn (h.vasIn.of_entries hframe)

theorem freeFrameEntry (h : UserVas t v) (o : Option ProcIdx) (a : ℕ) :
    UserVas (t.freeFrameEntry o a) v :=
  of_vasIn (h.vasIn.freeFrameEntry userVa_zero o a)

/-- The sections of `kalloc_user` for an address of user code. -/
theorem alloc (h : UserVas t v) (hva : UserVa va) (heff : AllocEffect p va v t v' t') :
    UserVas t' v' :=
  of_vasIn (h.vasIn.alloc userVa_zero hva heff)

end UserVas

/-! ## Hands and holes -/

/-- The page that the code has in a local variable. -/
def EvictPc.hand : EvictPc → Multiset PA
  | .write _ _ pte | .restore _ _ pte => {pte.pa}
  | .publish _ pa | .free _ pa => {pa}
  | .select _ | .update _ _ | .abort _ _ | .undo _ => 0

def AllocPc.hand : AllocPc → Multiset PA
  | .evict _ _ e => e.hand
  | .register _ pa | .giveBack _ pa => {pa}
  | .need _ | .pop _ | .canRetry _ => 0

def FaultPc.hand : FaultPc → Multiset PA
  | .alloc _ a => a.hand
  | .read _ _ pa | .map _ pa | .drop pa | .dropFree pa => {pa}
  | .enter | .touch | .addr | .lookup | .finish _ _ => 0

/-- The page is in hand also when `kalloc_user` has returned it. -/
def allocHand : Next AllocPc (Option PA) → Multiset PA
  | .go a => a.hand
  | .ret r => (r.toList : Multiset PA)

/-- The entry that an eviction has cleared and may restore: the page table, the address and the
entry. -/
def EvictPc.hole : EvictPc → Option (PA × ℕ × Pte)
  | .write v root pte | .restore v root pte => some (root, v.va, pte)
  | _ => none

def AllocPc.hole : AllocPc → Option (PA × ℕ × Pte)
  | .evict _ _ e => e.hole
  | _ => none

def FaultPc.hole : FaultPc → Option (PA × ℕ × Pte)
  | .alloc _ a => a.hole
  | _ => none

/-- The entry that an eviction restores next. -/
def EvictPc.restoring : EvictPc → Option (PA × ℕ × Pte)
  | .restore v root pte => some (root, v.va, pte)
  | _ => none

def AllocPc.restoring : AllocPc → Option (PA × ℕ × Pte)
  | .evict _ _ e => e.restoring
  | _ => none

def FaultPc.restoring : FaultPc → Option (PA × ℕ × Pte)
  | .alloc _ a => a.restoring
  | _ => none

/-- The entry for `va` in the page table of a process is there and not valid, and can be set to
`pte`. That `pte` has `PTE_U` is for `UserLeaves`, which `pages_conserved` has besides the books. -/
structure Kernel.Vacant {σ : Type} (k : Kernel σ) (own : ProcIdx → Option PA) (root : PA) (va : ℕ)
    (pte : Pte) : Prop where
  owned : ∃ q, own q = some root
  leaf : k.leaves root (vpn va) = none
  low : ((k.pts root).low (lowIdx va)).isSome
  user : pte.perm.u = true

/-- The holes are vacant. -/
def Kernel.Holes {σ : Type} (k : Kernel σ) (own : ProcIdx → Option PA)
    (hole : Option (PA × ℕ × Pte)) :
    Prop :=
  ∀ root a pte, hole = some (root, a, pte) → k.Vacant own root a pte

/-- A step after which the pages `hand` are in hand. -/
structure Moved {σ : Type} (P : Multiset PA) (own : ProcIdx → Option PA) (hand : Multiset PA)
    (k k' : Kernel σ) : Prop where
  books : Books P (k'.layout own) hand
  steady : Steady k k'

theorem Moved.trans {σ : Type} {P hand hand' : Multiset PA} {own : ProcIdx → Option PA}
    {k k' k'' : Kernel σ} (h : Moved P own hand k k') (h' : Moved P own hand' k' k'') :
    Moved P own hand' k k'' :=
  ⟨h'.books, h.steady.trans h'.steady⟩

namespace Kernel

variable {σ : Type} {S : SwapOps σ} {k k' : Kernel σ} {P hand rest : Multiset PA}
  {own : ProcIdx → Option PA} {p : ProcIdx} {root pa : PA} {va : ℕ}

theorem leaves_of_pteAt {e : Pte} (h : k.pteAt root va = some e) :
    k.leaves root (vpn va) = some e ∧ ((k.pts root).low (lowIdx va)).isSome := by
  unfold pteAt at h
  split at h
  · rename_i hs
    exact ⟨h, hs.2⟩
  · cases h

theorem holes_none : k.Holes own none := by
  intro root a pte h
  cases h

theorem Holes.congr {hole : Option (PA × ℕ × Pte)} (h : k.Holes own hole) (hpts : k'.pts = k.pts) :
    k'.Holes own hole := by
  intro root a pte ha
  obtain ⟨hown, hleaf, hlow, hu⟩ := h root a pte ha
  exact ⟨hown, by rwa [leaves_congr hpts], by rwa [hpts], hu⟩

/-- Steps that do not touch pages. -/
theorem quiet_moved (h : Books P (k.layout own) hand) (hprocs : k'.procs = k.procs)
    (hfree : k'.freelist = k.freelist) (hpts : k'.pts = k.pts)
    (htrampoline : k'.trampoline = k.trampoline) : Moved P own hand k k' :=
  ⟨h.congr hfree (fun p => by rw [hprocs]) hpts, .of_pts hprocs htrampoline hpts⟩

theorem setProc_moved (h : Books P (k.layout own) hand) {f : Proc → Proc}
    (hf : ∀ proc, (f proc).space = proc.space) (p : ProcIdx) :
    Moved P own hand k (k.setProc p f) :=
  ⟨h.congr rfl (Steady.setProc hf k p).trapframe rfl, .setProc hf k p⟩

theorem kfree_moved (h : Books P (k.layout own) (pa ::ₘ hand)) (hk : k.kfree pa = .ok k') :
    Moved P own hand k k' :=
  ⟨h.kfree hk, .kfree hk⟩

theorem countEviction_moved (h : Books P (k.layout own) hand) (v : Victim) :
    Moved P own hand k (k.countEviction v) := by
  unfold countEviction
  split
  · exact ⟨h, .refl k⟩
  · exact setProc_moved h (by intro; rfl) _

/-! ## Eviction -/

theorem evictSelect_moved (h : Books P (k.layout own) hand) {n : ℕ} {next : Next EvictPc Bool}
    (hk : k.evictSelect n = (next, k')) : Moved P own hand k k' ∧
      next.getD EvictPc.hand 0 = 0 ∧ next.getD EvictPc.hole none = none := by
  cases n with
  | zero =>
    obtain ⟨rfl, rfl⟩ := Prod.mk.inj hk
    exact ⟨⟨h, .refl k⟩, rfl, rfl⟩
  | succ n =>
    simp only [evictSelect] at hk
    split at hk
    · obtain ⟨rfl, rfl⟩ := Prod.mk.inj hk
      exact ⟨quiet_moved h rfl rfl rfl rfl, rfl, rfl⟩
    · obtain ⟨rfl, rfl⟩ := Prod.mk.inj hk
      exact ⟨quiet_moved h rfl rfl rfl rfl, rfl, rfl⟩

/-- What the update of an eviction comes down to: the entry is cleared, if there is one. -/
theorem evictUpdate_cases {n : ℕ} {v : Victim} {next : Next EvictPc Bool}
    (hk : k.evictUpdate n v = .ok (next, k')) :
    next = .go (.abort n v) ∧ k' = k ∨
      ∃ q root e, v.proc = some q ∧ (k.procs q).pagetable = some root ∧
        k.leaves root (vpn v.va) = some e ∧ ((k.pts root).low (lowIdx v.va)).isSome ∧
        next = .go (.write v root e) ∧ k' = k.setLeaf root v.va none := by
  unfold evictUpdate at hk
  split at hk
  · obtain ⟨rfl, rfl⟩ := Prod.mk.inj (Except.ok.inj hk)
    exact .inl ⟨rfl, rfl⟩
  · rename_i root hroot
    split at hk
    · cases hk
    · split at hk
      · obtain ⟨rfl, rfl⟩ := Prod.mk.inj (Except.ok.inj hk)
        exact .inl ⟨rfl, rfl⟩
      · rename_i e he
        obtain ⟨rfl, rfl⟩ := Prod.mk.inj (Except.ok.inj hk)
        obtain ⟨q, hv, hq⟩ := Option.bind_eq_some_iff.1 hroot
        obtain ⟨hleaf, hlow⟩ := leaves_of_pteAt he
        exact .inr ⟨q, root, e, hv, hq, hleaf, hlow, rfl, rfl⟩

/-- A step of an eviction. -/
theorem evictNext_books {e : EvictPc} (h : Books P (k.layout own) (e.hand + rest))
    (hsync : ∀ q root, (k.procs q).pagetable = some root → own q = some root)
    (hvas : ∀ w, e.victim = some w → UserVa w.va) (hhole : k.Holes own e.restoring)
    {next : Next EvictPc Bool} (hk : k.evictNext S e = .ok (next, k')) :
    Moved P own (next.getD EvictPc.hand 0 + rest) k k' := by
  cases e with
  | select n =>
    obtain ⟨hm, hhand, -⟩ := evictSelect_moved h (Except.ok.inj hk)
    rw [hhand]
    exact hm
  | update n v =>
    obtain ⟨rfl, rfl⟩ | ⟨q, root, e, -, hq, hleaf, -, rfl, rfl⟩ := evictUpdate_cases hk
    · exact ⟨h, .refl _⟩
    · have hv : UserVa v.va := hvas v rfl
      exact ⟨(zero_add rest ▸ h).setLeaf_none (hsync q root hq) hv hleaf, .setLeaf k root hv nofun⟩
  | abort n v | undo v | publish v pa =>
    obtain ⟨rfl, rfl⟩ := Prod.mk.inj (Except.ok.inj hk)
    exact quiet_moved h rfl rfl rfl rfl
  | write v root pte =>
    obtain ⟨rfl, rfl⟩ := Prod.mk.inj (Except.ok.inj hk)
    split <;> exact quiet_moved h rfl rfl rfl rfl
  | restore v root pte =>
    obtain ⟨rfl, rfl⟩ := Prod.mk.inj (Except.ok.inj hk)
    obtain ⟨⟨q, hown⟩, hleaf, hlow, hu⟩ := hhole root v.va pte rfl
    have hv : UserVa v.va := hvas v rfl
    refine ⟨(zero_add rest).symm ▸ h.setLeaf_some hown hv hleaf hlow pte.perm,
      .setLeaf k root hv ?_⟩
    rintro e heq
    exact Option.some.inj heq ▸ hu
  | free v pa =>
    obtain ⟨k₁, hfree, hk⟩ := bind_eq_ok.1 hk
    obtain ⟨rfl, rfl⟩ := Prod.mk.inj (Except.ok.inj hk)
    have hcount := countEviction_moved h v
    exact (zero_add rest).symm ▸ hcount.trans (kfree_moved hcount.books hfree)

/-- The hole of an eviction is vacant as long as no other process gets to it. -/
theorem evictNext_holes {e : EvictPc} (h : Books P (k.layout own) hand)
    (hsync : ∀ q root, (k.procs q).pagetable = some root → own q = some root)
    (huser : ∀ q root, own q = some root → k.UserLeaves root)
    (hvas : ∀ w, e.victim = some w → UserVa w.va) (hhole : k.Holes own e.hole)
    {next : Next EvictPc Bool} (hk : k.evictNext S e = .ok (next, k')) :
    k'.Holes own (next.getD EvictPc.hole none) := by
  cases e with
  | select n =>
    rw [(evictSelect_moved h (Except.ok.inj hk)).2.2]
    exact holes_none
  | update n v =>
    obtain ⟨rfl, -⟩ | ⟨q, root, e, -, hq, hleaf, hlow, rfl, rfl⟩ := evictUpdate_cases hk
    · exact holes_none
    · rintro root' a pte heq
      obtain ⟨rfl, hrest⟩ := Prod.mk.inj (Option.some.inj heq)
      obtain ⟨rfl, rfl⟩ := Prod.mk.inj hrest
      have hown := hsync q root hq
      refine ⟨⟨q, hown⟩, ?_, ?_, huser q root hown _ _ (hvas v rfl) hleaf⟩
      · rw [leaves_setLeaf_apply, if_pos ⟨rfl, rfl⟩]
      · simpa [Kernel.setLeaf, setPt] using hlow
  | write v root pte =>
    obtain ⟨rfl, rfl⟩ := Prod.mk.inj (Except.ok.inj hk)
    split
    · exact hhole.congr rfl
    · exact holes_none
  | abort n v | restore v root pte | undo v | publish v pa =>
    obtain ⟨rfl, -⟩ := Prod.mk.inj (Except.ok.inj hk)
    exact holes_none
  | free v pa =>
    obtain ⟨k₁, -, hk⟩ := bind_eq_ok.1 hk
    obtain ⟨rfl, -⟩ := Prod.mk.inj (Except.ok.inj hk)
    exact holes_none

/-! ## Allocation -/

theorem allocEvicted_hand (n : ℕ) (again : Bool) (next : Next EvictPc Bool) :
    allocHand (allocEvicted n again next) = next.getD EvictPc.hand 0 ∧
      (allocEvicted n again next).getD AllocPc.hole none = next.getD EvictPc.hole none := by
  match next with
  | .go e => exact ⟨rfl, rfl⟩
  | .ret false => exact ⟨rfl, rfl⟩
  | .ret true => cases again <;> cases n <;> exact ⟨rfl, rfl⟩

theorem allocPop_moved (h : Books P (k.layout own) rest) {n : ℕ} {next : Next AllocPc (Option PA)}
    (hk : k.allocPop n = (next, k')) :
    Moved P own (allocHand next + rest) k k' ∧ next.getD AllocPc.hole none = none := by
  unfold allocPop popFree at hk
  split at hk
  · rename_i hpop
    split at hpop
    · obtain ⟨-, rfl⟩ := Prod.mk.inj hpop
      obtain ⟨rfl, rfl⟩ := Prod.mk.inj hk
      exact ⟨⟨(zero_add rest).symm ▸ h, .refl k⟩, rfl⟩
    · cases hpop
  · rename_i hpop
    split at hpop
    · cases hpop
    · rename_i pa l hl
      obtain ⟨hpa, rfl⟩ := Prod.mk.inj hpop
      obtain rfl := Option.some.inj hpa
      obtain ⟨rfl, rfl⟩ := Prod.mk.inj hk
      exact ⟨⟨h.popFree hl, .of_pts rfl rfl rfl⟩, rfl⟩

/-- A step of `kalloc_user`. -/
theorem allocNext_books {a : AllocPc} (h : Books P (k.layout own) (a.hand + rest))
    (hsync : ∀ q root, (k.procs q).pagetable = some root → own q = some root)
    (hvas : ∀ w, a.victim = some w → UserVa w.va) (hhole : k.Holes own a.restoring)
    {next : Next AllocPc (Option PA)} (hk : k.allocNext S p va a = .ok (next, k')) :
    Moved P own (allocHand next + rest) k k' := by
  cases a with
  | need n =>
    obtain ⟨rfl, rfl⟩ := Prod.mk.inj (Except.ok.inj hk)
    split <;> exact ⟨h, .refl k⟩
  | evict n again e =>
    obtain ⟨⟨next', k₁⟩, hevict, hk⟩ := bind_eq_ok.1 hk
    obtain ⟨rfl, rfl⟩ := Prod.mk.inj (Except.ok.inj hk)
    rw [(allocEvicted_hand n again next').1]
    exact evictNext_books h hsync hvas hhole hevict
  | pop n => exact (allocPop_moved (zero_add rest ▸ h) (Except.ok.inj hk)).1
  | canRetry n =>
    obtain ⟨rfl, rfl⟩ := Prod.mk.inj (Except.ok.inj hk)
    split <;> exact ⟨h, .refl k⟩
  | register n pa =>
    have hreg := Except.ok.inj hk
    unfold allocRegister at hreg
    split at hreg <;> obtain ⟨rfl, rfl⟩ := Prod.mk.inj hreg
    · exact quiet_moved h rfl rfl rfl rfl
    · exact ⟨h, .refl k⟩
  | giveBack n pa =>
    obtain ⟨k₁, hfree, hk⟩ := bind_eq_ok.1 hk
    obtain ⟨rfl, rfl⟩ := Prod.mk.inj (Except.ok.inj hk)
    exact (zero_add rest).symm ▸ kfree_moved h hfree

theorem allocNext_holes {a : AllocPc} (h : Books P (k.layout own) hand)
    (hsync : ∀ q root, (k.procs q).pagetable = some root → own q = some root)
    (huser : ∀ q root, own q = some root → k.UserLeaves root)
    (hvas : ∀ w, a.victim = some w → UserVa w.va) (hhole : k.Holes own a.hole)
    {next : Next AllocPc (Option PA)} (hk : k.allocNext S p va a = .ok (next, k')) :
    k'.Holes own (next.getD AllocPc.hole none) := by
  cases a with
  | need n | canRetry n =>
    obtain ⟨rfl, -⟩ := Prod.mk.inj (Except.ok.inj hk)
    split <;> exact holes_none
  | evict n again e =>
    obtain ⟨⟨next', k₁⟩, hevict, hk⟩ := bind_eq_ok.1 hk
    obtain ⟨rfl, rfl⟩ := Prod.mk.inj (Except.ok.inj hk)
    rw [(allocEvicted_hand n again next').2]
    exact evictNext_holes h hsync huser hvas hhole hevict
  | pop n =>
    rw [(allocPop_moved h (Except.ok.inj hk)).2]
    exact holes_none
  | register n pa =>
    have hreg := Except.ok.inj hk
    unfold allocRegister at hreg
    split at hreg <;> (obtain ⟨rfl, -⟩ := Prod.mk.inj hreg; exact holes_none)
  | giveBack n pa =>
    obtain ⟨k₁, -, hk⟩ := bind_eq_ok.1 hk
    obtain ⟨rfl, -⟩ := Prod.mk.inj (Except.ok.inj hk)
    exact holes_none

/-! ## Page faults -/

theorem faultAlloced_hand (found : Found) (next : Next AllocPc (Option PA)) :
    (faultAlloced found next).getD FaultPc.hand 0 = allocHand next ∧
      (faultAlloced found next).getD FaultPc.hole none = next.getD AllocPc.hole none ∧
      (faultAlloced found next).getD FaultPc.victim none = next.getD AllocPc.victim none := by
  match next, found with
  | .go a, _ => exact ⟨rfl, rfl, rfl⟩
  | .ret none, _ => exact ⟨rfl, rfl, rfl⟩
  | .ret (some pa), some (i, slot) => exact ⟨rfl, rfl, rfl⟩
  | .ret (some pa), none => exact ⟨rfl, rfl, rfl⟩

/-- What the start of `vmfault` comes down to. -/
theorem faultEnter_cases {next : Next FaultPc (Option PA)}
    (hk : k.faultEnter p va = .ok (next, k')) :
    next = .ret none ∧ k' = k ∨ ∃ root, (k.procs p).pagetable = some root ∧ va < (k.procs p).sz ∧
      (next = .go .touch ∧ k' = k ∨
        next = .go .lookup ∧ k.pteAt root (pgRoundDown va) = none ∧
          k' = k.setProc p fun proc => { proc with pageFaults := proc.pageFaults + 1 }) := by
  unfold faultEnter at hk
  split at hk
  · obtain ⟨rfl, rfl⟩ := Prod.mk.inj (Except.ok.inj hk)
    exact .inl ⟨rfl, rfl⟩
  · rename_i root hroot
    split at hk
    · obtain ⟨rfl, rfl⟩ := Prod.mk.inj (Except.ok.inj hk)
      exact .inl ⟨rfl, rfl⟩
    · rename_i hsz
      refine .inr ⟨root, hroot, not_le.1 hsz, ?_⟩
      obtain ⟨mapped, hmapped, hk⟩ := bind_eq_ok.1 hk
      split at hk
      · obtain ⟨rfl, rfl⟩ := Prod.mk.inj (Except.ok.inj hk)
        exact .inl ⟨rfl, rfl⟩
      · rename_i hnot
        obtain ⟨rfl, rfl⟩ := Prod.mk.inj (Except.ok.inj hk)
        unfold ismapped at hmapped
        split at hmapped
        · cases hmapped
        · obtain rfl := Except.ok.inj hmapped
          exact .inr ⟨rfl, by simpa using hnot, rfl⟩

theorem faultEnter_moved (h : Books P (k.layout own) rest) {next : Next FaultPc (Option PA)}
    (hk : k.faultEnter p va = .ok (next, k')) :
    Moved P own (next.getD FaultPc.hand 0 + rest) k k' := by
  obtain ⟨rfl, rfl⟩ | ⟨root, -, -, ⟨rfl, rfl⟩ | ⟨rfl, -, rfl⟩⟩ := faultEnter_cases hk
  · exact ⟨(zero_add rest).symm ▸ h, .refl _⟩
  · exact ⟨(zero_add rest).symm ▸ h, .refl _⟩
  · exact (zero_add rest).symm ▸ setProc_moved h (by intro; rfl) p

/-- What the mapping of the page comes down to. -/
theorem faultMap_cases {found : Found} {next : Next FaultPc (Option PA)}
    (hk : k.faultMap p va found pa = .ok (next, k')) :
    (k.procs p).pagetable = none ∧ next = .ret none ∧ k' = k ∨
      ∃ root ok, (k.procs p).pagetable = some root ∧
        (if found.isSome then k else k.fill pa 0).mappages root va pa .userRw = .ok (ok, k') ∧
        next = .go (if ok then .finish found pa else .drop pa) := by
  unfold faultMap at hk
  split at hk
  · rename_i hnone
    obtain ⟨rfl, rfl⟩ := Prod.mk.inj (Except.ok.inj hk)
    exact .inl ⟨hnone, rfl, rfl⟩
  · rename_i root hroot
    obtain ⟨⟨ok, k₁⟩, hmap, hk⟩ := bind_eq_ok.1 hk
    obtain ⟨rfl, rfl⟩ := Prod.mk.inj (Except.ok.inj hk)
    exact .inr ⟨root, ok, hroot, hmap, rfl⟩

theorem faultMap_moved (h : Books P (k.layout own) (pa ::ₘ rest))
    (hsync : ∀ q root, (k.procs q).pagetable = some root → own q = some root)
    (hpt : (k.procs p).pagetable ≠ none) (hva : UserVa va) {found : Found}
    {next : Next FaultPc (Option PA)} (hk : k.faultMap p va found pa = .ok (next, k')) :
    Moved P own (next.getD FaultPc.hand 0 + rest) k k' := by
  obtain ⟨hnone, -⟩ | ⟨root, ok, hroot, hmap, rfl⟩ := faultMap_cases hk
  · exact absurd hnone hpt
  · -- the page of a lazy allocation is cleared first
    have hclear : Moved P own (pa ::ₘ rest) k (if found.isSome then k else k.fill pa 0) := by
      split
      · exact ⟨h, .refl k⟩
      · exact quiet_moved h rfl rfl rfl rfl
    have hbooks := hclear.books.mappages (hsync p root hroot) hva hmap
    refine hclear.trans ⟨?_, .mappages hva rfl hmap⟩
    cases ok
    · exact hbooks
    · exact (zero_add rest).symm ▸ hbooks

theorem readSwap_moved (h : Books P (k.layout own) hand) (slot : Option SlotIdx) (pa : PA) :
    Moved P own hand k (k.readSwap S slot pa).2 := by
  cases slot with
  | none => exact ⟨h, .refl k⟩
  | some s => exact quiet_moved h rfl rfl rfl rfl

theorem tables_moved (h : Books P (k.layout own) hand) (t : Tables) :
    Moved P own hand k { k with tables := t } :=
  quiet_moved h rfl rfl rfl rfl

theorem faultFinish_moved (h : Books P (k.layout own) hand) (p : ProcIdx) (va : ℕ) (found : Found) :
    Moved P own hand k (k.faultFinish p va found) := by
  have ht := tables_moved h
  unfold faultFinish
  split
  · exact (ht _).trans (setProc_moved (ht _).books (by intro; rfl) p)
  · exact (ht _).trans (setProc_moved (ht _).books (by intro; rfl) p)

theorem faultFinish_frames (k : Kernel σ) (p : ProcIdx) (va : ℕ) (found : Found) (i : FrameIdx) :
    ((k.faultFinish p va found).tables.frameTable i).entry = (k.tables.frameTable i).entry := by
  have hsame := (Tables.sameEntries_setRefBit k.tables p va).frame i
  match found with
  | some (j, some slot) => exact hsame
  | some (j, none) => exact hsame
  | none => exact hsame

/-- A step of a page fault. -/
theorem faultNext_books {f : FaultPc} (h : Books P (k.layout own) (f.hand + rest))
    (hsync : ∀ q root, (k.procs q).pagetable = some root → own q = some root)
    (hvas : ∀ w, f.victim = some w → UserVa w.va) (hhole : k.Holes own f.restoring)
    (hpt : (k.procs p).pagetable ≠ none) (hva : f = .enter ∨ UserVa (pgRoundDown va))
    {next : Next FaultPc (Option PA)} (hk : k.faultNext S p va f = .ok (next, k')) :
    Moved P own (next.getD FaultPc.hand 0 + rest) k k' := by
  cases f with
  | enter =>
    exact faultEnter_moved (zero_add rest ▸ h) hk
  | touch | addr | lookup | drop pa =>
    obtain ⟨rfl, rfl⟩ := Prod.mk.inj (Except.ok.inj hk)
    exact quiet_moved h rfl rfl rfl rfl
  | alloc found a =>
    obtain ⟨⟨next', k₁⟩, halloc, hk⟩ := bind_eq_ok.1 hk
    obtain ⟨rfl, rfl⟩ := Prod.mk.inj (Except.ok.inj hk)
    rw [(faultAlloced_hand found next').1]
    exact allocNext_books h hsync hvas hhole halloc
  | read i slot pa =>
    rw [faultNext_read] at hk
    obtain ⟨rfl, rfl⟩ := Prod.mk.inj (Except.ok.inj hk)
    have hm := readSwap_moved (S := S) h slot pa
    split <;> exact hm
  | map found pa => exact faultMap_moved h hsync hpt (hva.resolve_left nofun) hk
  | dropFree pa =>
    obtain ⟨k₁, hfree, hk⟩ := bind_eq_ok.1 hk
    obtain ⟨rfl, rfl⟩ := Prod.mk.inj (Except.ok.inj hk)
    exact (zero_add rest).symm ▸ kfree_moved h hfree
  | finish found pa =>
    obtain ⟨rfl, rfl⟩ := Prod.mk.inj (Except.ok.inj hk)
    exact faultFinish_moved h p _ found

/-- The addresses in the tables are those of the page faults. -/
theorem faultNext_vas {A : ℕ → Prop} {f : FaultPc} (h : VasIn A k.tables f.victim) (h0 : A 0)
    (hva : f = .enter ∨ A (pgRoundDown va)) {next : Next FaultPc (Option PA)}
    (hk : k.faultNext S p va f = .ok (next, k')) :
    VasIn A k'.tables (next.getD FaultPc.victim none) := by
  cases f with
  | enter =>
    rw [(faultEnter_life hk).1]
    obtain ⟨rfl, -⟩ | ⟨root, -, -, ⟨rfl, -⟩ | ⟨rfl, -⟩⟩ := faultEnter_cases hk <;> exact h
  | touch =>
    obtain ⟨rfl, rfl⟩ := Prod.mk.inj (Except.ok.inj hk)
    exact h.of_entries (Tables.sameEntries_setRefBit _ p _).frame
  | addr =>
    obtain ⟨rfl, rfl⟩ := Prod.mk.inj (Except.ok.inj hk)
    exact h
  | lookup =>
    rw [faultNext_lookup] at hk
    obtain ⟨rfl, rfl⟩ := Prod.mk.inj (Except.ok.inj hk)
    exact h
  | alloc found a =>
    obtain ⟨⟨next', k₁⟩, halloc, hk⟩ := bind_eq_ok.1 hk
    obtain ⟨rfl, rfl⟩ := Prod.mk.inj (Except.ok.inj hk)
    rw [(faultAlloced_hand found next').2.2]
    exact h.alloc h0 (hva.resolve_left nofun) (allocNext_effect halloc)
  | read i slot pa =>
    have htab := (readSwap_life (S := S) slot pa k).1
    rw [faultNext_read] at hk
    obtain ⟨rfl, rfl⟩ := Prod.mk.inj (Except.ok.inj hk)
    rw [htab]
    split <;> exact h
  | map found pa =>
    rw [(faultMap_life hk).1]
    obtain ⟨-, rfl, -⟩ | ⟨root, ok, -, -, rfl⟩ := faultMap_cases hk
    · exact h
    · cases ok <;> exact h
  | drop pa =>
    obtain ⟨rfl, rfl⟩ := Prod.mk.inj (Except.ok.inj hk)
    exact h.freeFrameEntry h0 _ _
  | dropFree pa =>
    obtain ⟨k₁, hfree, hk⟩ := bind_eq_ok.1 hk
    obtain ⟨rfl, rfl⟩ := Prod.mk.inj (Except.ok.inj hk)
    rw [(kfree_untouched hfree).tables]
    exact h
  | finish found pa =>
    obtain ⟨rfl, rfl⟩ := Prod.mk.inj (Except.ok.inj hk)
    exact h.of_entries (faultFinish_frames k p _ found)

theorem faultNext_holes {f : FaultPc} (h : Books P (k.layout own) hand)
    (hsync : ∀ q root, (k.procs q).pagetable = some root → own q = some root)
    (huser : ∀ q root, own q = some root → k.UserLeaves root)
    (hvas : ∀ w, f.victim = some w → UserVa w.va) (hhole : k.Holes own f.hole)
    {next : Next FaultPc (Option PA)} (hk : k.faultNext S p va f = .ok (next, k')) :
    k'.Holes own (next.getD FaultPc.hole none) := by
  cases f with
  | enter =>
    obtain ⟨rfl, -⟩ | ⟨root, -, -, ⟨rfl, -⟩ | ⟨rfl, -⟩⟩ := faultEnter_cases hk <;> exact holes_none
  | touch | addr | lookup | drop pa | finish found pa =>
    obtain ⟨rfl, -⟩ := Prod.mk.inj (Except.ok.inj hk)
    exact holes_none
  | alloc found a =>
    obtain ⟨⟨next', k₁⟩, halloc, hk⟩ := bind_eq_ok.1 hk
    obtain ⟨rfl, rfl⟩ := Prod.mk.inj (Except.ok.inj hk)
    rw [(faultAlloced_hand found next').2.1]
    exact allocNext_holes h hsync huser hvas hhole halloc
  | read i slot pa =>
    rw [faultNext_read] at hk
    obtain ⟨rfl, -⟩ := Prod.mk.inj (Except.ok.inj hk)
    split <;> exact holes_none
  | map found pa =>
    obtain ⟨-, rfl, -⟩ | ⟨root, ok, -, -, rfl⟩ := faultMap_cases hk
    · exact holes_none
    · cases ok <;> exact holes_none
  | dropFree pa =>
    obtain ⟨k₁, -, hk⟩ := bind_eq_ok.1 hk
    obtain ⟨rfl, -⟩ := Prod.mk.inj (Except.ok.inj hk)
    exact holes_none

/-- `vmfault` goes on only for an address below the size of the process. -/
theorem faultEnter_lt {f : FaultPc} (hk : k.faultEnter p va = .ok (.go f, k')) :
    va < (k.procs p).sz := by
  obtain ⟨hret, -⟩ | ⟨root, -, hlt, -⟩ := faultEnter_cases hk
  · cases hret
  · exact hlt

/-- What the books depend on at a point of `vmfault`: the addresses are for user code, and the entry
that an eviction may restore is vacant. -/
structure FaultOk (k : Kernel σ) (own : ProcIdx → Option PA) (va : ℕ) (f : FaultPc) : Prop where
  vas : UserVas k.tables f.victim
  holes : k.Holes own f.hole
  va : f = .enter ∨ UserVa (pgRoundDown va)

theorem Holes.restoring {f : FaultPc} (h : k.Holes own f.hole) : k.Holes own f.restoring := by
  intro root a pte heq
  match f with
  | .alloc _ (.evict _ _ (.restore ..)) => exact h root a pte heq

/-- **The books during a page fault.** -/
theorem faultNext_moved {f : FaultPc} (h : Books P (k.layout own) (f.hand + rest))
    (hok : k.FaultOk own va f)
    (hsync : ∀ q root, (k.procs q).pagetable = some root → own q = some root)
    (huser : ∀ q root, own q = some root → k.UserLeaves root)
    (hpt : (k.procs p).pagetable ≠ none) (hsz : (k.procs p).sz ≤ trapframeVa)
    {next : Next FaultPc (Option PA)} (hk : k.faultNext S p va f = .ok (next, k')) :
    Moved P own (next.getD FaultPc.hand 0 + rest) k k' ∧
      UserVas k'.tables (next.getD FaultPc.victim none) ∧
      ∀ f', next = .go f' → k'.FaultOk own va f' := by
  obtain ⟨hvas, hholes, hva⟩ := hok
  have hvas' : UserVas k'.tables (next.getD FaultPc.victim none) :=
    .of_vasIn (faultNext_vas hvas.vasIn userVa_zero hva hk)
  refine ⟨faultNext_books h hsync hvas.victim hholes.restoring hpt hva hk, hvas', ?_⟩
  rintro f' rfl
  refine ⟨hvas', faultNext_holes h hsync huser hvas.victim hholes hk, .inr ?_⟩
  rcases hva with rfl | hva
  · exact userVa_pgRoundDown ((faultEnter_lt hk).trans_le hsz)
  · exact hva

end Kernel

end Xv6Swap.Paging
