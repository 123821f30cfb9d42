import Xv6Swap.Pages.Fault
import Xv6Swap.Paging.Account

/-!
# What page faults do to the contents of pages

The contents of a page of a process are in a frame or in a slot of the swap disk (`Loc`). During an
eviction neither the page table nor the swap map shows where: from the update of the page table on
they are in the frame that the eviction has in hand, and from the swap write to the last section in
its slot (`FaultPc.lifted`). `ContentStep` says once what a step of a page fault does to the page
tables, the swap map, the slots and the frames; `faultNext_content` is the inversion. Most steps
leave all of them alone but for a page in hand or free pages (`Still`).
-/

namespace Xv6Swap.Paging

open Raid (Page pgSize)
open Kernel (vpn)

/-! ## Points of a page fault -/

/-- Where the contents of a page are. -/
inductive Loc
  | frame (pa : PA)
  | slot (s : SlotIdx)
  deriving DecidableEq

/-- The victim of an eviction that has taken its page out of the page table and not yet entered it
into the swap map, and where the contents of the page are. -/
def EvictPc.lifted : EvictPc → Option (Victim × Loc)
  | .write v _ pte | .restore v _ pte => some (v, .frame pte.pa)
  | .publish v _ => some (v, .slot v.slot)
  | _ => none

def AllocPc.lifted : AllocPc → Option (Victim × Loc)
  | .evict _ _ e => e.lifted
  | _ => none

def FaultPc.lifted : FaultPc → Option (Victim × Loc)
  | .alloc _ a => a.lifted
  | _ => none

/-- The page that is in flight. -/
def FaultPc.flight (f : FaultPc) : Option ((ProcIdx × ℕ) × Loc) :=
  f.lifted.bind fun x => x.1.proc.map fun q => ((q, vpn x.1.va), x.2)

/-- The page in hand that the next step may write to. -/
def EvictPc.spare : EvictPc → Multiset PA
  | .free _ pa => {pa}
  | _ => 0

def AllocPc.spare : AllocPc → Multiset PA
  | .evict _ _ e => e.spare
  | .giveBack _ pa => {pa}
  | _ => 0

def FaultPc.spare : FaultPc → Multiset PA
  | .alloc _ a => a.spare
  | .read _ _ pa | .map none pa | .dropFree pa => {pa}
  | _ => 0

/-- How far `vmfault` is with its page: it has found the page unmapped (`look`), it has searched the
swap map for it (`busy`), it has read it from the swap disk (`load`), or it has mapped it (`done`).
-/
inductive Stage
  | out
  | look
  | busy (found : Found)
  | load (i : SlotIdx) (slot : Option SlotIdx) (pa : PA)
  | done (found : Found) (pa : PA)
  deriving DecidableEq

def FaultPc.stage : FaultPc → Stage
  | .enter | .touch | .addr | .drop _ | .dropFree _ => .out
  | .lookup => .look
  | .alloc found _ => .busy found
  | .read i slot _ => .busy (some (i, slot))
  | .map none _ => .busy none
  | .map (some (i, slot)) pa => .load i slot pa
  | .finish found pa => .done found pa

def Stage.isDone : Stage → Bool
  | .done _ _ => true
  | _ => false

theorem FaultPc.spare_le_hand (f : FaultPc) : f.spare ≤ f.hand := by
  match f with
  | .enter | .touch | .addr | .lookup | .finish .. => exact le_rfl
  | .read .. | .map none _ | .dropFree _ => exact le_rfl
  | .map (some _) _ | .drop _ => exact Multiset.zero_le _
  | .alloc _ (.need _) | .alloc _ (.pop _) | .alloc _ (.canRetry _) => exact le_rfl
  | .alloc _ (.register ..) => exact Multiset.zero_le _
  | .alloc _ (.giveBack ..) | .alloc _ (.evict _ _ (.free ..)) => exact le_rfl
  | .alloc _ (.evict _ _ (.select _)) | .alloc _ (.evict _ _ (.update ..)) => exact le_rfl
  | .alloc _ (.evict _ _ (.abort ..)) | .alloc _ (.evict _ _ (.undo _)) => exact le_rfl
  | .alloc _ (.evict _ _ (.write ..)) | .alloc _ (.evict _ _ (.restore ..)) =>
    exact Multiset.zero_le _
  | .alloc _ (.evict _ _ (.publish ..)) => exact Multiset.zero_le _

/-! ## Steps -/

section Steps

variable {σ : Type} {S : SwapOps σ}

/-- The page tables, the swap map and the slots are as they were, and so are all frames but those of
`X` and the free ones. -/
structure Still (W : SwapLaws S) (X : Multiset PA) (k k' : Kernel σ) : Prop where
  leaves : k'.leaves = k.leaves
  swapMap : k'.tables.swapMap = k.tables.swapMap
  view : W.view k'.swap = W.view k.swap
  mem : ∀ x, x ∉ X → x ∉ k.freelist → k'.mem x = k.mem x

/-- What a step of `vmfault` by the process `p` for the address `va` does. -/
inductive ContentStep (W : SwapLaws S) (p : ProcIdx) (va : ℕ) (k : Kernel σ) :
    FaultPc → Next FaultPc (Option PA) → Kernel σ → Prop
  | still {f : FaultPc} {next : Next FaultPc (Option PA)} {k' : Kernel σ} (h : Still W f.spare k k')
      (hlifted : f.lifted = none ∧ next.getD FaultPc.lifted none = none)
      (hdone : f.stage.isDone = false)
      (hstage : next.getD FaultPc.stage .out = f.stage ∨ next.getD FaultPc.stage .out = .out) :
      ContentStep W p va k f next k'
  | look {k' : Kernel σ} {root : PA} (h : Still W 0 k k')
      (hroot : (k.procs p).pagetable = some root)
      (hnone : k.pteAt root (pgRoundDown va) = none) :
      ContentStep W p va k .enter (.go .lookup) k'
  | find : ContentStep W p va k .lookup
      (.go (.alloc ((k.tables.findSwap p (pgRoundDown va)).map fun i =>
        (i, (k.tables.swapMap i).swapSlot)) (.need 1))) k
  | take {found : Found} {n m : ℕ} {again : Bool} {v : Victim} {q : ProcIdx} {root : PA} {e : Pte}
      (hv : v.proc = some q) (hroot : (k.procs q).pagetable = some root)
      (hleaf : k.leaves root (vpn v.va) = some e) :
      ContentStep W p va k (.alloc found (.evict n again (.update m v)))
        (.go (.alloc found (.evict n again (.write v root e)))) (k.setLeaf root v.va none)
  | write {found : Found} {n : ℕ} {again : Bool} {v : Victim} {root : PA} {e : Pte} :
      ContentStep W p va k (.alloc found (.evict n again (.write v root e)))
        (.go (.alloc found (.evict n again (.publish v e.pa))))
        { k with swap := (S.write v.slot (k.mem e.pa) k.swap).2 }
  | publish {found : Found} {n : ℕ} {again : Bool} {v : Victim} {pa : PA} :
      ContentStep W p va k (.alloc found (.evict n again (.publish v pa)))
        (.go (.alloc found (.evict n again (.free v pa))))
        { k with tables := k.tables.evictPublish v }
  | read {i s : SlotIdx} {pa : PA} {k' : Kernel σ} (h : Still W {pa} k k')
      (hmem : k'.mem pa = W.view k.swap s) :
      ContentStep W p va k (.read i (some s) pa) (.go (.map (some (i, some s)) pa)) k'
  | map {found : Found} {pa root : PA} {k' : Kernel σ} (hroot : (k.procs p).pagetable = some root)
      (hleaves : k'.leaves = (k.setLeaf root (pgRoundDown va) (some ⟨pa, .userRw⟩)).leaves)
      (hswap : k'.tables.swapMap = k.tables.swapMap) (hview : k'.swap = k.swap)
      (hmem : ∀ x, x ∉ (FaultPc.map found pa).spare → x ∉ k.freelist → k'.mem x = k.mem x)
      (hclear : found = none → pa ∉ k.freelist → k'.mem pa = fun _ => 0) :
      ContentStep W p va k (.map found pa) (.go (.finish found pa)) k'
  | finish {found : Found} {pa : PA} :
      ContentStep W p va k (.finish found pa) (.ret (some pa))
        (k.faultFinish p (pgRoundDown va) found)

/-- The victims whose pages are in flight are those of processes, and no swap write fails. -/
structure FaultPc.Aimed (f : FaultPc) : Prop where
  proc : ∀ v l, f.lifted = some (v, l) → ∃ q, v.proc = some q
  restoring : f.restoring = none

theorem FaultPc.aimed_of_lifted {f : FaultPc} (h : f.lifted = none) : f.Aimed where
  proc v l hl := nomatch h.symm.trans hl
  restoring := by
    match f with
    | .enter | .touch | .addr | .lookup | .read .. | .map .. | .drop _ | .dropFree _ => rfl
    | .finish .. | .alloc _ (.need _) | .alloc _ (.pop _) | .alloc _ (.canRetry _) => rfl
    | .alloc _ (.register ..) | .alloc _ (.giveBack ..) => rfl
    | .alloc _ (.evict _ _ (.select _)) | .alloc _ (.evict _ _ (.update ..)) => rfl
    | .alloc _ (.evict _ _ (.abort ..)) | .alloc _ (.evict _ _ (.undo _)) => rfl
    | .alloc _ (.evict _ _ (.free ..)) => rfl

theorem ContentStep.aimed {W : SwapLaws S} {p : ProcIdx} {va : ℕ} {k k' : Kernel σ} {f f' : FaultPc}
    (h : ContentStep W p va k f (.go f') k') (hf : f.Aimed) : f'.Aimed := by
  cases h with
  | still _ hlifted => exact FaultPc.aimed_of_lifted hlifted.2
  | look | find | publish | read | map => exact FaultPc.aimed_of_lifted rfl
  | take hv =>
    refine ⟨fun v l hl => ?_, rfl⟩
    obtain ⟨rfl, -⟩ := Prod.mk.inj (Option.some.inj hl)
    exact ⟨_, hv⟩
  | write =>
    refine ⟨fun v l hl => ?_, rfl⟩
    obtain ⟨rfl, -⟩ := Prod.mk.inj (Option.some.inj hl)
    exact hf.proc _ _ rfl

namespace Kernel

variable {W : SwapLaws S} {k k' : Kernel σ} {p : ProcIdx} {va : ℕ} {pa root : PA} {X : Multiset PA}

theorem still_of_eq (hpts : k'.pts = k.pts) (hswap : k'.tables.swapMap = k.tables.swapMap)
    (hdev : k'.swap = k.swap) (hmem : k'.mem = k.mem) : Still W X k k' :=
  ⟨leaves_congr hpts, hswap, by rw [hdev], fun x _ _ => by rw [hmem]⟩

theorem still_kfree (hk : k.kfree pa = .ok k') : Still W {pa} k k' := by
  obtain rfl := kfree_eq_ok hk
  refine ⟨rfl, rfl, rfl, fun x hx _ => ?_⟩
  exact Function.update_of_ne (by simpa using hx) _ _

theorem still_walk {alloc b : Bool} (hk : k.walk root va alloc = .ok (b, k')) : Still W 0 k k' where
  leaves := walk_leaves hk
  swapMap := by rw [(walk_untouched hk).tables]
  view := by rw [(walk_untouched hk).swap]
  mem x _ hx := (walk_walked hk).mem x hx

/-- The page of a lazy allocation is cleared before the walk. -/
theorem still_fill_walk {alloc b : Bool} (hk : (k.fill pa 0).walk root va alloc = .ok (b, k')) :
    Still W {pa} k k' := by
  have h : Still W 0 (k.fill pa 0) k' := still_walk hk
  exact ⟨h.leaves, h.swapMap, h.view, fun x hx hfree =>
    (h.mem x (Multiset.notMem_zero x) hfree).trans (Function.update_of_ne (by simpa using hx) _ _)⟩

/-- The walk of `mappages`, after the page of a lazy allocation is cleared. -/
theorem still_faultWalk {found : Found} {alloc b : Bool}
    (hk : (if found.isSome then k else k.fill pa 0).walk root va alloc = .ok (b, k')) :
    Still W (FaultPc.map found pa).spare k k' := by
  cases found with
  | some x => exact still_walk hk
  | none => exact still_fill_walk hk

/-! ## Eviction -/

/-- A step of an eviction that does not go along the flight of the page. -/
theorem evictNext_still {e : EvictPc} (hrestore : e.restoring = none)
    (hupdate : ∀ m v, e ≠ .update m v) (hwrite : ∀ v root pte, e ≠ .write v root pte)
    (hpublish : ∀ v pa, e ≠ .publish v pa) {next : Next EvictPc Bool}
    (hk : k.evictNext S e = .ok (next, k')) :
    Still W e.spare k k' ∧ e.lifted = none ∧ next.getD EvictPc.lifted none = none := by
  cases e with
  | select n =>
    have hsel : k.evictSelect n = (next, k') := Except.ok.inj hk
    cases n with
    | zero =>
      obtain ⟨rfl, rfl⟩ := Prod.mk.inj hsel
      exact ⟨still_of_eq rfl rfl rfl rfl, rfl, rfl⟩
    | succ n =>
      simp only [evictSelect] at hsel
      split at hsel
      · rename_i hbegin
        obtain ⟨rfl, rfl⟩ := Prod.mk.inj hsel
        exact ⟨still_of_eq rfl (Tables.evictBegin_none hbegin).swapMap rfl rfl, rfl, rfl⟩
      · rename_i hbegin
        obtain ⟨rfl, rfl⟩ := Prod.mk.inj hsel
        exact ⟨still_of_eq rfl (Tables.evictBegin_some hbegin).swapMap rfl rfl, rfl, rfl⟩
  | update m v => exact absurd rfl (hupdate m v)
  | write v root pte => exact absurd rfl (hwrite v root pte)
  | publish v pa => exact absurd rfl (hpublish v pa)
  | restore v root pte => cases hrestore
  | abort n v | undo v =>
    obtain ⟨rfl, rfl⟩ := Prod.mk.inj (Except.ok.inj hk)
    exact ⟨still_of_eq rfl rfl rfl rfl, rfl, rfl⟩
  | free v pa =>
    obtain ⟨k₁, hfree, hk⟩ := bind_eq_ok.1 hk
    obtain ⟨rfl, rfl⟩ := Prod.mk.inj (Except.ok.inj hk)
    rw [countEviction_eq] at hfree
    have h : Still W {pa} { k with procs := (k.countEviction v).procs } k₁ := still_kfree hfree
    exact ⟨⟨h.leaves, h.swapMap, h.view, h.mem⟩, rfl, rfl⟩

theorem allocEvicted_lifted (n : ℕ) (again : Bool) (next : Next EvictPc Bool) :
    (allocEvicted n again next).getD AllocPc.lifted none = next.getD EvictPc.lifted none := by
  match next with
  | .go e => rfl
  | .ret false => rfl
  | .ret true => cases again <;> cases n <;> rfl

/-! ## Allocation -/

theorem allocPop_still {n : ℕ} {next : Next AllocPc (Option PA)} (hk : k.allocPop n = (next, k')) :
    Still W 0 k k' ∧ next.getD AllocPc.lifted none = none := by
  unfold allocPop popFree at hk
  split at hk
  · rename_i hpop
    split at hpop
    · obtain ⟨-, rfl⟩ := Prod.mk.inj hpop
      obtain ⟨rfl, rfl⟩ := Prod.mk.inj hk
      exact ⟨still_of_eq rfl rfl rfl rfl, rfl⟩
    · cases hpop
  · rename_i hpop
    split at hpop
    · cases hpop
    · rename_i pa l hl
      obtain ⟨hpa, rfl⟩ := Prod.mk.inj hpop
      obtain rfl := Option.some.inj hpa
      obtain ⟨rfl, rfl⟩ := Prod.mk.inj hk
      refine ⟨⟨rfl, rfl, rfl, fun x _ hx => ?_⟩, rfl⟩
      have hne : x ≠ pa := by
        rintro rfl
        exact hx (hl ▸ List.mem_cons_self)
      exact Function.update_of_ne hne _ _

/-- A step of `kalloc_user` outside `evict_one_user_frame`. -/
theorem allocNext_still {a : AllocPc} (ha : ∀ n again e, a ≠ .evict n again e)
    {next : Next AllocPc (Option PA)} (hk : k.allocNext S p va a = .ok (next, k')) :
    Still W a.spare k k' ∧ a.lifted = none ∧ next.getD AllocPc.lifted none = none := by
  cases a with
  | evict n again e => exact absurd rfl (ha n again e)
  | need n | canRetry n =>
    obtain ⟨rfl, rfl⟩ := Prod.mk.inj (Except.ok.inj hk)
    refine ⟨still_of_eq rfl rfl rfl rfl, rfl, ?_⟩
    split <;> rfl
  | pop n =>
    obtain ⟨hstill, hnext⟩ := allocPop_still (W := W) (Except.ok.inj hk)
    exact ⟨hstill, rfl, hnext⟩
  | register n pa =>
    have hreg := Except.ok.inj hk
    unfold allocRegister at hreg
    split at hreg
    · rename_i t ht
      obtain ⟨rfl, rfl⟩ := Prod.mk.inj hreg
      obtain ⟨i, -, rfl⟩ := Tables.registerUserFrame_eq_some ht
      exact ⟨still_of_eq rfl rfl rfl rfl, rfl, rfl⟩
    · obtain ⟨rfl, rfl⟩ := Prod.mk.inj hreg
      exact ⟨still_of_eq rfl rfl rfl rfl, rfl, rfl⟩
  | giveBack n pa =>
    obtain ⟨k₁, hfree, hk⟩ := bind_eq_ok.1 hk
    obtain ⟨rfl, rfl⟩ := Prod.mk.inj (Except.ok.inj hk)
    exact ⟨still_kfree hfree, rfl, rfl⟩

theorem faultAlloced_stage (found : Found) (next : Next AllocPc (Option PA)) :
    (faultAlloced found next).getD FaultPc.lifted none = next.getD AllocPc.lifted none ∧
      ((faultAlloced found next).getD FaultPc.stage .out = .busy found ∨
        (faultAlloced found next).getD FaultPc.stage .out = .out) := by
  match next, found with
  | .go a, _ => exact ⟨rfl, .inl rfl⟩
  | .ret none, _ => exact ⟨rfl, .inr rfl⟩
  | .ret (some pa), some (i, slot) => exact ⟨rfl, .inl rfl⟩
  | .ret (some pa), none => exact ⟨rfl, .inl rfl⟩

/-! ## Page faults -/

theorem evict_content {found : Found} {n : ℕ} {again : Bool} {e : EvictPc}
    (hrestore : e.restoring = none) {next : Next EvictPc Bool}
    (hk : k.evictNext S e = .ok (next, k')) :
    ContentStep W p va k (.alloc found (.evict n again e))
      (faultAlloced found (allocEvicted n again next)) k' := by
  have hstill : (∀ m v, e ≠ .update m v) → (∀ v root pte, e ≠ .write v root pte) →
      (∀ v pa, e ≠ .publish v pa) → ContentStep W p va k (.alloc found (.evict n again e))
        (faultAlloced found (allocEvicted n again next)) k' := by
    intro hupdate hwrite hpublish
    obtain ⟨hs, he, hnext⟩ := evictNext_still (W := W) hrestore hupdate hwrite hpublish hk
    obtain ⟨hlifted, hstage⟩ := faultAlloced_stage found (allocEvicted n again next)
    exact .still hs ⟨he, hlifted.trans ((allocEvicted_lifted n again next).trans hnext)⟩ rfl hstage
  cases e with
  | update m v =>
    obtain ⟨rfl, rfl⟩ | ⟨q, root, e, hv, hq, hleaf, -, rfl, rfl⟩ := evictUpdate_cases hk
    · exact .still (still_of_eq rfl rfl rfl rfl) ⟨rfl, rfl⟩ rfl (.inl rfl)
    · exact .take hv hq hleaf
  | write v root pte =>
    obtain ⟨rfl, rfl⟩ := Prod.mk.inj (Except.ok.inj hk)
    rw [if_neg (not_lt.2 (W.write_ok ..))]
    exact .write
  | publish v pa =>
    obtain ⟨rfl, rfl⟩ := Prod.mk.inj (Except.ok.inj hk)
    exact .publish
  | select | abort | restore | undo | free => exact hstill nofun nofun nofun

/-- **What a step of a page fault does to the contents of pages.** -/
theorem faultNext_content {f : FaultPc} (hrestore : f.restoring = none)
    {next : Next FaultPc (Option PA)} (hk : k.faultNext S p va f = .ok (next, k')) :
    ContentStep W p va k f next k' := by
  cases f with
  | enter =>
    obtain ⟨rfl, rfl⟩ | ⟨root, hroot, -, ⟨rfl, rfl⟩ | ⟨rfl, hnone, rfl⟩⟩ := faultEnter_cases hk
    · exact .still (still_of_eq rfl rfl rfl rfl) ⟨rfl, rfl⟩ rfl (.inl rfl)
    · exact .still (still_of_eq rfl rfl rfl rfl) ⟨rfl, rfl⟩ rfl (.inl rfl)
    · exact .look (still_of_eq rfl rfl rfl rfl) hroot hnone
  | touch =>
    obtain ⟨rfl, rfl⟩ := Prod.mk.inj (Except.ok.inj hk)
    exact .still (still_of_eq rfl (Tables.sameEntries_setRefBit _ p _).swapMap rfl rfl) ⟨rfl, rfl⟩
      rfl (.inl rfl)
  | addr =>
    obtain ⟨rfl, rfl⟩ := Prod.mk.inj (Except.ok.inj hk)
    exact .still (still_of_eq rfl rfl rfl rfl) ⟨rfl, rfl⟩ rfl (.inl rfl)
  | lookup =>
    obtain ⟨rfl, rfl⟩ := Prod.mk.inj (Except.ok.inj hk)
    exact .find
  | alloc found a =>
    obtain ⟨⟨next', k₁⟩, halloc, hk⟩ := bind_eq_ok.1 hk
    obtain ⟨rfl, rfl⟩ := Prod.mk.inj (Except.ok.inj hk)
    by_cases ha : ∃ n again e, a = .evict n again e
    · obtain ⟨n, again, e, rfl⟩ := ha
      obtain ⟨⟨next₂, k₂⟩, hevict, hk⟩ := bind_eq_ok.1 halloc
      obtain ⟨rfl, rfl⟩ := Prod.mk.inj (Except.ok.inj hk)
      exact evict_content hrestore hevict
    · obtain ⟨hs, hlifted, hnext⟩ := allocNext_still (W := W)
        (fun n again e heq => ha ⟨n, again, e, heq⟩) halloc
      obtain ⟨hlifted', hstage⟩ := faultAlloced_stage found next'
      exact .still hs ⟨hlifted, hlifted'.trans hnext⟩ rfl hstage
  | read i slot pa =>
    rw [faultNext_read] at hk
    obtain ⟨rfl, rfl⟩ := Prod.mk.inj (Except.ok.inj hk)
    cases slot with
    | none => exact .still (still_of_eq rfl rfl rfl rfl) ⟨rfl, rfl⟩ rfl (.inr rfl)
    | some s =>
      have hok : (k.readSwap S (some s) pa).1 = true := decide_eq_true (W.read_ok ..)
      rw [if_pos hok]
      refine .read ⟨rfl, rfl, W.view_read .., fun x hx _ => ?_⟩ ?_
      · exact Function.update_of_ne (by simpa using hx) _ _
      · exact (Function.update_self ..).trans (W.read_eq ..)
  | map found pa =>
    obtain ⟨-, rfl, rfl⟩ | ⟨root, ok, hroot, hmap, rfl⟩ := faultMap_cases hk
    · refine .still (still_of_eq rfl rfl rfl rfl) ⟨rfl, rfl⟩ ?_ (.inr rfl)
      cases found <;> rfl
    · obtain ⟨k₁, hwalk, ⟨rfl, rfl⟩ | ⟨rfl, hleaf, rfl⟩⟩ := mappages_cases hmap
      · refine .still (still_faultWalk hwalk) ⟨rfl, rfl⟩ ?_ (.inr rfl)
        cases found <;> rfl
      · have hs : Still W (FaultPc.map found pa).spare k k₁ := still_faultWalk hwalk
        refine .map hroot ?_ hs.swapMap ?_ hs.mem ?_
        · rw [leaves_setLeaf, leaves_setLeaf, hs.leaves]
        · refine (walk_untouched hwalk).swap.trans ?_
          split <;> rfl
        · rintro rfl hfree
          refine ((walk_walked hwalk).mem pa hfree).trans ?_
          exact Function.update_self ..
  | drop pa =>
    obtain ⟨rfl, rfl⟩ := Prod.mk.inj (Except.ok.inj hk)
    exact .still (still_of_eq rfl (freeFrameEntry_swapMap ..) rfl rfl) ⟨rfl, rfl⟩ rfl
      (.inl rfl)
  | dropFree pa =>
    obtain ⟨k₁, hfree, hk⟩ := bind_eq_ok.1 hk
    obtain ⟨rfl, rfl⟩ := Prod.mk.inj (Except.ok.inj hk)
    exact .still (still_kfree hfree) ⟨rfl, rfl⟩ rfl (.inl rfl)
  | finish found pa =>
    obtain ⟨rfl, rfl⟩ := Prod.mk.inj (Except.ok.inj hk)
    exact .finish

end Kernel

end Steps

end Xv6Swap.Paging
