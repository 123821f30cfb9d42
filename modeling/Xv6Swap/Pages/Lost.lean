import Xv6Swap.Pages.Kept
import Xv6Swap.Paging.Exec
import Xv6Swap.Paging.Invisible

/-!
# Pages in flight

An eviction clears the page table entry of its victim, writes the page to its slot without holding a
lock, and enters it into the swap map only afterwards. `vmfault` decides between reading the page
back and a new page by the page table and the swap map. In runs that are `Orderly` no page is lost
(`no_page_lost`): a `vmfault` that returns an address yields the page with what its process last
stored, and when a process is in user mode none of its pages is both mapped and in the swap map.
Otherwise the owner of a page in flight can find it in neither place and is given a page of zeros
(`page_lost`).
-/

namespace Xv6Swap.Paging

open Raid (Byte Page pgSize)
open Interleave (System Cfg)
open Kernel (vpn)

/-! ## Page faults and stores -/

/-- What a process does next: it goes on in a page fault, it takes one, or it stores a byte. -/
inductive PageAct
  | go
  | fault (va : ℕ)
  | store (va : ℕ) (b : Byte)

namespace PageAct

def act : PageAct → Act
  | go => .go
  | fault va => .fault va
  | store va b => .store va b

/-- The last contents of each page, with what the process `p` stores. -/
def record (p : ProcIdx) (last : ProcIdx × ℕ → Page) : PageAct → ProcIdx × ℕ → Page
  | go | fault _ => last
  | store va b => Function.update last (p, vpn va)
      (Function.update (last (p, vpn va)) (pageOffset va) b)

end PageAct

/-- The processes with their page faults and stores. What each process last stored in its pages is a
history variable. -/
def pageSystem {σ : Type} (S : SwapOps σ) :
    System ProcIdx PageAct Pc (Shared σ × (ProcIdx × ℕ → Page)) where
  next p a l g :=
    ((procSystem S).next p a.act l g.1).map fun r => (r.1, r.2, a.record p g.2)

/-- A step that loses no page: `vmfault` does not search the swap map for a page in flight, and no
eviction clears the entry of a page between its mapping and the end of the `vmfault` that has mapped
it. -/
structure Orderly {σ : Type} (c : Cfg ProcIdx Pc (Shared σ × (ProcIdx × ℕ → Page))) (p : ProcIdx)
    (_ : PageAct) : Prop where
  look : ∀ w, (c.loc p).looks = some w → ∀ r l, (c.loc r).flight ≠ some ((p, w), l)
  clear : ∀ q w, (c.loc p).clears = some (q, w) → ((c.loc q).stageAt w).isDone = false

/-- Where a page is while no operation is running. -/
def Kernel.home {σ : Type} (k : Kernel σ) (x : ProcIdx × ℕ) : Home :=
  match k.users k.roots x with
  | some e => .mapped e none
  | none =>
    match k.tables.findSwap x.1 (x.2 * pgSize) with
    | some i => .swapped i
    | none => .fresh

/-- A state in which no operation is running, and no page is both mapped and in the swap map. What a
process last stored is in the frame of the page or in its slot; pages in neither were never touched.
-/
structure Settled {σ : Type} {S : SwapOps σ} (W : SwapLaws S) (P : Multiset PA)
    (c : Cfg ProcIdx Pc (Shared σ × (ProcIdx × ℕ → Page))) : Prop where
  idle : Idle c.erase
  books : Books P (c.mem.1.kern.layout c.mem.1.kern.roots) 0
  slots : SlotsOk c.mem.1.kern.tables fun _ => .none
  vas : ∀ i, UserVa (c.mem.1.kern.tables.frameTable i).va ∧
    pgSize ∣ (c.mem.1.kern.tables.frameTable i).va
  sizes : ∀ p, (c.mem.1.kern.procs p).sz ≤ trapframeVa
  leaf : ∀ p root v e, (c.mem.1.kern.procs p).pagetable = some root → vpn trapframeVa ≤ v →
    c.mem.1.kern.leaves root v = some e → e.perm.u = false
  swap_inj : ∀ i j p va, (c.mem.1.kern.tables.swapMap i).Holds p va →
    (c.mem.1.kern.tables.swapMap j).Holds p va → i = j
  apart : ∀ i x e, c.mem.1.kern.users c.mem.1.kern.roots x = some e →
    ¬ (c.mem.1.kern.tables.swapMap i).Holds x.1 (x.2 * pgSize)
  last : ∀ x, c.mem.2 x = (c.mem.1.kern.home x).content W c.mem.1.kern

/-- A `vmfault` that returns an address has its page mapped there, with what the process last
stored. A page of a process in user mode is not both mapped and in the swap map. -/
structure NoneLost {σ : Type} (S : SwapOps σ)
    (c : Cfg ProcIdx Pc (Shared σ × (ProcIdx × ℕ → Page))) : Prop where
  fault : ∀ p va f pa k', c.loc p = .fault va f →
    c.mem.1.kern.faultNext S p va f = .ok (.ret (some pa), k') →
      ∃ root e, (k'.procs p).pagetable = some root ∧ k'.pteAt root (pgRoundDown va) = some e ∧
        e.pa = pa ∧ k'.mem pa = c.mem.2 (p, vpn va)
  apart : ∀ p root w i, c.loc p = .user → (c.mem.1.kern.procs p).pagetable = some root →
    w * pgSize < trapframeVa → (c.mem.1.kern.pteAt root (w * pgSize)).isSome →
      ¬ (c.mem.1.kern.tables.swapMap i).Holds p (w * pgSize)

/-! ## Runs -/

section Runs

variable {σ : Type} {S : SwapOps σ} {W : SwapLaws S} {P : Multiset PA} {own : ProcIdx → Option PA}
  {c c₀ : Cfg ProcIdx Pc (Shared σ × (ProcIdx × ℕ → Page))} {p : ProcIdx} {a : PageAct}

/-- The invariant of orderly runs. -/
structure PageInv (W : SwapLaws S) (P : Multiset PA) (own : ProcIdx → Option PA)
    (c : Cfg ProcIdx Pc (Shared σ × (ProcIdx × ℕ → Page))) : Prop where
  life : LifeOk c.erase
  sane : Sane P own c.loc c.mem.1.kern
  kept : ∃ home, Kept W own c.loc c.mem.1.kern c.mem.2 home

theorem pageSystem_next {l l' : Pc} {g g' : Shared σ × (ProcIdx × ℕ → Page)}
    (h : (pageSystem S).next p a l g = some (l', g')) :
    (procSystem S).next p a.act l g.1 = some (l', g'.1) ∧ g'.2 = a.record p g.2 := by
  obtain ⟨r, hr, heq⟩ := Option.map_eq_some_iff.1 h
  obtain ⟨rfl, rfl⟩ := Prod.mk.inj heq
  exact ⟨hr, rfl⟩

/-- The entry through which a process stores. -/
theorem Sane.users_of_translate {L : ProcIdx → Pc} {k : Kernel σ} {root pa : PA} {va : ℕ}
    {ok : Perm → Bool} (h : Sane P own L k) (hroot : (k.procs p).pagetable = some root)
    (ht : k.translate root va ok = some pa) :
    ∃ e, k.users own (p, vpn va) = some e ∧ e.pa = pa := by
  unfold Kernel.translate at ht
  split at ht
  · rename_i e he
    obtain ⟨hperm, hpa⟩ := Option.ite_none_right_eq_some.1 ht
    have hu : e.perm.u = true := (Bool.and_eq_true_iff.1 hperm).1
    have hown : own p = some root := (h.sync p).trans hroot
    have hleaf := (Kernel.leaves_of_pteAt he).1
    have hva : UserVa va := by
      by_contra hle
      exact Bool.noConfusion (hu.symm.trans (h.leaf p root _ e hown (not_lt.1 hle) hleaf))
    exact ⟨e, Kernel.users_of_leaf hown hva hleaf, Option.some.inj hpa⟩
  · cases ht

/-- A step in user mode. -/
theorem PageInv.user (h : PageInv W P own c) (hp : c.loc p = .user) {l : Pc} {g : Shared σ}
    (hn : c.mem.1.userNext p a.act = some (l, g)) :
    Sane P own (Function.update c.loc p l) g.kern ∧
      ∃ home, Kept W own (Function.update c.loc p l) g.kern (a.record p c.mem.2) home := by
  obtain ⟨-, hs, home, hkept⟩ := h
  cases a with
  | go => cases hn
  | fault va =>
    obtain ⟨rfl, rfl⟩ := Prod.mk.inj (Option.some.inj hn)
    exact ⟨hs.enter hp va, home, hkept.enter hp va⟩
  | store va b =>
    obtain ⟨g₁, hstore, heq⟩ := Option.map_eq_some_iff.1 hn
    obtain ⟨rfl, rfl⟩ := Prod.mk.inj heq
    obtain ⟨pa, hpa, rfl⟩ := Option.map_eq_some_iff.1 hstore
    obtain ⟨root, hroot, ht⟩ := Option.bind_eq_some_iff.1 hpa
    obtain ⟨e, hx, rfl⟩ := hs.users_of_translate hroot ht
    rw [← hp, Function.update_eq_self]
    exact ⟨hs.setByte e.pa (pageOffset va) b, home, hkept.store hs hx (pageOffset va) b⟩

/-- A step of a page fault. -/
theorem PageInv.fault (h : PageInv W P own c) (hok : Orderly c p .go) (hp : c.loc p ≠ .user)
    {l : Pc}
    {g : Shared σ} (hn : c.mem.1.kernelNext S p (c.loc p) = some (l, g)) :
    Sane P own (Function.update c.loc p l) g.kern ∧
      ∃ home, Kept W own (Function.update c.loc p l) g.kern c.mem.2 home := by
  obtain ⟨hlife, hs, home, hkept⟩ := h
  have hpt : (c.mem.1.kern.procs p).pagetable ≠ none := by
    refine Option.isSome_iff_ne_none.1 (hlife.table p fun hun => ?_)
    have hruns := hlife.runs p hp
    simp [Shared.runs, hun, ProcState.runs] at hruns
  obtain ⟨va, f, hf, -⟩ := (hs.pc p).resolve_left hp
  rw [hf] at hn
  -- the two ways on are one for `Next.pc`
  have hnext : ∃ next k', c.mem.1.kern.faultNext S p va f = .ok (next, k') ∧ l = next.pc va ∧
      g.kern = k' := by
    rcases Shared.proceed_eq_some hn with ⟨f', k', hk, rfl, rfl⟩ | ⟨r, k', hk, rfl, rfl⟩
    · exact ⟨.go f', k', hk, rfl, rfl⟩
    · exact ⟨.ret r, k', hk, rfl, rfl⟩
  obtain ⟨next, k', hk, rfl, rfl⟩ := hnext
  exact ⟨hs.fault W hf hpt hk, hkept.fault hs hf hok.look hok.clear hk⟩

theorem PageInv.next (h : PageInv W P own c) (hok : Orderly c p a) {l : Pc}
    {g : Shared σ × (ProcIdx × ℕ → Page)}
    (hn : (pageSystem S).next p a (c.loc p) c.mem = some (l, g)) :
    PageInv W P own ⟨Function.update c.loc p l, g⟩ := by
  obtain ⟨hn, hlast⟩ := pageSystem_next hn
  have hlife : LifeOk ⟨Function.update c.erase.loc p l, g.1⟩ := h.life.next hn
  rcases procSystem_next hn with ⟨hl, -, huser⟩ | ⟨hl, ha, hkernel⟩
  · obtain ⟨hs, hkept⟩ := h.user hl huser
    exact ⟨hlife, hs, hlast ▸ hkept⟩
  · cases a with
    | go =>
      obtain ⟨hs, hkept⟩ := h.fault hok hl hkernel
      exact ⟨hlife, hs, hlast ▸ hkept⟩
    | fault va | store va b => cases ha

/-! ## The start -/

theorem Settled.user (h : Settled W P c) (p : ProcIdx) : c.loc p = .user := h.idle.user p

theorem Settled.kept (h : Settled W P c) : Kept W c.mem.1.kern.roots c.loc c.mem.1.kern c.mem.2
    c.mem.1.kern.home where
  value x := (h.last x).symm
  mapped x := by
    unfold Kernel.home
    split
    · assumption
    · rename_i hnone
      rw [hnone]
      split <;> rfl
  entry i x := by
    unfold Kernel.home
    split
    · rename_i e he
      exact iff_of_false (h.apart i x e he) nofun
    · split
      · rename_i j hj
        have hold := Tables.findSwap_eq_some hj
        constructor
        · intro hi
          exact congrArg some (h.swap_inj j i _ _ hold hi)
        · intro hi
          rwa [← Option.some.inj hi]
      · rename_i hnone
        exact iff_of_false (Tables.findSwap_eq_none hnone i) nofun
  flight r x l := by
    rw [h.user r]
    refine iff_of_false nofun fun hfl => ?_
    unfold Kernel.home at hfl
    split at hfl
    · cases hfl
    · split at hfl <;> cases hfl
  stage x := by
    rw [h.user x.1]
    trivial
  stale x e i hx := by
    unfold Kernel.home at hx
    split at hx
    · cases hx
    · split at hx <;> cases hx

theorem Settled.sane (h : Settled W P c) : Sane P c.mem.1.kern.roots c.loc c.mem.1.kern where
  books := by
    have hsum : ∑ p, (c.loc p).hand = 0 := Finset.sum_eq_zero fun p _ => by
      rw [h.user p]
      rfl
    rw [hsum]
    exact h.books
  slots := by
    have hholds : (fun p => (c.loc p).hold) = fun _ => .none := h.idle.holds
    rw [hholds]
    exact h.slots
  vas p := by
    rw [h.user p]
    exact ⟨h.vas, nofun⟩
  sizes := h.sizes
  sync _ := rfl
  leaf := h.leaf
  pc p := .inl (h.user p)

/-! ## No page is lost -/

/-- `vmfault` returns an address after it has found its page mapped, or at its end. -/
theorem Kernel.faultNext_ret_some {k k' : Kernel σ} {va : ℕ} {f : FaultPc} {pa : PA}
    (hk : k.faultNext S p va f = .ok (.ret (some pa), k')) :
    f = .addr ∧ k' = k ∧
        ((k.procs p).pagetable.bind fun root => k.walkaddr root (pgRoundDown va)) = some pa ∨
      ∃ found, f = .finish found pa ∧ k' = k.faultFinish p (pgRoundDown va) found := by
  cases f with
  | addr =>
    obtain ⟨hret, rfl⟩ := Prod.mk.inj (Except.ok.inj hk)
    exact .inl ⟨rfl, rfl, Next.ret.inj hret⟩
  | finish found pa' =>
    obtain ⟨hret, rfl⟩ := Prod.mk.inj (Except.ok.inj hk)
    obtain rfl := Option.some.inj (Next.ret.inj hret)
    exact .inr ⟨found, rfl, rfl⟩
  | enter =>
    obtain ⟨hret, -⟩ | ⟨root, -, -, ⟨hgo, -⟩ | ⟨hgo, -⟩⟩ := faultEnter_cases hk
    · cases hret
    · cases hgo
    · cases hgo
  | touch | lookup | read | drop => cases (Prod.mk.inj (Except.ok.inj hk)).1
  | alloc found a =>
    obtain ⟨⟨next, k₁⟩, -, hk⟩ := bind_eq_ok.1 hk
    obtain ⟨hret, -⟩ := Prod.mk.inj (Except.ok.inj hk)
    match next, found with
    | .go _, _ | .ret none, _ | .ret (some _), none | .ret (some _), some _ => cases hret
  | map found pa' =>
    obtain ⟨-, hret, -⟩ | ⟨root, ok, -, -, hgo⟩ := faultMap_cases hk
    · cases hret
    · cases hgo
  | dropFree pa' =>
    obtain ⟨k₁, -, hk⟩ := bind_eq_ok.1 hk
    cases (Prod.mk.inj (Except.ok.inj hk)).1

section Mapped

variable {L : ProcIdx → Pc} {k : Kernel σ} {e : Pte} {root pa : PA} {va : ℕ}

theorem Sane.pteAt_of_users (hs : Sane P own L k) (hx : k.users own (p, vpn va) = some e) :
    ∃ root, (k.procs p).pagetable = some root ∧ k.pteAt root (pgRoundDown va) = some e := by
  obtain ⟨-, root, hroot, hleaf⟩ := Kernel.users_eq_some hx
  refine ⟨root, (hs.sync p).symm.trans hroot, ?_⟩
  rw [Kernel.pteAt_eq_leaves (hs.books.wf_pts hroot), pgRoundDown, Kernel.vpn_mul]
  exact hleaf

theorem Sane.users_of_pteAt (hs : Sane P own L k) (hroot : (k.procs p).pagetable = some root)
    (hva : UserVa (pgRoundDown va)) (he : k.pteAt root (pgRoundDown va) = some e) :
    k.users own (p, vpn va) = some e := by
  have hleaf := (Kernel.leaves_of_pteAt he).1
  have hvpn : vpn (pgRoundDown va) = vpn va := Kernel.vpn_mul (va / pgSize)
  rw [← hvpn]
  exact Kernel.users_of_leaf ((hs.sync p).trans hroot) hva hleaf

theorem Kernel.walkaddr_eq_some (h : k.walkaddr root va = some pa) :
    ∃ e, k.pteAt root va = some e ∧ e.pa = pa := by
  unfold walkaddr at h
  split at h
  · cases h
  · split at h
    · rename_i e he
      exact ⟨e, he, Option.some.inj (Option.ite_none_right_eq_some.1 h).2⟩
    · cases h

end Mapped

theorem PageInv.noneLost (h : PageInv W P own c) : NoneLost S c := by
  obtain ⟨-, hs, home, hkept⟩ := h
  refine ⟨fun p va f pa k' hp hk => ?_, fun p root w i hp hroot hw hsome hold => ?_⟩
  · obtain ⟨rfl, rfl, haddr⟩ | ⟨found, rfl, rfl⟩ := Kernel.faultNext_ret_some hk
    · obtain ⟨root, hroot, hwalk⟩ := Option.bind_eq_some_iff.1 haddr
      obtain ⟨e, he, rfl⟩ := Kernel.walkaddr_eq_some hwalk
      have hva := (hs.pc_of_fault hp).2.resolve_left nofun
      exact ⟨root, e, hroot, he, rfl, hkept.mem_of_users (hs.users_of_pteAt hroot hva he)⟩
    · obtain ⟨e, hhome, rfl⟩ := hkept.stage_self hp
      have hx : c.mem.1.kern.users own (p, vpn va) = some e := by
        rw [hkept.mapped, hhome]
        rfl
      obtain ⟨root, hroot, he⟩ := hs.pteAt_of_users hx
      -- the end of `vmfault` leaves the page tables and the memory alone
      obtain ⟨hpts, hmem⟩ : (c.mem.1.kern.faultFinish p (pgRoundDown va) found).pts =
          c.mem.1.kern.pts ∧ (c.mem.1.kern.faultFinish p (pgRoundDown va) found).mem =
          c.mem.1.kern.mem := by
        rcases found with _ | ⟨i, slot⟩ <;> exact ⟨rfl, rfl⟩
      have hsteady := (Kernel.faultFinish_moved hs.books p (pgRoundDown va) found).steady
      refine ⟨root, e, (hsteady.pagetable p).trans hroot, ?_, rfl, ?_⟩
      · unfold Kernel.pteAt at he ⊢
        rw [hpts]
        exact he
      · rw [hmem]
        exact hkept.mem_of_users hx
  · obtain ⟨e, he⟩ := Option.isSome_iff_exists.1 hsome
    have hleaf := (Kernel.leaves_of_pteAt he).1
    have hx := Kernel.users_of_leaf ((hs.sync p).trans hroot) (userVa_of_lt hw) hleaf
    rw [Kernel.vpn_mul] at hx
    have hhome : home (p, w) = .mapped e none := hkept.mapped_of_users hx (by rw [hp]; rfl)
    have hentry := (hkept.entry i (p, w)).1 hold
    rw [hhome] at hentry
    cases hentry

/-- **No page is lost to an eviction in flight**, in every orderly run. -/
theorem no_page_lost (h₀ : Settled W P c₀) (hrun : (pageSystem S).Reaches Orderly c₀ c) :
    NoneLost S c := by
  have hinv : PageInv W P c₀.mem.1.kern.roots c := hrun.inv
    (fun _ _ _ _ _ hok h hn => h.next hok hn) ⟨h₀.idle.lifeOk, h₀.sane, _, h₀.kept⟩
  exact hinv.noneLost

end Runs

/-! ## Two processes -/

instance decidableOrderly {σ : Type} (c : Cfg ProcIdx Pc (Shared σ × (ProcIdx × ℕ → Page)))
    (p : ProcIdx) (a : PageAct) : Decidable (Orderly c p a) :=
  decidable_of_iff
    ((∀ w ∈ (c.loc p).looks, ∀ r, ((c.loc r).flight.map Prod.fst) ≠ some (p, w)) ∧
      ∀ x ∈ (c.loc p).clears, ((c.loc x.1).stageAt x.2).isDone = false)
    ⟨fun h => ⟨fun w hw r l hl => h.1 w hw r (by rw [hl]; rfl), fun q w hw => h.2 (q, w) hw⟩,
      fun h => ⟨fun w hw r hr => by
        obtain ⟨⟨x, l⟩, hl, hx⟩ := Option.map_eq_some_iff.1 hr
        exact h.look w hw r l (hx ▸ hl), fun x hx => h.clear x.1 x.2 hx⟩⟩

/-- A process with two pages, both mapped and full of sevens, and between them the guard page of its
stack, from which `uvmclear` has taken `PTE_U`; and a process with a page that was never touched. No
page is free. -/
def neighbours : Kernel Raid.Dev where
  tables :=
    { Tables.init with
      frameTable := fun i =>
        if i.val < 2 then ⟨true, true, some proc₀, 2 * i.val * pgSize, false⟩ else .clear
      userFrameCount := 2 }
  freelist := []
  mem := fun _ _ => 7
  pts := fun root =>
    if root = pageNo 0 then
      Kernel.smallTable (pageNo 1) (pageNo 2) fun v =>
        if v < 3 then some ⟨pageNo (6 + v), { Perm.userRw with u := v != 1 }⟩ else none
    else Kernel.smallTable (pageNo 4) (pageNo 5) fun _ => none
  procs := fun p =>
    if p = proc₀ then ⟨.running, 3 * pgSize, some (pageNo 0), none, 0, 0, 0, 0, 0, 0, 0⟩
    else if p = proc₁ then ⟨.running, pgSize, some (pageNo 3), none, 0, 0, 0, 0, 0, 0, 0⟩
    else ⟨.unused, 0, none, none, 0, 0, 0, 0, 0, 0, 0⟩
  swap := Raid.blankDev
  kernEnd := pageNo 0
  trampoline := 0x80000000

theorem smallTable_wf {mid low : PA} {leaf : ℕ → Option Pte}
    (hlt : ∀ v e, leaf v = some e → v < 512) :
    TableWf (Kernel.smallTable mid low leaf) where
  mid_lt i hi := by
    by_contra hle
    have hne : i ≠ 0 := by omega
    simp [Kernel.smallTable, hne] at hi
  low_mid j hj := by
    by_cases hj₀ : j = 0
    · subst hj₀
      rfl
    · simp [Kernel.smallTable, hj₀] at hj
  leaf_low v hv := by
    obtain ⟨e, he⟩ := Option.isSome_iff_exists.1 hv
    simp [Kernel.smallTable, Nat.div_eq_of_lt (hlt v e he)]
  leaf_le v hv := by
    obtain ⟨e, he⟩ := Option.isSome_iff_exists.1 hv
    exact (hlt v e he).le.trans (by decide)

theorem smallTable_page {mid low : PA} {leaf : ℕ → Option Pte} {pl : Place} (hmid : pl ≠ .mid 0)
    (hlow : pl ≠ .low 0) (hleaf : ∀ v, pl = .user v → leaf v = none) :
    (Kernel.smallTable mid low leaf).page pl = none := by
  cases pl with
  | mid i =>
    have hi : (i : ℕ) ≠ 0 := fun hi => hmid (congrArg Place.mid (Fin.ext hi))
    simp [PageTable.page, Kernel.smallTable, hi]
  | low j =>
    have hj : (j : ℕ) ≠ 0 := fun hj => hlow (congrArg Place.low (Fin.ext hj))
    simp [PageTable.page, Kernel.smallTable, hj]
  | user v => simp [PageTable.page, Kernel.smallTable, hleaf v rfl]

theorem neighbours_roots (p : ProcIdx) :
    p = proc₀ ∧ neighbours.roots p = some (pageNo 0) ∨
      p = proc₁ ∧ neighbours.roots p = some (pageNo 3) ∨
        p ≠ proc₀ ∧ p ≠ proc₁ ∧ neighbours.roots p = none := by
  by_cases h₀ : p = proc₀
  · exact .inl ⟨h₀, by simp [Kernel.roots, neighbours, h₀]⟩
  · by_cases h₁ : p = proc₁
    · subst h₁
      exact .inr (.inl ⟨rfl, rfl⟩)
    · exact .inr (.inr ⟨h₀, h₁, by simp [Kernel.roots, neighbours, h₀, h₁]⟩)

theorem zero_lt_vpn_trapframeVa : 0 < vpn trapframeVa := by decide

theorem one_lt_vpn_trapframeVa : 1 < vpn trapframeVa := by decide

theorem two_lt_vpn_trapframeVa : 2 < vpn trapframeVa := by decide

/-- The roles of the pages. -/
def tenantRoles : List Role :=
  [.root proc₀, .entry proc₀ (.mid 0), .entry proc₀ (.low 0),
    .root proc₁, .entry proc₁ (.mid 0), .entry proc₁ (.low 0),
    .entry proc₀ (.user ⟨0, zero_lt_vpn_trapframeVa⟩),
    .entry proc₀ (.user ⟨1, one_lt_vpn_trapframeVa⟩),
    .entry proc₀ (.user ⟨2, two_lt_vpn_trapframeVa⟩)]

theorem neighbours_rest (r : Role) (hr : r ∉ tenantRoles) :
    (neighbours.layout neighbours.roots).pagesAt r = 0 := by
  cases r with
  | free => rfl
  | trapframe p =>
    have hnone : (neighbours.procs p).trapframe = none := by
      simp only [neighbours]
      split_ifs <;> rfl
    simp [Layout.pagesAt, Kernel.layout, hnone]
  | root p =>
    obtain ⟨rfl, -⟩ | ⟨rfl, -⟩ | ⟨-, -, hnone⟩ := neighbours_roots p
    · exact absurd (by simp [tenantRoles]) hr
    · exact absurd (by simp [tenantRoles]) hr
    · simp [Layout.pagesAt, Kernel.layout, hnone]
  | entry p pl =>
    have hpage : ((neighbours.layout neighbours.roots).tab p).page pl = none := by
      obtain ⟨rfl, hroot⟩ | ⟨rfl, hroot⟩ | ⟨-, -, hroot⟩ := neighbours_roots p
      · simp only [Kernel.layout, hroot, Option.elim_some]
        refine smallTable_page (fun h => hr (by simp [tenantRoles, h]))
          (fun h => hr (by simp [tenantRoles, h])) fun v h => if_neg fun hv => hr ?_
        have hcases : v = ⟨0, zero_lt_vpn_trapframeVa⟩ ∨ v = ⟨1, one_lt_vpn_trapframeVa⟩ ∨
            v = ⟨2, two_lt_vpn_trapframeVa⟩ := by
          simp only [Fin.ext_iff]
          omega
        rcases hcases with rfl | rfl | rfl <;> simp [tenantRoles, h]
      · simp only [Kernel.layout, hroot, Option.elim_some]
        exact smallTable_page (fun h => hr (by simp [tenantRoles, h]))
          (fun h => hr (by simp [tenantRoles, h])) fun _ _ => rfl
      · simp only [Kernel.layout, hroot, Option.elim_none]
        cases pl <;> rfl
    simp [Layout.pagesAt, hpage]

/-- The entries of the page tables. -/
theorem neighbours_leaf {p : ProcIdx} {root : PA} (hroot : neighbours.roots p = some root) :
    TableWf (neighbours.pts root) ∧ ∀ v e, neighbours.leaves root v = some e → v < 3 := by
  obtain ⟨-, h⟩ | ⟨-, h⟩ | ⟨-, -, h⟩ := neighbours_roots p
  · obtain rfl := Option.some.inj (h.symm.trans hroot)
    have hleaf : ∀ v e, neighbours.leaves (pageNo 0) v = some e → v < 3 := fun v e he =>
      (Option.ite_none_right_eq_some.1 he).1
    exact ⟨smallTable_wf fun v e he => (hleaf v e he).trans (by decide), hleaf⟩
  · obtain rfl := Option.some.inj (h.symm.trans hroot)
    exact ⟨smallTable_wf nofun, nofun⟩
  · cases h.symm.trans hroot

theorem neighbours_books : Books ((List.range 9).map pageNo : List PA)
    (neighbours.layout neighbours.roots) 0 where
  balanced := .of_list (Multiset.coe_nodup.2 (by decide)) (by decide) (by decide) neighbours_rest
  wf p := by
    match hroot : neighbours.roots p with
    | none =>
      simp only [Kernel.layout, hroot, Option.elim_none]
      exact tableWf_empty
    | some root =>
      simp only [Kernel.layout, hroot, Option.elim_some]
      exact (neighbours_leaf hroot).1

/-- Both processes are in user mode. -/
def twoTenants : Cfg ProcIdx Pc (Shared Raid.Dev × (ProcIdx × ℕ → Page)) where
  loc := fun _ => .user
  mem := (⟨neighbours, fun _ => false⟩, fun x =>
    (neighbours.home x).content (raidSwapLaws .raid5) neighbours)

theorem twoTenants_settled :
    Settled (raidSwapLaws .raid5) ((List.range 9).map pageNo : List PA) twoTenants where
  idle := ⟨fun _ => rfl, fun _ => rfl, by decide +kernel⟩
  books := neighbours_books
  slots := ⟨nofun, nofun, nofun, nofun, nofun⟩
  vas i := by
    by_cases hi : i.val < 2
    · have hva : (neighbours.tables.frameTable i).va = 2 * i.val * pgSize :=
        congrArg Frame.va (if_pos hi)
      refine ⟨?_, hva ▸ Dvd.intro_left _ rfl⟩
      change vpn (neighbours.tables.frameTable i).va < _
      rw [hva, Kernel.vpn_mul]
      exact (show 2 * i.val < 4 by omega).trans (by decide)
    · have hva : (neighbours.tables.frameTable i).va = 0 := congrArg Frame.va (if_neg hi)
      exact hva ▸ ⟨userVa_zero, dvd_zero _⟩
  sizes := by decide +kernel
  leaf p root v e hroot hv he := by
    exact absurd (hv.trans_lt ((neighbours_leaf hroot).2 v e he)) (by decide)
  swap_inj _ _ _ _ hold := nomatch hold.1
  apart _ _ _ _ hold := nomatch hold.1
  last _ := rfl

/-- The first bytes of the page that the next step of a process returns from `vmfault`, and of what
the process last stored there. -/
def firstBytes (c : Cfg ProcIdx Pc (Shared Raid.Dev × (ProcIdx × ℕ → Page))) (p : ProcIdx) :
    Option (Byte × Byte) :=
  match c.loc p with
  | .fault va f =>
    match c.mem.1.kern.faultNext (raidSwap .raid5) p va f with
    | .ok (.ret (some pa), k') =>
      some (k'.mem pa (pageOffset 0), c.mem.2 (p, vpn va) (pageOffset 0))
    | _ => none
  | _ => none

theorem firstBytes_eq_some {c : Cfg ProcIdx Pc (Shared Raid.Dev × (ProcIdx × ℕ → Page))}
    {p : ProcIdx} {b b' : Byte} (h : firstBytes c p = some (b, b'))
    (hc : NoneLost (raidSwap .raid5) c) : b = b' := by
  unfold firstBytes at h
  split at h
  · rename_i va f hp
    split at h
    · rename_i pa k' hk
      obtain ⟨rfl, rfl⟩ := Prod.mk.inj (Option.some.inj h)
      obtain ⟨root, e, -, -, -, hmem⟩ := hc.fault p va f pa k' hp hk
      rw [hmem]
    · cases h
  · cases h

/-- A page fault of the process `p` on its page 0, for `n` steps. -/
def faultOnZero (p : ProcIdx) (n : ℕ) : List (ProcIdx × PageAct) :=
  (p, .fault 0) :: List.replicate n (p, .go)

/-- `proc₀` stores a nine in its page, the page fault of `proc₁` evicts the page, and `proc₀` gets
it back. -/
theorem no_page_lost_twoTenants :
    Settled (raidSwapLaws .raid5) ((List.range 9).map pageNo : List PA) twoTenants ∧ ∃ c,
      (pageSystem (raidSwap .raid5)).Reaches Orderly twoTenants c ∧
        firstBytes c proc₀ = some (9, 9) ∧ NoneLost (raidSwap .raid5) c := by
  have hrun : ((pageSystem (raidSwap .raid5)).execWhile Orderly
      ((proc₀, .store 0 9) :: (faultOnZero proc₁ 15 ++ faultOnZero proc₀ 15)) twoTenants).map
        (fun c => firstBytes c proc₀) = some (some (9, 9)) := by
    decide +kernel
  obtain ⟨c, hc, hbytes⟩ := Option.map_eq_some_iff.1 hrun
  have hreach := System.reaches_of_execWhile hc
  exact ⟨twoTenants_settled, c, hreach, hbytes, no_page_lost twoTenants_settled hreach⟩

/-- While page 0 of `proc₀` is in flight with `proc₁`, `proc₀` takes a page fault on it: the page is
in neither place, and `proc₀` is given a page of zeros. -/
theorem page_lost :
    Settled (raidSwapLaws .raid5) ((List.range 9).map pageNo : List PA) twoTenants ∧ ∃ c,
      (pageSystem (raidSwap .raid5)).Reaches System.any twoTenants c ∧
        (c.loc proc₁).flight = some ((proc₀, 0), .frame (pageNo 6)) ∧
        firstBytes c proc₀ = some (0, 7) ∧ ¬ NoneLost (raidSwap .raid5) c := by
  have hrun : ((pageSystem (raidSwap .raid5)).exec (faultOnZero proc₁ 7 ++ faultOnZero proc₀ 14)
      twoTenants).map (fun c => ((c.loc proc₁).flight, firstBytes c proc₀)) =
        some (some ((proc₀, 0), .frame (pageNo 6)), some (0, 7)) := by
    decide +kernel
  obtain ⟨c, hc, hobs⟩ := Option.map_eq_some_iff.1 hrun
  obtain ⟨hflight, hbytes⟩ := Prod.mk.inj hobs
  refine ⟨twoTenants_settled, c, System.reaches_of_exec hc, hflight, hbytes, fun hnone => ?_⟩
  exact absurd (firstBytes_eq_some hbytes hnone) (by decide)

end Xv6Swap.Paging
