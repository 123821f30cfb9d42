import Xv6Swap.Pages.Conserve
import Xv6Swap.Pages.Content
import Xv6Swap.Threads.Slots

/-!
# Where the contents of pages are

Processes that take page faults and store to their pages, in any interleaving. `Kept` says where the
contents of each page are (`Home`): nowhere, if the page was never touched; in the frame that it is
mapped to; in a slot that the swap map has for it; or with an eviction. The page tables, the swap
map and the evictions agree with that, and what is there is what the process last stored.

The invariant is kept by every step of a page fault (`Kept.fault`) as long as `vmfault` does not
search the swap map for a page that an eviction has in flight, and no eviction takes a page away
between its mapping and the end of the `vmfault` that has mapped it (`Orderly`).
-/

namespace Xv6Swap.Paging

open Raid (Byte Page pgSize)
open Interleave (System Cfg)
open Kernel (vpn)

/-! ## Points of the kernel -/

/-- The page that a process has in flight. -/
def Pc.flight : Pc → Option ((ProcIdx × ℕ) × Loc)
  | .fault _ f => f.flight
  | _ => none

/-- How far a process is with a page fault on its page `w`. -/
def Pc.stageAt (w : ℕ) : Pc → Stage
  | .fault va f => if vpn va = w then f.stage else .out
  | _ => .out

/-- The page that `vmfault` searches the swap map for next. -/
def Pc.looks : Pc → Option ℕ
  | .fault va .lookup => some (vpn va)
  | _ => none

/-- The page whose entry in the page table an eviction clears next, if it is valid. -/
def Pc.clears : Pc → Option (ProcIdx × ℕ)
  | .fault _ (.alloc _ (.evict _ _ (.update _ v))) => v.proc.map fun q => (q, vpn v.va)
  | _ => none

/-- Where a process is after a step of `vmfault`. -/
def Next.pc {β : Type} (va : ℕ) : Next FaultPc β → Pc
  | .go f => .fault va f
  | .ret _ => .user

section Pc

variable {β : Type} (va : ℕ) (next : Next FaultPc β)

theorem Next.pc_hand : (next.pc va).hand = next.getD FaultPc.hand 0 := by
  cases next <;> rfl

theorem Next.pc_hold : (next.pc va).hold = next.getD FaultPc.hold .none := by
  cases next <;> rfl

theorem Next.pc_flight : (next.pc va).flight = next.getD FaultPc.flight none := by
  cases next <;> rfl

theorem Next.pc_stageAt (w : ℕ) :
    (next.pc va).stageAt w = if vpn va = w then next.getD FaultPc.stage .out else .out := by
  cases next with
  | go f => rfl
  | ret r => exact (ite_self _).symm

end Pc

/-! ## Homes -/

/-- Where the contents of a page are. While `vmfault` has mapped a page and not yet finished, the
swap map still has a stale entry for it. -/
inductive Home
  | fresh
  | mapped (e : Pte) (stale : Option SlotIdx)
  | swapped (i : SlotIdx)
  | flying (r : ProcIdx) (x : Loc)

namespace Home

/-- The entry in the page table. -/
def pte : Home → Option Pte
  | mapped e _ => some e
  | _ => none

/-- The entry in the swap map. -/
def entry : Home → Option SlotIdx
  | mapped _ stale => stale
  | swapped i => some i
  | _ => none

def loc : Home → Option Loc
  | fresh => none
  | mapped e _ => some (.frame e.pa)
  | swapped i => some (.slot i)
  | flying _ x => some x

variable {σ : Type} {S : SwapOps σ} (W : SwapLaws S) (k : Kernel σ)

/-- The contents of a page at home. A page that was never touched is zero. -/
def content (h : Home) : Page :=
  match h.loc with
  | none => fun _ => 0
  | some (.frame pa) => k.mem pa
  | some (.slot s) => W.view k.swap s

variable {W k} {k' : Kernel σ} {h : Home}

theorem content_eq (hmem : ∀ pa, h.loc = some (.frame pa) → k'.mem pa = k.mem pa)
    (hview : ∀ s, h.loc = some (.slot s) → W.view k'.swap s = W.view k.swap s) :
    h.content W k' = h.content W k := by
  unfold content
  match hl : h.loc with
  | none => rfl
  | some (.frame pa) => exact hmem pa hl
  | some (.slot s) => exact hview s hl

theorem eq_mapped_of_pte {e : Pte} (hpte : h.pte = some e) : ∃ stale, h = .mapped e stale := by
  cases h with
  | mapped e' stale =>
    obtain rfl := Option.some.inj hpte
    exact ⟨stale, rfl⟩
  | fresh | swapped | flying => cases hpte

end Home

/-- What `vmfault` knows of its page at each stage. -/
def StageOk {σ : Type} {S : SwapOps σ} (W : SwapLaws S) (k : Kernel σ) (h : Home) : Stage → Prop
  | .out => True
  | .look => h.pte = none
  | .busy none => h = .fresh
  | .busy (some (i, slot)) => h = .swapped i ∧ slot = some i
  | .load i slot pa => h = .swapped i ∧ slot = some i ∧ k.mem pa = W.view k.swap i
  | .done found pa => ∃ e, h = .mapped e (found.map Prod.fst) ∧ e.pa = pa

/-- The memory and the slots matter only to a page fault that has read its page. -/
theorem StageOk.congr {σ : Type} {S : SwapOps σ} {W : SwapLaws S} {k k' : Kernel σ} {h : Home}
    {st : Stage} (hok : StageOk W k h st) (hload : ∀ i slot pa, st = .load i slot pa →
      h = .swapped i → k'.mem pa = k.mem pa ∧ W.view k'.swap i = W.view k.swap i) :
    StageOk W k' h st := by
  match st with
  | .out | .look | .busy none | .busy (some (_, _)) | .done _ _ => exact hok
  | .load i slot pa =>
    obtain ⟨hhome, hslot, heq⟩ := hok
    obtain ⟨hmem, hview⟩ := hload i slot pa rfl hhome
    exact ⟨hhome, hslot, hmem.trans (heq.trans hview.symm)⟩

/-- The entry for page `x.2` of process `x.1`, if it is a page of user code. -/
def Kernel.users {σ : Type} (k : Kernel σ) (own : ProcIdx → Option PA) (x : ProcIdx × ℕ) :
    Option Pte :=
  if x.2 < vpn trapframeVa then k.pte own x.1 x.2 else none

/-- The contents of every page are at home, and are what its process last stored. -/
structure Kept {σ : Type} {S : SwapOps σ} (W : SwapLaws S) (own : ProcIdx → Option PA)
    (L : ProcIdx → Pc) (k : Kernel σ) (last : ProcIdx × ℕ → Page) (home : ProcIdx × ℕ → Home) :
    Prop where
  value : ∀ x, (home x).content W k = last x
  mapped : ∀ x, k.users own x = (home x).pte
  entry : ∀ i x, (k.tables.swapMap i).Holds x.1 (x.2 * pgSize) ↔ (home x).entry = some i
  flight : ∀ r x l, (L r).flight = some (x, l) ↔ home x = .flying r l
  stage : ∀ x, StageOk W k (home x) ((L x.1).stageAt x.2)
  stale : ∀ x e i, home x = .mapped e (some i) → ((L x.1).stageAt x.2).isDone = true

/-- What holds in every run of page faults: the books balance, with the pages that all processes
have in hand, and so do the swap slots. -/
structure Sane {σ : Type} (P : Multiset PA) (own : ProcIdx → Option PA) (L : ProcIdx → Pc)
    (k : Kernel σ) : Prop where
  books : Books P (k.layout own) (∑ p, (L p).hand)
  slots : SlotsOk k.tables fun p => (L p).hold
  vas : ∀ p, VasIn (fun va => UserVa va ∧ pgSize ∣ va) k.tables (L p).hold.victim
  sizes : ∀ p, (k.procs p).sz ≤ trapframeVa
  sync : ∀ p, own p = (k.procs p).pagetable
  leaf : ∀ p root v e, own p = some root → vpn trapframeVa ≤ v → k.leaves root v = some e →
    e.perm.u = false
  pc : ∀ p, L p = .user ∨ ∃ va f, L p = .fault va f ∧ f.Aimed ∧
    (f = .enter ∨ UserVa (pgRoundDown va))

/-! ## Frames and slots -/

section Apart

variable {σ : Type} {S : SwapOps σ} {W : SwapLaws S} {P : Multiset PA} {own : ProcIdx → Option PA}
  {L : ProcIdx → Pc} {k k' : Kernel σ} {last : ProcIdx × ℕ → Page} {home : ProcIdx × ℕ → Home}
  {p q : ProcIdx} {x y : ProcIdx × ℕ} {pa : PA} {va : ℕ} {f : FaultPc} {e : Pte}

theorem Kernel.users_congr (h : k'.leaves = k.leaves) : k'.users own = k.users own := by
  funext x
  have hpte : k'.pte own x.1 x.2 = k.pte own x.1 x.2 :=
    congrArg (fun l : PA → ℕ → Option Pte => (own x.1).bind fun root => l root x.2) h
  rw [users, users, hpte]

theorem Kernel.users_eq_some (h : k.users own x = some e) :
    x.2 < vpn trapframeVa ∧ ∃ root, own x.1 = some root ∧ k.leaves root x.2 = some e := by
  obtain ⟨hlt, h⟩ := Option.ite_none_right_eq_some.1 h
  exact ⟨hlt, Option.bind_eq_some_iff.1 h⟩

/-- The page of a mapped page has a place in a page table. -/
theorem Kernel.mem_pagesAt_of_users (hx : k.users own x = some e) :
    ∃ v : Fin (vpn trapframeVa), (v : ℕ) = x.2 ∧
      e.pa ∈ (k.layout own).pagesAt (.entry x.1 (.user v)) := by
  obtain ⟨hlt, root, hroot, hleaf⟩ := users_eq_some hx
  refine ⟨⟨x.2, hlt⟩, rfl, ?_⟩
  have hleaf' : (k.pts root).leaf x.2 = some e := hleaf
  simp [Layout.pagesAt, layout, hroot, PageTable.page, hleaf']

namespace Sane

theorem notMem_free_of_mapped (h : Sane P own L k) (hx : k.users own x = some e) :
    e.pa ∉ k.freelist := by
  intro hfree
  obtain ⟨v, -, hmem⟩ := Kernel.mem_pagesAt_of_users hx
  have hrole : Role.free = .entry x.1 (.user v) := h.books.balanced.place_unique
    (Multiset.mem_coe.2 hfree) hmem
  cases hrole

theorem notMem_hand_of_mapped (h : Sane P own L k) (hx : k.users own x = some e) (p : ProcIdx) :
    e.pa ∉ (L p).hand := by
  intro hhand
  obtain ⟨v, -, hmem⟩ := Kernel.mem_pagesAt_of_users hx
  exact h.books.balanced.notMem_of_hand
    (Multiset.mem_sum.2 ⟨p, Finset.mem_univ p, hhand⟩) _ hmem

theorem mapped_inj (h : Sane P own L k) {e' : Pte} (hx : k.users own x = some e)
    (hy : k.users own y = some e') (heq : e.pa = e'.pa) : x = y := by
  obtain ⟨v, hv, hmem⟩ := Kernel.mem_pagesAt_of_users hx
  obtain ⟨w, hw, hmem'⟩ := Kernel.mem_pagesAt_of_users hy
  have hrole : Role.entry x.1 (.user v) = .entry y.1 (.user w) :=
    h.books.balanced.place_unique hmem (heq ▸ hmem')
  obtain ⟨h₁, h₂⟩ := Role.entry.inj hrole
  exact Prod.ext h₁ (by rw [← hv, ← hw, Place.user.inj h₂])

theorem notMem_free_of_hand (h : Sane P own L k) (hpa : pa ∈ (L q).hand) : pa ∉ k.freelist :=
  fun hfree => h.books.balanced.notMem_of_hand
    (Multiset.mem_sum.2 ⟨q, Finset.mem_univ q, hpa⟩) .free (Multiset.mem_coe.2 hfree)

theorem hand_unique (h : Sane P own L k) (hp : pa ∈ (L p).hand) (hq : pa ∈ (L q).hand) : p = q :=
  h.books.balanced.hand_unique hp hq

/-! ### Steps of page faults -/

theorem sum_hand_update (L : ProcIdx → Pc) (p : ProcIdx) (l : Pc) :
    ∑ q, (Function.update L p l q).hand = l.hand + ∑ q ∈ Finset.univ.erase p, (L q).hand := by
  rw [← Finset.add_sum_erase _ _ (Finset.mem_univ p), Function.update_self]
  refine congrArg (l.hand + ·) (Finset.sum_congr rfl fun q hq => ?_)
  rw [Function.update_of_ne (Finset.ne_of_mem_erase hq)]

theorem hold_update (L : ProcIdx → Pc) (p : ProcIdx) (l : Pc) :
    (fun q => (Function.update L p l q).hold) =
      Function.update (fun q => (L q).hold) p l.hold := by
  funext q
  by_cases hq : q = p
  · subst hq
    simp
  · simp [hq]

theorem pc_next (h : Sane P own L k) (W : SwapLaws S)
    (haimed : f.Aimed) (hva : f = .enter ∨ UserVa (pgRoundDown va))
    {next : Next FaultPc (Option PA)} (hk : k.faultNext S p va f = .ok (next, k')) :
    next.pc va = .user ∨ ∃ va' f', next.pc va = .fault va' f' ∧ f'.Aimed ∧
      (f' = .enter ∨ UserVa (pgRoundDown va')) := by
  cases next with
  | ret r => exact .inl rfl
  | go f' =>
    have hcontent : ContentStep W p va k f (.go f') k' :=
      Kernel.faultNext_content haimed.restoring hk
    refine .inr ⟨va, f', rfl, hcontent.aimed haimed, .inr ?_⟩
    rcases hva with rfl | hva
    · exact userVa_pgRoundDown ((Kernel.faultEnter_lt hk).trans_le (h.sizes p))
    · exact hva

theorem pc_of_fault (h : Sane P own L k) (hp : L p = .fault va f) :
    f.Aimed ∧ (f = .enter ∨ UserVa (pgRoundDown va)) := by
  rcases h.pc p with huser | ⟨va', f', hf, hrest⟩
  · cases hp.symm.trans huser
  · obtain ⟨rfl, rfl⟩ := Pc.fault.inj (hp.symm.trans hf)
    exact hrest

theorem fault (h : Sane P own L k) (W : SwapLaws S) (hp : L p = .fault va f)
    (hpt : (k.procs p).pagetable ≠ none) {next : Next FaultPc (Option PA)}
    (hk : k.faultNext S p va f = .ok (next, k')) :
    Sane P own (Function.update L p (next.pc va)) k' := by
  obtain ⟨haimed, hva⟩ := h.pc_of_fault hp
  have hvas := h.vas p
  rw [hp] at hvas
  have hbooks : Books P (k.layout own) (f.hand + ∑ q ∈ Finset.univ.erase p, (L q).hand) := by
    have hsum := Finset.add_sum_erase Finset.univ (fun q => (L q).hand) (Finset.mem_univ p)
    rw [hp] at hsum
    exact hsum ▸ h.books
  have hm := Kernel.faultNext_books hbooks (fun q root hq => (h.sync q).trans hq)
    (fun w hw => (hvas.victim w hw).1) (by rw [haimed.restoring]; exact nofun) hpt hva hk
  have hvas' : VasIn (fun va => UserVa va ∧ pgSize ∣ va) k'.tables
      (next.getD FaultPc.victim none) :=
    Kernel.faultNext_vas hvas ⟨userVa_zero, dvd_zero _⟩
      (hva.imp_right fun hva => ⟨hva, Dvd.intro_left _ rfl⟩) hk
  refine ⟨?_, ?_, fun q => ?_, fun q => (hm.steady.sz q).trans_le (h.sizes q),
    fun q => (h.sync q).trans (hm.steady.pagetable q).symm, fun q root v e hq hv he => ?_,
    fun q => ?_⟩
  · rw [sum_hand_update, Next.pc_hand]
    exact hm.books
  · rw [hold_update, Next.pc_hold]
    have hstep : TableStep p (.fault va f) (L p).hold k.tables (next.getD FaultPc.hold .none)
        k'.tables := by
      rw [hp]
      exact Kernel.faultNext_step hk
    exact h.slots.step hstep nofun nofun
  · by_cases hq : q = p
    · subst hq
      rw [Function.update_self, Next.pc_hold]
      cases next <;> exact hvas'
    · rw [Function.update_of_ne hq]
      exact ⟨hvas'.frame, (h.vas q).victim⟩
  · exact h.leaf q root v e hq hv (hm.steady.leaves root v hv ▸ he)
  · by_cases hq : q = p
    · subst hq
      rw [Function.update_self]
      exact h.pc_next W haimed hva hk
    · rw [Function.update_of_ne hq]
      exact h.pc q

theorem setByte (h : Sane P own L k) (pa : PA) (i : Fin pgSize) (b : Byte) :
    Sane P own L (k.setByte pa i b) :=
  ⟨h.books.congr rfl (fun _ => rfl) rfl, h.slots, h.vas, h.sizes, h.sync, h.leaf, h.pc⟩

theorem enter (h : Sane P own L k) (hp : L p = .user) (va : ℕ) :
    Sane P own (Function.update L p (.fault va .enter)) k := by
  have hrest : ∀ q, (Function.update L p (.fault va .enter) q).hand = (L q).hand ∧
      (Function.update L p (.fault va .enter) q).hold = (L q).hold := by
    intro q
    by_cases hq : q = p
    · subst hq
      rw [Function.update_self, hp]
      exact ⟨rfl, rfl⟩
    · rw [Function.update_of_ne hq]
      exact ⟨rfl, rfl⟩
  refine ⟨?_, ?_, fun q => ?_, h.sizes, h.sync, h.leaf, fun q => ?_⟩
  · simpa only [hrest] using h.books
  · simpa only [hrest] using h.slots
  · rw [(hrest q).2]
    exact h.vas q
  · by_cases hq : q = p
    · subst hq
      rw [Function.update_self]
      exact .inr ⟨va, .enter, rfl, FaultPc.aimed_of_lifted rfl, .inl rfl⟩
    · rw [Function.update_of_ne hq]
      exact h.pc q

end Sane

/-! ## The contents over a step -/

theorem FaultPc.flight_eq_some {l : Loc} (h : f.flight = some (x, l)) :
    ∃ v, f.lifted = some (v, l) ∧ v.proc = some x.1 ∧ vpn v.va = x.2 := by
  obtain ⟨⟨v, l'⟩, hlifted, hv⟩ := Option.bind_eq_some_iff.1 h
  obtain ⟨q, hq, heq⟩ := Option.map_eq_some_iff.1 hv
  obtain ⟨rfl, rfl⟩ := Prod.mk.inj heq
  exact ⟨v, hlifted, hq, rfl⟩

theorem FaultPc.spare_of_lifted {y : Victim × Loc} (h : f.lifted = some y) : f.spare = 0 := by
  match f with
  | .alloc _ (.evict _ _ (.write ..)) | .alloc _ (.evict _ _ (.restore ..)) => rfl
  | .alloc _ (.evict _ _ (.publish ..)) => rfl

theorem FaultPc.mem_hand_of_lifted {v : Victim} (h : f.lifted = some (v, .frame pa)) :
    pa ∈ f.hand := by
  match f with
  | .alloc _ (.evict _ _ (.write _ _ e)) | .alloc _ (.evict _ _ (.restore _ _ e)) =>
    obtain rfl := Loc.frame.inj (Prod.mk.inj (Option.some.inj h)).2
    exact Multiset.mem_singleton_self _

/-- A slot in flight is reserved by the eviction. -/
theorem FaultPc.slot_of_lifted {v : Victim} {s : SlotIdx} (h : f.lifted = some (v, .slot s)) :
    f.hold.slot = some s := by
  match f with
  | .alloc _ (.evict _ _ (.publish ..)) =>
    exact congrArg some (Loc.slot.inj (Prod.mk.inj (Option.some.inj h)).2)

theorem Pc.fault_of_flight {l : Pc} {y : (ProcIdx × ℕ) × Loc} (h : l.flight = some y) :
    ∃ va f, l = .fault va f ∧ f.flight = some y := by
  cases l with
  | fault va f => exact ⟨va, f, rfl, h⟩
  | user | grow | fork | reap => cases h

theorem FaultPc.eq_map_of_load {i : SlotIdx} {slot : Option SlotIdx}
    (h : f.stage = .load i slot pa) : f = .map (some (i, slot)) pa := by
  match f with
  | .map (some (j, s)) pa' =>
    obtain ⟨rfl, rfl, rfl⟩ := Stage.load.inj h
    rfl

theorem Pc.mem_hand_of_load {l : Pc} {w : ℕ} {i : SlotIdx} {slot : Option SlotIdx}
    (h : l.stageAt w = .load i slot pa) : pa ∈ l.hand := by
  cases l with
  | fault va f =>
    simp only [stageAt] at h
    split at h
    · obtain rfl := FaultPc.eq_map_of_load h
      exact Multiset.mem_singleton_self _
    · cases h
  | user | grow | fork | reap => cases h

namespace Kept

theorem home_of_users (h : Kept W own L k last home) (hx : k.users own x = some e) :
    ∃ stale, home x = .mapped e stale :=
  Home.eq_mapped_of_pte ((h.mapped x).symm.trans hx)

/-- A page that is mapped has what its process last stored. -/
theorem mem_of_users (h : Kept W own L k last home) (hx : k.users own x = some e) :
    k.mem e.pa = last x := by
  obtain ⟨stale, hhome⟩ := h.home_of_users hx
  rw [← h.value x, hhome]
  rfl

/-- What a page fault knows of its page. -/
theorem stage_self (h : Kept W own L k last home) (hp : L p = .fault va f) :
    StageOk W k (home (p, vpn va)) f.stage := by
  have hstage := h.stage (p, vpn va)
  rw [hp, Pc.stageAt, if_pos rfl] at hstage
  exact hstage

/-- A frame that has the contents of a page is mapped, or an eviction has it in hand. -/
theorem frame_cases (h : Kept W own L k last home) (hx : (home x).loc = some (.frame pa)) :
    (∃ e, k.users own x = some e ∧ e.pa = pa) ∨
      ∃ r va f v, L r = .fault va f ∧ f.lifted = some (v, .frame pa) ∧ pa ∈ (L r).hand := by
  match hh : home x with
  | .fresh | .swapped _ | .flying _ (.slot _) =>
    rw [hh] at hx
    cases hx
  | .mapped e stale =>
    rw [hh] at hx
    refine .inl ⟨e, ?_, Loc.frame.inj (Option.some.inj hx)⟩
    rw [h.mapped x, hh]
    rfl
  | .flying r (.frame pa') =>
    rw [hh] at hx
    obtain rfl := Loc.frame.inj (Option.some.inj hx)
    obtain ⟨va, f, hr, hflight⟩ := Pc.fault_of_flight ((h.flight r x _).2 hh)
    obtain ⟨v, hlifted, -⟩ := FaultPc.flight_eq_some hflight
    refine .inr ⟨r, va, f, v, hr, hlifted, ?_⟩
    rw [hr]
    exact FaultPc.mem_hand_of_lifted hlifted

/-- No step of a page fault writes to a frame that has the contents of a page. -/
theorem frame_apart (h : Kept W own L k last home) (hs : Sane P own L k) (hp : L p = .fault va f)
    (hx : (home x).loc = some (.frame pa)) : pa ∉ f.spare ∧ pa ∉ k.freelist := by
  have hspare : f.spare ⊆ (L p).hand := by
    rw [hp]
    exact Multiset.subset_of_le f.spare_le_hand
  obtain ⟨e, hmapped, rfl⟩ | ⟨r, va', f', v, hr, hlifted, hhand⟩ := h.frame_cases hx
  · exact ⟨fun hmem => hs.notMem_hand_of_mapped hmapped p (hspare hmem),
      hs.notMem_free_of_mapped hmapped⟩
  · refine ⟨fun hmem => ?_, hs.notMem_free_of_hand hhand⟩
    -- of its own pages an eviction does not write to the one in flight
    obtain rfl := hs.hand_unique hhand (hspare hmem)
    obtain ⟨-, rfl⟩ := Pc.fault.inj (hp.symm.trans hr)
    rw [FaultPc.spare_of_lifted hlifted] at hmem
    exact Multiset.notMem_zero _ hmem

/-- The slot that an eviction is going to write to has the contents of no page. -/
theorem slot_apart (h : Kept W own L k last home) (hs : Sane P own L k) {s t : SlotIdx}
    (hp : (L p).hold.slot = some s) (hflight : ∀ x, (L p).flight ≠ some (x, .slot s))
    (hx : (home x).loc = some (.slot t)) : t ≠ s := by
  rintro rfl
  match hh : home x with
  | .fresh | .mapped .. | .flying _ (.frame _) =>
    rw [hh] at hx
    cases hx
  | .swapped i =>
    rw [hh] at hx
    obtain rfl := Loc.slot.inj (Option.some.inj hx)
    obtain ⟨hused, -⟩ := (h.entry i x).2 (by rw [hh]; rfl)
    exact Bool.noConfusion (hused.symm.trans (hs.slots.slot p i hp).2)
  | .flying r (.slot s) =>
    rw [hh] at hx
    obtain rfl := Loc.slot.inj (Option.some.inj hx)
    have hr := (h.flight r x _).2 hh
    obtain ⟨va', f', hf, hfl⟩ := Pc.fault_of_flight hr
    obtain ⟨v, hlifted, -⟩ := FaultPc.flight_eq_some hfl
    have hslot : (L r).hold.slot = some s := by
      rw [hf]
      exact FaultPc.slot_of_lifted hlifted
    obtain rfl := hs.slots.slot_inj r p s hslot hp
    exact hflight x hr

theorem content_still (h : Kept W own L k last home) (hs : Sane P own L k) (hp : L p = .fault va f)
    (hmem : ∀ z, z ∉ f.spare → z ∉ k.freelist → k'.mem z = k.mem z)
    (hview : ∀ s, (home x).loc = some (.slot s) → W.view k'.swap s = W.view k.swap s) :
    (home x).content W k' = last x := by
  rw [← h.value x]
  refine Home.content_eq (fun pa hpa => ?_) hview
  obtain ⟨hspare, hfree⟩ := h.frame_apart hs hp hpa
  exact hmem pa hspare hfree

/-- What the other processes know of their pages. -/
theorem stage_other (h : Kept W own L k last home) (hs : Sane P own L k) (hp : L p = .fault va f)
    (hmem : ∀ z, z ∉ f.spare → z ∉ k.freelist → k'.mem z = k.mem z)
    (hview : ∀ s, (home x).loc = some (.slot s) → W.view k'.swap s = W.view k.swap s)
    (hx : x.1 ≠ p) : StageOk W k' (home x) ((L x.1).stageAt x.2) := by
  refine (h.stage x).congr fun i slot pa hst hhome => ?_
  have hhand := Pc.mem_hand_of_load hst
  have hspare : pa ∉ f.spare := fun hmem => hx (hs.hand_unique hhand (by
    rw [hp]
    exact Multiset.subset_of_le f.spare_le_hand hmem))
  exact ⟨hmem pa hspare (hs.notMem_free_of_hand hhand), hview i (by rw [hhome]; rfl)⟩

/-- A step of the process `p` after which the page `x₀` has the home `y` and the other pages have
theirs. -/
theorem move (h : Kept W own L k last home) (hs : Sane P own L k) (hp : L p = .fault va f)
    (next : Next FaultPc (Option PA)) (x₀ : ProcIdx × ℕ) (y : Home)
    (hvalue : y.content W k' = last x₀)
    (hmem : ∀ z, z ∉ f.spare → z ∉ k.freelist → k'.mem z = k.mem z)
    (hview : ∀ x ≠ x₀, ∀ s, (home x).loc = some (.slot s) → W.view k'.swap s = W.view k.swap s)
    (hmapped : k'.users own = Function.update (k.users own) x₀ y.pte)
    (hentry : ∀ i x, (k'.tables.swapMap i).Holds x.1 (x.2 * pgSize) ↔
      (Function.update home x₀ y x).entry = some i)
    (hflight : ∀ x l, f.flight = some (x, l) → x = x₀)
    (hnext : ∀ x l, next.getD FaultPc.flight none = some (x, l) ↔ x = x₀ ∧ y = .flying p l)
    (hflying : ∀ r l, r ≠ p → (home x₀ = .flying r l ↔ y = .flying r l))
    (hstage : (p, vpn va) ≠ x₀ →
      StageOk W k' (home (p, vpn va)) (next.getD FaultPc.stage .out))
    (hstage₀ : StageOk W k' y ((Function.update L p (next.pc va) x₀.1).stageAt x₀.2))
    (hdone : f.stage.isDone = true → (p, vpn va) = x₀)
    (hstale : ∀ e i, y = .mapped e (some i) →
      ((Function.update L p (next.pc va) x₀.1).stageAt x₀.2).isDone = true) :
    Kept W own (Function.update L p (next.pc va)) k' last (Function.update home x₀ y) := by
  refine ⟨fun x => ?_, fun x => ?_, hentry, fun r x l => ?_, fun x => ?_, fun x e i hx => ?_⟩
  · by_cases hx : x = x₀
    · subst hx
      rwa [Function.update_self]
    · rw [Function.update_of_ne hx]
      exact h.content_still hs hp hmem (hview x hx)
  · rw [hmapped]
    by_cases hx : x = x₀
    · subst hx
      rw [Function.update_self, Function.update_self]
    · rw [Function.update_of_ne hx, Function.update_of_ne hx, h.mapped x]
  · by_cases hr : r = p
    · subst hr
      rw [Function.update_self, Next.pc_flight, hnext]
      by_cases hx : x = x₀
      · subst hx
        simp
      · rw [Function.update_of_ne hx, ← h.flight r x l, hp]
        exact iff_of_false (fun hand => hx hand.1) fun hfl => hx (hflight x l hfl)
    · rw [Function.update_of_ne hr, h.flight r x l]
      by_cases hx : x = x₀
      · subst hx
        rw [Function.update_self]
        exact hflying r l hr
      · rw [Function.update_of_ne hx]
  · by_cases hx : x = x₀
    · subst hx
      rwa [Function.update_self]
    · rw [Function.update_of_ne hx]
      by_cases hxp : x.1 = p
      · rw [hxp, Function.update_self, Next.pc_stageAt]
        split
        · rename_i hva
          obtain rfl : x = (p, vpn va) := Prod.ext hxp hva.symm
          exact hstage hx
        · trivial
      · rw [Function.update_of_ne hxp]
        exact h.stage_other hs hp hmem (hview x hx) hxp
  · by_cases hxx : x = x₀
    · subst hxx
      rw [Function.update_self] at hx
      exact hstale e i hx
    · rw [Function.update_of_ne hxx] at hx
      have hold := h.stale x e i hx
      by_cases hxp : x.1 = p
      · -- only the page of the page fault can be stale
        rw [hxp, hp, Pc.stageAt] at hold
        split at hold
        · rename_i hva
          exact absurd (Prod.ext hxp hva.symm |>.trans (hdone hold)) hxx
        · cases hold
      · rwa [Function.update_of_ne hxp]

/-- A step after which every page has the home that it had. -/
theorem quiet (h : Kept W own L k last home) (hs : Sane P own L k) (hp : L p = .fault va f)
    (next : Next FaultPc (Option PA)) (hstill : Still W f.spare k k') (hflight : f.flight = none)
    (hnext : next.getD FaultPc.flight none = none) (hdone : f.stage.isDone = false)
    (hstage : StageOk W k' (home (p, vpn va)) (next.getD FaultPc.stage .out)) :
    Kept W own (Function.update L p (next.pc va)) k' last home := by
  have hview : ∀ x s, (home x).loc = some (.slot s) → W.view k'.swap s = W.view k.swap s :=
    fun _ _ _ => by rw [hstill.view]
  have hnotFlying : ∀ l, home (p, vpn va) ≠ .flying p l := by
    intro l hl
    have hfl := (h.flight p _ l).2 hl
    rw [hp] at hfl
    cases hflight.symm.trans hfl
  have hnotStale : ∀ e i, home (p, vpn va) ≠ .mapped e (some i) := by
    intro e i he
    have hold : f.stage.isDone = true := by
      simpa [hp, Pc.stageAt] using h.stale _ e i he
    exact Bool.noConfusion (hold.symm.trans hdone)
  have hkept := h.move hs hp next (p, vpn va) (home (p, vpn va))
    (h.content_still hs hp hstill.mem (hview _)) hstill.mem (fun x _ => hview x)
    (by rw [← h.mapped, Function.update_eq_self, Kernel.users_congr hstill.leaves])
    (by rw [Function.update_eq_self, hstill.swapMap]; exact h.entry)
    (by simp [hflight]) (by simp [hnext, hnotFlying]) (fun _ _ _ => Iff.rfl)
    (fun hne => absurd rfl hne) (by simpa [Next.pc_stageAt] using hstage) (by simp [hdone])
    (fun e i he => absurd he (hnotStale e i))
  rwa [Function.update_eq_self] at hkept

/-! ### Flights -/

theorem stageAt_update (hp : L p = .fault va f) (next : Next FaultPc (Option PA))
    (hstage : next.getD FaultPc.stage .out = f.stage) (q : ProcIdx) (w : ℕ) :
    (Function.update L p (next.pc va) q).stageAt w = (L q).stageAt w := by
  by_cases hq : q = p
  · subst hq
    rw [Function.update_self, Next.pc_stageAt, hstage, hp]
    rfl
  · rw [Function.update_of_ne hq]

theorem entry_update (h : Kept W own L k last home) {x₀ : ProcIdx × ℕ} {y : Home}
    (hentry : y.entry = (home x₀).entry) (hswap : k'.tables.swapMap = k.tables.swapMap)
    (i : SlotIdx) (x : ProcIdx × ℕ) : (k'.tables.swapMap i).Holds x.1 (x.2 * pgSize) ↔
      (Function.update home x₀ y x).entry = some i := by
  rw [hswap, h.entry]
  by_cases hx : x = x₀
  · subst hx
    rw [Function.update_self, hentry]
  · rw [Function.update_of_ne hx]

/-- A step inside `kalloc_user`, after which the page `x₀` has the home `y`, not mapped. -/
theorem lift (h : Kept W own L k last home) (hs : Sane P own L k) {found : Found} {a : AllocPc}
    (hp : L p = .fault va (.alloc found a)) {a' : AllocPc} {x₀ : ProcIdx × ℕ} {y : Home}
    (hvalue : y.content W k' = last x₀) (hmem : k'.mem = k.mem)
    (hview : ∀ x ≠ x₀, ∀ s, (home x).loc = some (.slot s) → W.view k'.swap s = W.view k.swap s)
    (hmapped : k'.users own = Function.update (k.users own) x₀ none) (hpte : y.pte = none)
    (hentry : ∀ i x, (k'.tables.swapMap i).Holds x.1 (x.2 * pgSize) ↔
      (Function.update home x₀ y x).entry = some i)
    (hflight : ∀ x l, (FaultPc.alloc found a).flight = some (x, l) → x = x₀)
    (hnext : ∀ x l, (FaultPc.alloc found a').flight = some (x, l) ↔ x = x₀ ∧ y = .flying p l)
    (hflying : ∀ r l, r ≠ p → home x₀ ≠ .flying r l ∧ y ≠ .flying r l)
    (hstage₀ : (L x₀.1).stageAt x₀.2 = .out ∨ (L x₀.1).stageAt x₀.2 = .look) :
    Kept W own (Function.update L p (.fault va (.alloc found a'))) k' last
      (Function.update home x₀ y) := by
  have hself : (L p).stageAt (vpn va) = .busy found := by
    rw [hp]
    exact if_pos rfl
  have hstages := stageAt_update hp (.go (.alloc found a')) rfl
  refine h.move hs hp (.go (.alloc found a')) x₀ y hvalue (fun z _ _ => by rw [hmem]) hview
    (hpte ▸ hmapped) hentry hflight hnext
    (fun r l hr => iff_of_false (hflying r l hr).1 (hflying r l hr).2) (fun _ => ?_) ?_ nofun
    fun e i he => ?_
  · have hbusy := h.stage (p, vpn va)
    rw [hself] at hbusy
    cases found with
    | none => exact hbusy
    | some x => exact hbusy
  · rw [hstages]
    rcases hstage₀ with hst | hst
    · rw [hst]
      trivial
    · rw [hst]
      exact hpte
  · rw [he] at hpte
    cases hpte

end Kept

/-- In a well-formed table every entry is reached by `walk`. -/
theorem Kernel.pteAt_eq_leaves {root : PA} (hwf : TableWf (k.pts root)) (va : ℕ) :
    k.pteAt root va = k.leaves root (vpn va) := by
  unfold pteAt
  split
  · rfl
  · rename_i hnot
    by_contra hne
    have hleaf : ((k.pts root).leaf (vpn va)).isSome := Option.isSome_iff_ne_none.2 (Ne.symm hne)
    have hlow := hwf.leaf_low _ hleaf
    rw [← lowIdx_eq] at hlow
    have hmid := hwf.low_mid _ hlow
    rw [← midIdx_eq] at hmid
    exact hnot ⟨hmid, hlow⟩

/-- A change of the entry of a page of user code. -/
theorem Sane.users_setLeaf (hs : Sane P own L k) {root : PA} (hroot : own q = some root)
    (hv : UserVa va) (e : Option Pte) : (k.setLeaf root va e).users own =
      Function.update (k.users own) (q, vpn va) e := by
  have hpte : ∀ x, (k.setLeaf root va e).pte own x.1 x.2 =
      if x = (q, vpn va) then e else k.pte own x.1 x.2 := by
    intro x
    have hleaves : ∀ r v, (k.setLeaf root va e).leaves r v =
        if r = root ∧ v = vpn va then e else k.leaves r v := Kernel.leaves_setLeaf_apply va e
    match hx : own x.1 with
    | none =>
      have hne : x ≠ (q, vpn va) := by
        rintro rfl
        cases hroot.symm.trans hx
      simp [Kernel.pte, hx, hne]
    | some r =>
      have hiff : (r = root ∧ x.2 = vpn va) ↔ x = (q, vpn va) := by
        constructor
        · rintro ⟨rfl, hv⟩
          exact Prod.ext (hs.books.root_inj hx hroot) hv
        · rintro rfl
          exact ⟨Option.some.inj (hx.symm.trans hroot), rfl⟩
      have hl := hleaves r x.2
      simp only [hiff] at hl
      simp only [Kernel.pte, hx, Option.bind_some]
      exact hl
  funext x
  rw [Kernel.users, hpte]
  by_cases hx : x = (q, vpn va)
  · rw [if_pos hx, hx, Function.update_self]
    exact if_pos hv
  · rw [if_neg hx, Function.update_of_ne hx]
    rfl

theorem Kernel.users_of_leaf {root : PA} (hroot : own q = some root) (hv : UserVa va)
    (hleaf : k.leaves root (vpn va) = some e) : k.users own (q, vpn va) = some e := by
  have hpte : k.pte own q (vpn va) = some e := by
    rw [pte, hroot]
    exact hleaf
  rw [users, hpte]
  exact if_pos hv

theorem FaultPc.flight_alloc {found : Found} {a : AllocPc} {v : Victim} {l : Loc}
    (hl : (FaultPc.alloc found a).lifted = some (v, l)) (hv : v.proc = some q) :
    (FaultPc.alloc found a).flight = some ((q, vpn v.va), l) := by
  rw [flight, hl]
  simp [hv]

theorem FaultPc.flight_iff {l₀ l : Loc} (hf : f.flight = some (y, l₀)) :
    f.flight = some (x, l) ↔ x = y ∧ Home.flying p l₀ = .flying p l := by
  rw [hf]
  constructor
  · intro heq
    obtain ⟨rfl, rfl⟩ := Prod.mk.inj (Option.some.inj heq)
    exact ⟨rfl, rfl⟩
  · rintro ⟨rfl, heq⟩
    obtain ⟨-, rfl⟩ := Home.flying.inj heq
    rfl

namespace Kept

theorem mapped_of_users (h : Kept W own L k last home) (hx : k.users own x = some e)
    (hdone : ((L x.1).stageAt x.2).isDone = false) : home x = .mapped e none := by
  obtain ⟨stale, hhome⟩ := h.home_of_users hx
  cases stale with
  | none => exact hhome
  | some i => exact Bool.noConfusion (hdone.symm.trans (h.stale x e i hhome))

/-- An eviction takes a page out of the page table. -/
theorem take (h : Kept W own L k last home) (hs : Sane P own L k) {found : Found} {n m : ℕ}
    {again : Bool} {v : Victim} {root : PA}
    (hp : L p = .fault va (.alloc found (.evict n again (.update m v)))) (hv : v.proc = some q)
    (hroot : (k.procs q).pagetable = some root) (hleaf : k.leaves root (vpn v.va) = some e)
    (hdone : ((L q).stageAt (vpn v.va)).isDone = false) :
    ∃ home', Kept W own
      (Function.update L p (.fault va (.alloc found (.evict n again (.write v root e)))))
      (k.setLeaf root v.va none) last home' := by
  have hva : UserVa v.va := ((hs.vas p).victim v (by rw [hp]; rfl)).1
  have hown : own q = some root := (hs.sync q).trans hroot
  have hhome : home (q, vpn v.va) = .mapped e none :=
    h.mapped_of_users (Kernel.users_of_leaf hown hva hleaf) hdone
  have hstage := h.stage (q, vpn v.va)
  refine ⟨_, h.lift (y := .flying p (.frame e.pa)) hs hp ?_ rfl (fun _ _ _ _ => rfl)
    (hs.users_setLeaf hown hva none) rfl (h.entry_update (by rw [hhome]; rfl) rfl) nofun
    (fun x l => FaultPc.flight_iff (FaultPc.flight_alloc rfl hv)) (fun r l hr => ?_) ?_⟩
  · rw [← h.value, hhome]
    rfl
  · rw [hhome]
    exact ⟨nofun, fun heq => hr (Home.flying.inj heq).1.symm⟩
  · -- a process that is busy with the page has found it unmapped
    rw [hhome] at hstage
    match hst : (L q).stageAt (vpn v.va) with
    | .out => exact .inl rfl
    | .look | .busy none =>
      rw [hst] at hstage
      cases hstage
    | .busy (some (i, slot)) | .load i slot pa =>
      rw [hst] at hstage
      cases hstage.1
    | .done _ _ =>
      rw [hst] at hdone
      cases hdone

/-- The page fault of the owner of a page in flight has not got further than finding it unmapped. -/
theorem stage_of_flying (h : Kept W own L k last home) {r : ProcIdx} {l : Loc}
    (hx : home x = .flying r l) :
    (L x.1).stageAt x.2 = .out ∨ (L x.1).stageAt x.2 = .look := by
  have hstage := h.stage x
  rw [hx] at hstage
  match hst : (L x.1).stageAt x.2 with
  | .out => exact .inl rfl
  | .look => exact .inr rfl
  | .busy none =>
    rw [hst] at hstage
    cases hstage
  | .busy (some (i, slot)) | .load i slot pa =>
    rw [hst] at hstage
    cases hstage.1
  | .done _ _ =>
    rw [hst] at hstage
    obtain ⟨e, he, -⟩ := hstage
    cases he

/-- The page table has no entry for a page in flight. -/
theorem users_of_flying (h : Kept W own L k last home) {r : ProcIdx} {l : Loc}
    (hx : home x = .flying r l) : k.users own = Function.update (k.users own) x none := by
  have hnone : k.users own x = none := by
    rw [h.mapped, hx]
    rfl
  rw [← hnone, Function.update_eq_self]

/-- The page in flight is written to its slot. -/
theorem write (h : Kept W own L k last home) (hs : Sane P own L k) {found : Found} {n : ℕ}
    {again : Bool} {v : Victim} {root : PA}
    (hp : L p = .fault va (.alloc found (.evict n again (.write v root e))))
    (hv : v.proc = some q) :
    ∃ home', Kept W own
      (Function.update L p (.fault va (.alloc found (.evict n again (.publish v e.pa)))))
      { k with swap := (S.write v.slot (k.mem e.pa) k.swap).2 } last home' := by
  have hflight : (L p).flight = some ((q, vpn v.va), .frame e.pa) := by
    rw [hp]
    exact FaultPc.flight_alloc rfl hv
  have hhome := (h.flight p _ _).1 hflight
  refine ⟨_, h.lift (y := .flying p (.slot v.slot)) hs hp ?_ rfl (fun x _ t ht => ?_)
    (h.users_of_flying hhome) rfl (h.entry_update (by rw [hhome]; rfl) rfl) (fun x l hl => ?_)
    (fun x l => FaultPc.flight_iff (FaultPc.flight_alloc rfl hv)) (fun r l hr => ?_)
    (h.stage_of_flying hhome)⟩
  · rw [← h.value, hhome]
    exact W.view_write_self ..
  · have hslot : (L p).hold.slot = some v.slot := by
      rw [hp]
      rfl
    refine W.view_write_of_ne _ _ _ _ (h.slot_apart hs hslot (fun y hy => ?_) ht)
    cases (Prod.mk.inj (Option.some.inj (hflight.symm.trans hy))).2
  · rw [hp] at hflight
    exact (Prod.mk.inj (Option.some.inj (hflight.symm.trans hl))).1.symm
  · rw [hhome]
    exact ⟨fun heq => hr (Home.flying.inj heq).1.symm, fun heq => hr (Home.flying.inj heq).1.symm⟩

/-- An entry of the swap map is for one page. -/
theorem holds_inj {t : SwapEntry} (hx : t.Holds x.1 (x.2 * pgSize))
    (hy : t.Holds y.1 (y.2 * pgSize)) : x = y :=
  Prod.ext (Option.some.inj (hx.2.1.symm.trans hy.2.1))
    (Nat.eq_of_mul_eq_mul_right (by decide) (hx.2.2.symm.trans hy.2.2))

/-- The page in flight is entered into the swap map. -/
theorem publish (h : Kept W own L k last home) (hs : Sane P own L k) {found : Found} {n : ℕ}
    {again : Bool} {v : Victim}
    (hp : L p = .fault va (.alloc found (.evict n again (.publish v pa))))
    (hv : v.proc = some q) :
    ∃ home', Kept W own
      (Function.update L p (.fault va (.alloc found (.evict n again (.free v pa)))))
      { k with tables := k.tables.evictPublish v } last home' := by
  have hflight : (L p).flight = some ((q, vpn v.va), .slot v.slot) := by
    rw [hp]
    exact FaultPc.flight_alloc rfl hv
  have hhome := (h.flight p _ _).1 hflight
  have hslot : (L p).hold.slot = some v.slot := by
    rw [hp]
    rfl
  have hnew : SwapEntry.Holds ⟨true, v.proc, v.va, some v.slot⟩ q (vpn v.va * pgSize) :=
    ⟨rfl, hv, (Nat.div_mul_cancel ((hs.vas p).victim v (by rw [hp]; rfl)).2).symm⟩
  refine ⟨_, h.lift (y := .swapped v.slot) hs hp ?_ rfl (fun _ _ _ _ => rfl)
    (h.users_of_flying hhome) rfl (fun i x => ?_) (fun x l hl => ?_) (fun x l => ?_)
    (fun r l hr => ?_) (h.stage_of_flying hhome)⟩
  · rw [← h.value, hhome]
    rfl
  · have hmap : (k.tables.evictPublish v).swapMap =
        Function.update k.tables.swapMap v.slot ⟨true, v.proc, v.va, some v.slot⟩ := rfl
    have hunused : ¬ (k.tables.swapMap v.slot).Holds x.1 (x.2 * pgSize) := fun hold =>
      Bool.noConfusion (hold.1.symm.trans (hs.slots.slot p v.slot hslot).2)
    rw [hmap]
    by_cases hx : x = (q, vpn v.va)
    · subst hx
      rw [Function.update_self]
      by_cases hi : i = v.slot
      · subst hi
        rw [Function.update_self]
        exact iff_of_true hnew rfl
      · rw [Function.update_of_ne hi, h.entry, hhome]
        exact iff_of_false nofun fun heq => hi (Option.some.inj heq).symm
    · rw [Function.update_of_ne hx]
      by_cases hi : i = v.slot
      · subst hi
        rw [Function.update_self, ← h.entry]
        exact iff_of_false (fun hold => hx (holds_inj hold hnew)) hunused
      · rw [Function.update_of_ne hi, h.entry]
  · rw [hp] at hflight
    exact (Prod.mk.inj (Option.some.inj (hflight.symm.trans hl))).1.symm
  · exact iff_of_false nofun fun hand => nomatch hand.2
  · rw [hhome]
    exact ⟨fun heq => hr (Home.flying.inj heq).1.symm, nofun⟩

/-! ### The page of the page fault -/

/-- `vmfault` maps its page. -/
theorem map (h : Kept W own L k last home) (hs : Sane P own L k) {found : Found} {root : PA}
    (hp : L p = .fault va (.map found pa)) (hroot : (k.procs p).pagetable = some root)
    (hleaves : k'.leaves = (k.setLeaf root (pgRoundDown va) (some ⟨pa, .userRw⟩)).leaves)
    (hswap : k'.tables.swapMap = k.tables.swapMap) (hview : k'.swap = k.swap)
    (hmem : ∀ z, z ∉ (FaultPc.map found pa).spare → z ∉ k.freelist → k'.mem z = k.mem z)
    (hclear : found = none → pa ∉ k.freelist → k'.mem pa = fun _ => 0) :
    ∃ home', Kept W own (Function.update L p (.fault va (.finish found pa))) k' last home' := by
  have hva : UserVa (pgRoundDown va) := (hs.pc_of_fault hp).2.resolve_left nofun
  have hvpn : vpn (pgRoundDown va) = vpn va := Kernel.vpn_mul (va / pgSize)
  have hfree : pa ∉ k.freelist := hs.notMem_free_of_hand (q := p) (by
    rw [hp]
    exact Multiset.mem_singleton_self pa)
  -- what the page fault knows of its page
  have hhome : (home (p, vpn va)).entry = found.map Prod.fst ∧
      (∀ r l, home (p, vpn va) ≠ .flying r l) ∧
      k'.mem pa = (home (p, vpn va)).content W k := by
    have hstage := h.stage_self hp
    match found with
    | none =>
      have hfresh : home (p, vpn va) = .fresh := hstage
      rw [hfresh]
      exact ⟨rfl, nofun, hclear rfl hfree⟩
    | some (i, slot) =>
      obtain ⟨hswapped, -, heq⟩ := hstage
      rw [hswapped]
      exact ⟨rfl, nofun, (hmem pa (Multiset.notMem_zero pa) hfree).trans heq⟩
  obtain ⟨hentry, hflying, hvalue⟩ := hhome
  have hstage : (Function.update L p (.fault va (.finish found pa)) p).stageAt (vpn va) =
      .done found pa := by
    rw [Function.update_self]
    exact if_pos rfl
  refine ⟨_, h.move hs hp (.go (.finish found pa)) (p, vpn va)
    (.mapped ⟨pa, .userRw⟩ (found.map Prod.fst)) ?_ hmem
    (fun _ _ _ _ => by rw [hview]) ?_ (h.entry_update hentry.symm hswap) nofun
    (fun x l => iff_of_false nofun fun hand => nomatch hand.2)
    (fun r l _ => iff_of_false (hflying r l) nofun) (fun hne => absurd rfl hne) ?_
    (fun _ => rfl) (fun e i _ => ?_)⟩
  · rw [← h.value]
    exact hvalue
  · rw [Kernel.users_congr hleaves, hs.users_setLeaf ((hs.sync p).trans hroot) hva, hvpn]
    rfl
  · exact hstage ▸ ⟨⟨pa, .userRw⟩, rfl, rfl⟩
  · exact (congrArg Stage.isDone hstage).trans rfl

/-- The swap map after the end of `vmfault`. -/
theorem faultFinish_swapMap_none (k : Kernel σ) (p : ProcIdx) (va : ℕ) :
    (k.faultFinish p va none).tables.swapMap = k.tables.swapMap :=
  (Tables.sameEntries_setRefBit k.tables p va).swapMap

theorem faultFinish_swapMap_some (k : Kernel σ) (p : ProcIdx) (va : ℕ) (i : SlotIdx)
    (slot : Option SlotIdx) : (k.faultFinish p va (some (i, slot))).tables.swapMap =
      Function.update k.tables.swapMap i .clear := by
  have hsame := (Tables.sameEntries_setRefBit k.tables p va).swapMap
  cases slot <;> exact congrArg (Function.update · i SwapEntry.clear) hsame

theorem faultFinish_still (k : Kernel σ) (p : ProcIdx) (va : ℕ) (found : Found) :
    (k.faultFinish p va found).leaves = k.leaves ∧ (k.faultFinish p va found).mem = k.mem ∧
      (k.faultFinish p va found).swap = k.swap := by
  match found with
  | none | some (_, _) => exact ⟨rfl, rfl, rfl⟩

/-- The end of `vmfault`. -/
theorem finish (h : Kept W own L k last home) (hs : Sane P own L k) {found : Found}
    (hp : L p = .fault va (.finish found pa)) :
    ∃ home', Kept W own (Function.update L p .user)
      (k.faultFinish p (pgRoundDown va) found) last home' := by
  obtain ⟨hleaves, hmem, hview⟩ := faultFinish_still k p (pgRoundDown va) found
  obtain ⟨e, hhome, -⟩ := h.stage_self hp
  have hpte : k.users own (p, vpn va) = some e := by
    rw [h.mapped, hhome]
    rfl
  refine ⟨_, h.move hs hp (.ret (some pa)) (p, vpn va) (.mapped e none) ?_
    (fun _ _ _ => by rw [hmem]) (fun _ _ _ _ => by rw [hview]) ?_ (fun j x => ?_) nofun
    (fun x l => iff_of_false nofun fun hand => nomatch hand.2)
    (fun r l _ => by rw [hhome]; exact iff_of_false nofun nofun) (fun hne => absurd rfl hne)
    (by rw [Function.update_self]; trivial) (fun _ => rfl) nofun⟩
  · rw [← h.value, hhome]
    exact congrFun hmem e.pa
  · rw [Kernel.users_congr hleaves, Home.pte, ← hpte, Function.update_eq_self]
  · match found with
    | none => exact h.entry_update (by rw [hhome]; rfl) (faultFinish_swapMap_none k p _) j x
    | some (i, slot) =>
      rw [faultFinish_swapMap_some]
      have hi : (k.tables.swapMap i).Holds p (vpn va * pgSize) :=
        (h.entry i (p, vpn va)).2 (by rw [hhome]; rfl)
      by_cases hj : j = i
      · subst hj
        rw [Function.update_self]
        refine iff_of_false (fun hold => nomatch hold.1) fun hentry => ?_
        by_cases hx : x = (p, vpn va)
        · rw [hx, Function.update_self] at hentry
          cases hentry
        · rw [Function.update_of_ne hx, ← h.entry] at hentry
          exact hx (holds_inj hentry hi)
      · rw [Function.update_of_ne hj, h.entry]
        by_cases hx : x = (p, vpn va)
        · rw [hx, Function.update_self, hhome]
          exact iff_of_false (fun heq => hj (Option.some.inj heq).symm) nofun
        · rw [Function.update_of_ne hx]

/-! ### All steps -/

/-- `vmfault` has found its page unmapped. -/
theorem look (h : Kept W own L k last home) (hs : Sane P own L k) {root : PA}
    (hp : L p = .fault va .enter) (hstill : Still W 0 k k')
    (hroot : (k.procs p).pagetable = some root) (hnone : k.pteAt root (pgRoundDown va) = none) :
    Kept W own (Function.update L p (.fault va .lookup)) k' last home := by
  refine h.quiet hs hp (.go .lookup) hstill rfl rfl rfl ?_
  change (home (p, vpn va)).pte = none
  have hown : own p = some root := (hs.sync p).trans hroot
  have hleaf : k.leaves root (vpn va) = none := by
    have hleaves := Kernel.pteAt_eq_leaves (hs.books.wf_pts hown) (pgRoundDown va)
    rw [hnone, pgRoundDown, Kernel.vpn_mul] at hleaves
    exact hleaves.symm
  have hpte : k.pte own p (vpn va) = none := by
    rw [Kernel.pte, hown]
    exact hleaf
  rw [← h.mapped, Kernel.users, hpte]
  exact ite_self _

/-- `vmfault` searches the swap map for its page, which is not in flight. -/
theorem find (h : Kept W own L k last home) (hs : Sane P own L k) (hp : L p = .fault va .lookup)
    (hlook : ∀ r l, (L r).flight ≠ some ((p, vpn va), l)) :
    Kept W own (Function.update L p (.fault va
      (.alloc ((k.tables.findSwap p (pgRoundDown va)).map fun i =>
        (i, (k.tables.swapMap i).swapSlot)) (.need 1)))) k last home := by
  have hpte : (home (p, vpn va)).pte = none := h.stage_self hp
  have hentry : ∀ i, (home (p, vpn va)).entry = some i → home (p, vpn va) = .swapped i := by
    intro i hi
    match hh : home (p, vpn va) with
    | .fresh | .flying .. =>
      rw [hh] at hi
      cases hi
    | .mapped .. =>
      rw [hh] at hpte
      cases hpte
    | .swapped j =>
      rw [hh] at hi
      rw [Option.some.inj hi]
  refine h.quiet hs hp (.go (.alloc _ (.need 1)))
    (Kernel.still_of_eq rfl rfl rfl rfl) rfl rfl rfl ?_
  match hfind : k.tables.findSwap p (pgRoundDown va) with
  | some i =>
    have hold := Tables.findSwap_eq_some hfind
    exact ⟨hentry i ((h.entry i (p, vpn va)).1 hold), (hs.slots.own i hold.1).1⟩
  | none =>
    change home (p, vpn va) = .fresh
    match hh : home (p, vpn va) with
    | .fresh => rfl
    | .mapped .. =>
      rw [hh] at hpte
      cases hpte
    | .swapped i =>
      have hold := (h.entry i (p, vpn va)).2 (by rw [hh]; rfl)
      exact absurd hold (Tables.findSwap_eq_none hfind i)
    | .flying r l => exact absurd ((h.flight r _ l).2 hh) (hlook r l)

/-- `vmfault` has read its page from the swap disk. -/
theorem read (h : Kept W own L k last home) (hs : Sane P own L k) {i s : SlotIdx}
    (hp : L p = .fault va (.read i (some s) pa)) (hstill : Still W {pa} k k')
    (hmem : k'.mem pa = W.view k.swap s) :
    Kept W own (Function.update L p (.fault va (.map (some (i, some s)) pa))) k' last home := by
  obtain ⟨hhome, hslot⟩ := h.stage_self hp
  refine h.quiet hs hp (.go (.map (some (i, some s)) pa)) hstill rfl rfl rfl
    ⟨hhome, hslot, ?_⟩
  rw [hmem, hstill.view, Option.some.inj hslot]

/-- What `vmfault` knows of its page over a step that leaves it alone. -/
theorem stage_still (h : Kept W own L k last home) (hs : Sane P own L k) (hp : L p = .fault va f)
    (hstill : Still W f.spare k k') : StageOk W k' (home (p, vpn va)) f.stage := by
  refine (h.stage_self hp).congr fun i slot pa hst _ => ⟨?_, by rw [hstill.view]⟩
  obtain rfl := FaultPc.eq_map_of_load hst
  have hfree : pa ∉ k.freelist := hs.notMem_free_of_hand (q := p) (by
    rw [hp]
    exact Multiset.mem_singleton_self pa)
  exact hstill.mem pa (Multiset.notMem_zero pa) hfree

/-- **The contents of pages over a step of a page fault.** -/
theorem fault (h : Kept W own L k last home) (hs : Sane P own L k) (hp : L p = .fault va f)
    (hlook : ∀ w, (L p).looks = some w → ∀ r l, (L r).flight ≠ some ((p, w), l))
    (hclear : ∀ q w, (L p).clears = some (q, w) → ((L q).stageAt w).isDone = false)
    {next : Next FaultPc (Option PA)} (hk : k.faultNext S p va f = .ok (next, k')) :
    ∃ home', Kept W own (Function.update L p (next.pc va)) k' last home' := by
  obtain ⟨haimed, -⟩ := hs.pc_of_fault hp
  rw [hp] at hlook hclear
  cases Kernel.faultNext_content (W := W) haimed.restoring hk with
  | still hstill hlifted hdone hstage =>
    refine ⟨home, h.quiet hs hp next hstill ?_ ?_ hdone ?_⟩
    · rw [FaultPc.flight, hlifted.1]
      rfl
    · cases next with
      | ret r => rfl
      | go f' =>
        have hnone : f'.lifted = none := hlifted.2
        rw [Next.getD, FaultPc.flight, hnone]
        rfl
    · rcases hstage with hst | hst
      · rw [hst]
        exact h.stage_still hs hp hstill
      · rw [hst]
        trivial
  | look hstill hroot hnone => exact ⟨home, h.look hs hp hstill hroot hnone⟩
  | find => exact ⟨home, h.find hs hp (hlook _ rfl)⟩
  | take hv hroot hleaf => exact h.take hs hp hv hroot hleaf (hclear _ _ (by simp [Pc.clears, hv]))
  | write =>
    obtain ⟨q, hq⟩ := haimed.proc _ _ rfl
    exact h.write hs hp hq
  | publish =>
    obtain ⟨q, hq⟩ := haimed.proc _ _ rfl
    exact h.publish hs hp hq
  | read hstill hmem => exact ⟨home, h.read hs hp hstill hmem⟩
  | map hroot hleaves hswap hview hmem hclear =>
    exact h.map hs hp hroot hleaves hswap hview hmem hclear
  | finish => exact h.finish hs hp

/-! ## Steps in user mode -/

/-- A store to a mapped page. -/
theorem store (h : Kept W own L k last home) (hs : Sane P own L k) (hx : k.users own x = some e)
    (i : Fin pgSize) (b : Byte) :
    Kept W own L (k.setByte e.pa i b)
      (Function.update last x (Function.update (last x) i b)) home := by
  have hmem : ∀ z, z ≠ e.pa → (k.setByte e.pa i b).mem z = k.mem z := fun z hz =>
    Function.update_of_ne hz _ _
  have hhand : ∀ q z, z ∈ (L q).hand → z ≠ e.pa := by
    rintro q _ hz rfl
    exact hs.notMem_hand_of_mapped hx q hz
  refine ⟨fun y => ?_, h.mapped, h.entry, h.flight, fun y => ?_, h.stale⟩
  · by_cases hy : y = x
    · subst hy
      obtain ⟨stale, hhome⟩ := h.home_of_users hx
      rw [Function.update_self, ← h.mem_of_users hx, hhome]
      exact Function.update_self ..
    · rw [Function.update_of_ne hy, ← h.value y]
      refine Home.content_eq (fun z hz => hmem z ?_) fun _ _ => rfl
      obtain ⟨e', hy', rfl⟩ | ⟨r, va, f, v, -, -, hz⟩ := h.frame_cases hz
      · exact fun heq => hy (hs.mapped_inj hy' hx heq)
      · exact hhand r z hz
  · exact (h.stage y).congr fun j slot pa hst _ =>
      ⟨hmem pa (hhand _ _ (Pc.mem_hand_of_load hst)), rfl⟩

/-- A page fault begins. -/
theorem enter (h : Kept W own L k last home) (hp : L p = .user) (va : ℕ) :
    Kept W own (Function.update L p (.fault va .enter)) k last home := by
  have hflight : ∀ r, (Function.update L p (.fault va .enter) r).flight = (L r).flight := by
    intro r
    by_cases hr : r = p
    · subst hr
      rw [Function.update_self, hp]
      rfl
    · rw [Function.update_of_ne hr]
  have hstage : ∀ q w, (Function.update L p (.fault va .enter) q).stageAt w = (L q).stageAt w := by
    intro q w
    by_cases hq : q = p
    · subst hq
      rw [Function.update_self, hp]
      exact ite_self _
    · rw [Function.update_of_ne hq]
  refine ⟨h.value, h.mapped, h.entry, fun r x l => ?_, fun x => ?_, fun x e i hx => ?_⟩
  · rw [hflight]
    exact h.flight r x l
  · rw [hstage]
    exact h.stage x
  · rw [hstage]
    exact h.stale x e i hx

end Kept

end Apart

end Xv6Swap.Paging
