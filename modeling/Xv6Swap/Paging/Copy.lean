import Xv6Swap.Paging.Create
import Xv6Swap.Paging.Invisible

/-!
# `fork` copies the address space

The loop of `uvmcopy` adds pages to the child and changes nothing else (`Forking`); the pages it has
passed are the parent's, in memory or in swap (`Copying`). The two searches of the loop for a free
slot and for a free entry of the swap map find the same number, so that an entry of the child has
the slot of its own number like all others.

`uvmcopy_copies`: if `uvmcopy` succeeds, the child's pages are the parent's, all other processes
have theirs, and the two sides share no frame and no slot.
-/

namespace Xv6Swap.Paging.Kernel

open Raid (Page pgSize)
open Tables

variable {σ : Type} {S : SwapOps σ} {L : SwapLaws S} {k₀ k k' : Kernel σ} {g g' : Ghost}
  {p q : ProcIdx} {old new pa : PA} {N i : ℕ}

/-! ## The invariant -/

/-- A state inside `uvmcopy` for the child `q` with the page table `new`, compared to the state `k₀`
of the call: only the child has got pages, below `N`. -/
structure Forking (L : SwapLaws S) (k₀ : Kernel σ) (q : ProcIdx) (new : PA) (N : ℕ)
    (k : Kernel σ) (g : Ghost) : Prop where
  inv : Inv k g
  pend : g.pend = none
  own : g.own = k₀.roots
  child : k₀.roots q = some new
  size : g.size new = some N
  size_other : ∀ r ≠ q, ∀ root, k₀.roots r = some root →
    g.size root = some (npages (k₀.procs r).sz)
  core : ∀ r, (k.procs r).core = (k₀.procs r).core
  pte : ∀ r ≠ q, ∀ w, k.pte k₀.roots r w = k₀.pte k₀.roots r w
  frameTable : k.tables.frameTable = k₀.tables.frameTable
  count : k.tables.userFrameCount = k₀.tables.userFrameCount
  noFrame : ∀ i va, (k.tables.frameTable i).entry ≠ (true, true, some q, va)
  swap_old : ∀ s, (k₀.tables.swapMap s).used = true → k.tables.swapMap s = k₀.tables.swapMap s
  swap_new : ∀ s, (k₀.tables.swapMap s).used = false →
    k.tables.swapMap s = k₀.tables.swapMap s ∨
    ∃ w < N, k.tables.swapMap s = ⟨true, some q, w * pgSize, some s⟩
  logical : ∀ r ≠ q, ∀ w < vpn trapframeVa,
    k.logical L k₀.roots r w = k₀.logical L k₀.roots r w

/-- The pages below `i` have been copied. -/
structure Copying (L : SwapLaws S) (k₀ : Kernel σ) (p q : ProcIdx) (new : PA) (N i : ℕ)
    (k : Kernel σ) (g : Ghost) : Prop extends Forking L k₀ q new N k g where
  copied : ∀ w < i, k.logical L k₀.roots q w = k₀.logical L k₀.roots p w ∧
    (k.pte k₀.roots q w).map Pte.perm = (k₀.pte k₀.roots p w).map Pte.perm
  fresh : ∀ w, i ≤ w → w < vpn trapframeVa → Fresh k g q w

theorem Forking.np (h : Forking L k₀ q new N k g) : g.np q = N :=
  Ghost.np_of_own (h.own ▸ h.child) h.size

theorem Forking.bound (h : Forking L k₀ q new N k g) : N ≤ vpn trapframeVa :=
  (h.inv.pt new N h.size).bound

/-- A step that changes no mapping and no entry. -/
theorem Forking.step (h : Forking L k₀ q new N k g) (hu : Unseen L k g k' g')
    (hleaf : ∀ r, (k'.pts r).leaf = (k.pts r).leaf) (htab : k'.tables = k.tables) :
    Forking L k₀ q new N k' g' where
  inv := hu.inv
  pend := hu.pend
  own := hu.own.trans h.own
  child := h.child
  size := hu.size ▸ h.size
  size_other := hu.size ▸ h.size_other
  core r := (hu.core r).trans (h.core r)
  pte r hr w := by
    rw [← h.pte r hr w]
    simp [Kernel.pte, hleaf]
  frameTable := htab ▸ h.frameTable
  count := htab ▸ h.count
  noFrame := htab ▸ h.noFrame
  swap_old := htab ▸ h.swap_old
  swap_new := htab ▸ h.swap_new
  logical r hr w hw := by
    have := hu.logical r w hw
    rw [h.own] at this
    exact this.trans (h.logical r hr w hw)

theorem Copying.step (h : Copying L k₀ p q new N i k g) (hi : i < N) (hu : Unseen L k g k' g')
    (hleaf : ∀ r, (k'.pts r).leaf = (k.pts r).leaf) (htab : k'.tables = k.tables) :
    Copying L k₀ p q new N i k' g' := by
  have hpte : ∀ own r w, k'.pte own r w = k.pte own r w := fun own r w => by
    simp [Kernel.pte, hleaf]
  refine ⟨h.toForking.step hu hleaf htab, fun w hw => ?_, fun w hiw hw => ⟨?_, ?_⟩⟩
  · have hlog := hu.logical q w (hw.trans (hi.trans_le h.bound))
    rw [h.own] at hlog
    rw [hlog, hpte]
    exact h.copied w hw
  · rw [hu.own, hpte]
    exact (h.fresh w hiw hw).1
  · rw [htab]
    exact (h.fresh w hiw hw).2

/-- A page that is held by the kernel is freed. -/
theorem kfree_unseen (L : SwapLaws S) (h : Inv k g) (hpend : g.pend = none)
    (hheld : g.use pa = .held) :
    ∃ k', k.kfree pa = .ok k' ∧ Unseen L k g k' (g.setUse pa .free) ∧ k'.pts = k.pts ∧
      k'.tables = k.tables := by
  obtain ⟨k', heq, hinv, hq, hpts, htab, -⟩ := kfree_spec (L := L) h hheld
  exact ⟨k', heq, ⟨hinv, hpend, rfl, rfl, hq.core, hq.logical⟩, hpts, htab⟩

/-! ## The three kinds of pages -/

/-- The contents of a page of the parent. -/
theorem Forking.parent_mem (h : Forking L k₀ q new N k g) (hpq : p ≠ q) {w : ℕ}
    (hw : w < vpn trapframeVa) {e : Pte} (he : k₀.pte k₀.roots p w = some e) :
    k.mem e.pa = k₀.logical L k₀.roots p w := by
  rw [← h.logical p hpq w hw, Kernel.logical, h.pte p hpq w, he]

/-- The copy of a resident page is mapped. -/
theorem Copying.map (h : Copying L k₀ p q new N i k g) (hi : i < N)
    (hheld : g.use pa = .held) (hlow : ((k.pts new).low (i / 512)).isSome) {e : Pte}
    (he : k₀.pte k₀.roots p i = some e) (hmem : k.mem pa = k₀.logical L k₀.roots p i) :
    Copying L k₀ p q new N (i + 1) (k.setLeaf new (i * pgSize) (some ⟨pa, e.perm⟩))
      (g.setUse pa (.user new i)) := by
  have hown : g.own q = some new := h.own ▸ h.child
  have hit : i < vpn trapframeVa := hi.trans_le h.bound
  have hfresh := h.fresh i le_rfl hit
  have hinv := h.inv.map_fresh h.pend hown (h.np ▸ hi) hheld hlow hfresh e.perm
  have hother : ∀ r w, (r, w) ≠ (q, i) →
      (k.setLeaf new (i * pgSize) (some ⟨pa, e.perm⟩)).pte k₀.roots r w =
        k.pte k₀.roots r w := fun r w hrw => by
    have := h.inv.pte_setLeaf_other (e := some ⟨pa, e.perm⟩) hown hrw
    rwa [h.own] at this
  have hself : (k.setLeaf new (i * pgSize) (some ⟨pa, e.perm⟩)).pte k₀.roots q i =
      some ⟨pa, e.perm⟩ := by
    have := Inv.pte_setLeaf_self (k := k) (v := i) (e := some ⟨pa, e.perm⟩) hown
    rwa [h.own] at this
  have hlog : ∀ r w, (r, w) ≠ (q, i) →
      (k.setLeaf new (i * pgSize) (some ⟨pa, e.perm⟩)).logical L k₀.roots r w =
        k.logical L k₀.roots r w := fun r w hrw =>
    logical_congr (hother r w hrw) (fun _ _ => rfl) fun _ => rfl
  have hneq : ∀ {r w}, r ≠ q → (r, w) ≠ (q, i) := fun hr e => hr (Prod.mk.inj e).1
  have hnei : ∀ {w}, w ≠ i → (q, w) ≠ (q, i) := fun hw e => hw (Prod.mk.inj e).2
  refine
    { h with
      inv := hinv
      pte := fun r hr w => (hother r w (hneq hr)).trans (h.pte r hr w)
      logical := fun r hr w hw => (hlog r w (hneq hr)).trans (h.logical r hr w hw)
      copied := fun w hw => ?_
      fresh := fun w hiw hw => ⟨?_, (h.fresh w (by omega) hw).2⟩ }
  · by_cases hwi : w = i
    · subst hwi
      rw [Kernel.logical, hself, he]
      exact ⟨hmem, rfl⟩
    · rw [hlog q w (hnei hwi), hother q w (hnei hwi)]
      exact h.copied w (by omega)
  · have := hother q w (hnei (by omega))
    rw [← h.own] at this
    exact this.trans (h.fresh w (by omega) hw).1

theorem copyMapped_spec (h : Copying L k₀ p q new N i k g) (hpq : p ≠ q) (hi : i < N) {e : Pte}
    (he : k₀.pte k₀.roots p i = some e) :
    ∃ b k' g', k.copyMapped new i e = .ok (b, k') ∧
      Copying L k₀ p q new N (if b then i + 1 else i) k' g' := by
  have hit : i < vpn trapframeVa := hi.trans_le h.bound
  unfold copyMapped
  cases hk : k.kalloc with
  | mk r k₁ =>
    cases r with
    | none =>
      obtain rfl := kalloc_none hk
      exact ⟨false, k₁, g, rfl, h⟩
    | some pa =>
      obtain ⟨l, hf, rfl⟩ := kalloc_some hk
      obtain ⟨hfree, hinv₁, hq₁⟩ := h.inv.take_fill (L := L) hf 5
      have h₁ := h.step hi (hq₁.unseen hinv₁ h.pend) (fun _ => rfl) rfl
      have hmem₁ := h₁.parent_mem hpq hit he
      generalize hk₁ : ({ k with freelist := l } : Kernel σ).fill pa 5 = k₁ at *
      obtain ⟨hinv₂, hq₂⟩ := hq₁.write hinv₁ (by simp [hfree]) (g.setUse_use_self pa .held)
        (k₁.mem e.pa) rfl
      have h₂ := h.step hi (hq₂.unseen hinv₂ h.pend) (fun _ => by rw [← hk₁]; rfl)
        (by rw [← hk₁]; rfl)
      have hleaf := (h₂.fresh i le_rfl hit).1
      rw [pte_of_own (h₂.own ▸ h.child)] at hleaf
      obtain ⟨k₃, g₃, hinv₃, hq₃, hpend₃, htab₃, hleaf₃, hres⟩ :=
        mappages_spec (L := L) hinv₂ h₂.size hi hleaf pa e.perm
      obtain ⟨hheld₃, hmem₃⟩ := hq₃.held pa (g.setUse_use_self pa .held)
      have h₃ := h₂.step hi (hq₃.unseen hinv₃ (hpend₃.trans h.pend)) hleaf₃ htab₃
      dsimp only
      rcases hres with heq | ⟨hlow, heq⟩
      · obtain ⟨k₄, heq₄, hu₄, hpts₄, htab₄⟩ := kfree_unseen L hinv₃ h₃.pend hheld₃
        refine ⟨false, k₄, _, ?_, h₃.step hi hu₄ (fun _ => by rw [hpts₄]) htab₄⟩
        rw [heq]
        simp only [ok_bind, if_true, heq₄]
        rfl
      · refine ⟨true, _, _, ?_, h₃.map hi hheld₃ hlow he ?_⟩
        · rw [heq]
          rfl
        · rw [hmem₃, ← hmem₁]
          simp

/-- The copy of a page in swap is recorded. -/
theorem Copying.addSwap (h : Copying L k₀ p q new N i k g) (hi : i < N) (dst : SlotIdx)
    (hfree : (k.tables.swapMap dst).used = false) (hparent : k₀.pte k₀.roots p i = none)
    {t : Tables} (hframe : t.frameTable = k.tables.frameTable)
    (hcount : t.userFrameCount = k.tables.userFrameCount)
    (hmap : t.swapMap = Function.update k.tables.swapMap dst ⟨true, some q, i * pgSize, some dst⟩)
    (hused : t.swapUsed = Function.update k.tables.swapUsed dst true) {x : Page}
    (hx : x = k₀.logical L k₀.roots p i) :
    Copying L k₀ p q new N (i + 1) { k with tables := t, swap := (S.write dst x k.swap).2 } g := by
  have hown : g.own q = some new := h.own ▸ h.child
  have hit : i < vpn trapframeVa := hi.trans_le h.bound
  have hfresh := h.fresh i le_rfl hit
  have ht := h.inv.tables.addSwap hfree (h.np ▸ hi) hfresh.1 hfresh.2 hframe hcount hmap hused
  have hinv : Inv { k with tables := t, swap := (S.write dst x k.swap).2 } g :=
    (h.inv.set_tables t g.pend ht).congr rfl rfl rfl (fun _ => rfl) (.refl _)
  have hholds : ∀ s r w, (r, w) ≠ (q, i) →
      ((t.swapMap s).Holds r (w * pgSize) ↔ (k.tables.swapMap s).Holds r (w * pgSize)) := by
    intro s r w hrw
    rw [hmap]
    by_cases hs : s = dst
    · subst hs
      rw [Function.update_self]
      constructor
      · rintro ⟨-, hr, hw⟩
        exact absurd (Prod.ext (Option.some.inj hr).symm
          (Nat.eq_of_mul_eq_mul_right pgSize_pos hw).symm) hrw
      · rintro ⟨hused', -⟩
        simp [hfree] at hused'
    · rw [Function.update_of_ne hs]
  have hlog : ∀ r w, (r, w) ≠ (q, i) →
      ({ k with tables := t, swap := (S.write dst x k.swap).2 } : Kernel σ).logical L k₀.roots r w =
        k.logical L k₀.roots r w := fun r w hrw => by
    refine logical_congr rfl (fun _ _ => rfl) fun _ =>
      h.inv.swapPage_congr hinv (fun s => hholds s r w hrw) fun s hs => ?_
    refine L.view_write_of_ne _ _ _ _ ?_
    rintro rfl
    have hused' := hs.1
    simp [hfree] at hused'
  have hself : ({ k with tables := t, swap := (S.write dst x k.swap).2 } : Kernel σ).logical L
      k₀.roots q i = x := by
    have hslot : (t.swapMap dst).Holds q (i * pgSize) := by
      rw [hmap, Function.update_self]
      exact ⟨rfl, rfl, rfl⟩
    have hnone : ({ k with tables := t, swap := (S.write dst x k.swap).2 } : Kernel σ).pte
        k₀.roots q i = none := by
      rw [← h.own]
      exact hfresh.1
    have hpage := hinv.swapPage_eq (L := L) hslot
    rw [Kernel.logical, hnone]
    simp only [hpage, Option.getD_some, L.view_write_self]
  have hneq : ∀ {r w}, r ≠ q → (r, w) ≠ (q, i) := fun hr e => hr (Prod.mk.inj e).1
  have hnei : ∀ {w}, w ≠ i → (q, w) ≠ (q, i) := fun hw e => hw (Prod.mk.inj e).2
  refine
    { h with
      inv := hinv
      frameTable := hframe.trans h.frameTable
      count := hcount.trans h.count
      noFrame := fun j va => by
        have := h.noFrame j va
        rwa [← hframe] at this
      swap_old := fun s hs => ?_
      swap_new := fun s hs => ?_
      logical := fun r hr w hw => (hlog r w (hneq hr)).trans (h.logical r hr w hw)
      copied := fun w hw => ?_
      fresh := fun w hiw hw => ⟨(h.fresh w (by omega) hw).1, fun s hs => ?_⟩ }
  · have hold := h.swap_old s hs
    have hne : s ≠ dst := by
      rintro rfl
      rw [hold, hs] at hfree
      cases hfree
    exact ((congrFun hmap s).trans (Function.update_of_ne hne _ _)).trans hold
  · by_cases hsd : s = dst
    · subst hsd
      exact .inr ⟨i, hi, (congrFun hmap s).trans (Function.update_self ..)⟩
    · have hsame : t.swapMap s = k.tables.swapMap s :=
        (congrFun hmap s).trans (Function.update_of_ne hsd _ _)
      rcases h.swap_new s hs with he | ⟨w, hw, he⟩
      · exact .inl (hsame.trans he)
      · exact .inr ⟨w, hw, hsame.trans he⟩
  · by_cases hwi : w = i
    · subst hwi
      have hnone : k.pte k₀.roots q w = none := h.own ▸ hfresh.1
      refine ⟨hself.trans hx, ?_⟩
      rw [hparent]
      exact congrArg (Option.map Pte.perm) hnone
    · rw [hlog q w (hnei hwi)]
      exact h.copied w (by omega)
  · exact (h.fresh w (by omega) hw).2 s ((hholds s q w (hnei (by omega))).1 hs)

/-- The search for an unused entry finds the number of the slot that was reserved. -/
theorem insertSwap_reserveSlot {np : ProcIdx → ℕ} {pte : ProcIdx → ℕ → Option Pte}
    {pend : Option (ProcIdx × ℕ)} {t t' : Tables} {dst : SlotIdx} (h : TablesOk t np pte pend)
    (hres : t.reserveSlot = some (dst, t')) (q : ProcIdx) (va : ℕ) :
    t'.insertSwap q va dst = (true, t'.setSwap dst ⟨true, some q, va, some dst⟩) := by
  have hfind : Fin.find? (fun s => !t.swapUsed s) = some dst := by
    simp only [reserveSlot, Option.map_eq_some_iff, Prod.mk.injEq] at hres
    obtain ⟨s, hs, rfl, -⟩ := hres
    exact hs
  obtain ⟨-, rfl⟩ := reserveSlot_eq_some hres
  have hsame : (fun s => !((t.setSwapUsed dst true).swapMap s).used) = fun s => !t.swapUsed s := by
    funext s
    rw [h.used_iff]
    rfl
  unfold insertSwap
  rw [hsame, hfind]

theorem kfree_with (hk : k.kfree pa = .ok k') (t : Tables) (dev : σ) :
    ({ k with tables := t, swap := dev } : Kernel σ).kfree pa =
      .ok { k' with tables := t, swap := dev } := by
  unfold kfree at hk ⊢
  split at hk
  · cases hk
  · rename_i hc
    obtain rfl := Except.ok.inj hk
    exact if_neg hc

/-- The temporary page goes to a slot, or there is none. -/
theorem copyToSlot_spec (h : Copying L k₀ p q new N i k g) (hi : i < N)
    (hparent : k₀.pte k₀.roots p i = none) {tmp : PA} (hheld : g.use tmp = .held)
    (hpage : k.mem tmp = k₀.logical L k₀.roots p i) :
    ∃ b k' g', k.copyToSlot S q i tmp = .ok (b, k') ∧
      Copying L k₀ p q new N (if b then i + 1 else i) k' g' := by
  obtain ⟨k₁, heq₁, hu₁, hpts₁, htab₁⟩ := kfree_unseen L h.inv h.pend hheld
  have hswap₁ : k₁.swap = k.swap := by
    rw [kfree_eq_ok heq₁]
    rfl
  have h₁ := h.step hi hu₁ (fun _ => by rw [hpts₁]) htab₁
  unfold copyToSlot
  cases hres : k.tables.reserveSlot with
  | none =>
    refine ⟨false, k₁, _, ?_, h₁⟩
    simp only [heq₁, ok_bind]
    rfl
  | some r =>
    obtain ⟨dst, t⟩ := r
    have hw : ¬ (S.write dst (k.mem tmp) k.swap).1 < 0 := not_lt.2 (L.write_ok _ _ _)
    obtain ⟨hunused, ht⟩ := reserveSlot_eq_some hres
    have hins := insertSwap_reserveSlot h.inv.tables hres q (i * pgSize)
    have hkfree := kfree_with heq₁ t (S.write dst (k.mem tmp) k.swap).2
    dsimp only
    rw [if_neg hw, hkfree, ok_bind]
    dsimp only
    rw [hins]
    have hadd := h₁.addSwap (t := t.setSwap dst ⟨true, some q, i * pgSize, some dst⟩) hi
      dst (by rw [htab₁, ← h.inv.tables.used_iff, hunused]) hparent
      (by rw [ht, htab₁]; rfl) (by rw [ht, htab₁]; rfl) (by rw [ht, htab₁]; rfl)
      (by rw [ht, htab₁]; rfl) hpage
    rw [hswap₁] at hadd
    exact ⟨true, _, _, rfl, hadd⟩

theorem copySwapped_spec (h : Copying L k₀ p q new N i k g) (hpq : p ≠ q) (hi : i < N)
    (hparent : k₀.pte k₀.roots p i = none) {src : SlotIdx}
    (hsrc : (k.tables.swapMap src).Holds p (i * pgSize)) :
    ∃ b k' g', k.copySwapped S q i src = .ok (b, k') ∧
      Copying L k₀ p q new N (if b then i + 1 else i) k' g' := by
  have hit : i < vpn trapframeVa := hi.trans_le h.bound
  unfold copySwapped
  cases hk : k.kalloc with
  | mk r k₁ =>
    cases r with
    | none =>
      obtain rfl := kalloc_none hk
      exact ⟨false, k₁, g, rfl, h⟩
    | some tmp =>
      obtain ⟨l, hf, rfl⟩ := kalloc_some hk
      obtain ⟨hfree, hinv₁, hq₁⟩ := h.inv.take_fill (L := L) hf 5
      obtain ⟨k₂, heq₂, hinv₂, hq₂, hmem₂⟩ := readSwap_spec hq₁ hinv₁ (by simp [hfree])
        (g.setUse_use_self tmp .held) src
      have hk₂ := (Prod.mk.inj ((readSwap_eq L _ src tmp).symm.trans heq₂)).2
      have htab₂ : k₂.tables = k.tables := by rw [← hk₂]; rfl
      have h₂ := h.step hi (hq₂.unseen hinv₂ h.pend) (fun _ => by rw [← hk₂]; rfl) htab₂
      -- the temporary page holds the parent's page
      have hpage : k₂.mem tmp = k₀.logical L k₀.roots p i := by
        have hpte : k₂.pte k₀.roots p i = none := (h₂.pte p hpq i).trans hparent
        have hswap := hinv₂.swapPage_eq (L := L) (htab₂ ▸ hsrc : (k₂.tables.swapMap src).Holds p _)
        rw [← h₂.logical p hpq i hit, Kernel.logical, hpte]
        simp only [hswap, Option.getD_some, hmem₂]
      obtain ⟨b, k', g', heq, h'⟩ :=
        copyToSlot_spec h₂ hi hparent (g.setUse_use_self tmp .held) hpage
      refine ⟨b, k', g', ?_, h'⟩
      dsimp only
      rw [heq₂]
      simp only [Bool.true_eq_false, if_false]
      exact heq

/-- A page that was never touched is skipped. -/
theorem Copying.skip (h : Copying L k₀ p q new N i k g) (hpq : p ≠ q) (hi : i < N)
    (hparent : k₀.pte k₀.roots p i = none)
    (hno : ∀ s, ¬ (k.tables.swapMap s).Holds p (i * pgSize)) :
    Copying L k₀ p q new N (i + 1) k g := by
  have hit : i < vpn trapframeVa := hi.trans_le h.bound
  have hfresh := h.fresh i le_rfl hit
  have hzero : k₀.logical L k₀.roots p i = 0 := by
    rw [← h.logical p hpq i hit, Kernel.logical, h.pte p hpq i, hparent]
    have hswap : k.swapPage L p i = none := swapPage_none hno
    simp only [hswap, Option.getD_none]
  refine { h with copied := fun w hw => ?_, fresh := fun w hiw hw => h.fresh w (by omega) hw }
  by_cases hwi : w = i
  · subst hwi
    rw [hzero, hparent, ← h.own, hfresh.logical_eq, hfresh.1]
    exact ⟨rfl, rfl⟩
  · exact h.copied w (by omega)

/-! ## What the loop leaves alone -/

theorem copyMapped_confined {e : Pte} {b : Bool} (hi : i < vpn trapframeVa)
    (h : k.copyMapped new i e = .ok (b, k')) : Confined new k k' := by
  unfold copyMapped at h
  split at h
  · rename_i k₁ hk
    obtain ⟨-, rfl⟩ := Prod.mk.inj (Except.ok.inj h)
    rw [kalloc_none hk]
    exact .refl new k
  · rename_i mem k₁ hk
    obtain ⟨⟨ok, k₂⟩, hmap, h⟩ := bind_eq_ok.1 h
    obtain ⟨k₃, hw, hres⟩ := mappages_walked hmap
    have hacc₃ : ∀ R, new ∈ R → k₃.accounted R = k₁.accounted R := fun R hR =>
      (hw.accounted R hR).trans (accounted_congr rfl (fun _ => rfl) fun _ _ => rfl)
    rcases hres with ⟨rfl, rfl⟩ | ⟨rfl, hnone, rfl⟩
    · obtain ⟨k₄, hfree, h⟩ := bind_eq_ok.1 h
      obtain ⟨-, rfl⟩ := Prod.mk.inj (Except.ok.inj h)
      have hacc := kfree_accounted hfree
      obtain rfl := kfree_eq_ok hfree
      exact kalloc_confined hk hw.procs hw.other fun R hR => by
        rw [hacc, hacc₃ R hR]
    · obtain ⟨-, rfl⟩ := Prod.mk.inj (Except.ok.inj h)
      rw [vpn_mul] at hnone
      refine kalloc_confined hk hw.procs (fun r hr => ?_) fun R hR => ?_
      · rw [← hw.other r hr]
        simp [setLeaf, setPt, hr]
      · rw [setLeaf_accounted hR hi hnone, hacc₃ R hR]

/-- The temporary page is given back in any case. -/
theorem copyToSlot_accounted {tmp : PA} {b : Bool} (h : k.copyToSlot S q i tmp = .ok (b, k')) :
    k'.procs = k.procs ∧ k'.pts = k.pts ∧ ∀ R, k'.accounted R = insert tmp (k.accounted R) := by
  have hfreed : ∀ {k₁ k₂ : Kernel σ}, k₁.kfree tmp = .ok k₂ → k₁.freelist = k.freelist →
      k₁.procs = k.procs → k₁.pts = k.pts →
      k₂.procs = k.procs ∧ k₂.pts = k.pts ∧ ∀ R, k₂.accounted R = insert tmp (k.accounted R) := by
    intro k₁ k₂ hk hfree hprocs hpts
    have hacc := kfree_accounted hk
    obtain rfl := kfree_eq_ok hk
    refine ⟨hprocs, hpts, fun R => (hacc R).trans ?_⟩
    rw [accounted_congr hfree (fun _ => by rw [hprocs]) fun _ _ => by rw [hpts]]
  unfold copyToSlot at h
  split at h
  · obtain ⟨k₁, hk, h⟩ := bind_eq_ok.1 h
    obtain ⟨-, rfl⟩ := Prod.mk.inj (Except.ok.inj h)
    exact hfreed hk rfl rfl rfl
  · dsimp only at h
    split at h
    · obtain ⟨k₁, hk, h⟩ := bind_eq_ok.1 h
      obtain ⟨-, rfl⟩ := Prod.mk.inj (Except.ok.inj h)
      exact hfreed hk rfl rfl rfl
    · obtain ⟨k₁, hk, h⟩ := bind_eq_ok.1 h
      obtain ⟨hprocs, hpts, hacc⟩ := hfreed hk rfl rfl rfl
      generalize k₁.tables.insertSwap q (i * pgSize) _ = r at h
      obtain ⟨-, rfl⟩ := Prod.mk.inj (Except.ok.inj h)
      refine ⟨hprocs, hpts, fun R => (accounted_congr rfl (fun _ => rfl) fun _ _ => rfl).trans
        (hacc R)⟩

theorem copySwapped_confined {src : SlotIdx} {b : Bool}
    (h : k.copySwapped S q i src = .ok (b, k')) : Confined new k k' := by
  unfold copySwapped at h
  split at h
  · rename_i k₁ hk
    obtain ⟨-, rfl⟩ := Prod.mk.inj (Except.ok.inj h)
    rw [kalloc_none hk]
    exact .refl new k
  · rename_i tmp k₁ hk
    have hread : ∀ R, (k₁.readSwap S (some src) tmp).2.accounted R = k₁.accounted R := fun R =>
      accounted_congr rfl (fun _ => rfl) fun _ _ => rfl
    have hprocs : (k₁.readSwap S (some src) tmp).2.procs = k₁.procs := rfl
    have hpts : (k₁.readSwap S (some src) tmp).2.pts = k₁.pts := rfl
    dsimp only at h
    generalize k₁.readSwap S (some src) tmp = r at h hread hprocs hpts
    split at h
    · obtain ⟨k₂, hfree, h⟩ := bind_eq_ok.1 h
      obtain ⟨-, rfl⟩ := Prod.mk.inj (Except.ok.inj h)
      have hacc := kfree_accounted hfree
      obtain rfl := kfree_eq_ok hfree
      refine kalloc_confined hk hprocs (fun r _ => ?_) fun R _ => ?_
      · exact congrFun hpts r
      · rw [hacc, hread]
    · obtain ⟨hprocs', hpts', hacc⟩ := copyToSlot_accounted h
      refine kalloc_confined hk (hprocs'.trans hprocs) (fun r _ => ?_) fun R _ => ?_
      · rw [hpts', hpts]
      · rw [hacc, hread]

theorem uvmcopyPage_confined {b : Bool} (hi : i < vpn trapframeVa)
    (h : k.uvmcopyPage S p q old new i = .ok (b, k')) : Confined new k k' := by
  unfold uvmcopyPage at h
  split at h
  · cases h
  split at h
  · exact copyMapped_confined hi h
  · split at h
    · exact copySwapped_confined h
    · obtain ⟨-, rfl⟩ := Prod.mk.inj (Except.ok.inj h)
      exact .refl new k

/-! ## The loop -/

theorem uvmcopyPage_spec (h : Copying L k₀ p q new N i k g) (hpq : p ≠ q)
    (hold : k₀.roots p = some old) (hi : i < N) :
    ∃ b k' g', k.uvmcopyPage S p q old new i = .ok (b, k') ∧
      Copying L k₀ p q new N (if b then i + 1 else i) k' g' := by
  have hit : i < vpn trapframeVa := hi.trans_le h.bound
  have hat := h.inv.pteAt_eq (h.size_other p hpq old hold) i
  rw [← pte_of_own hold, h.pte p hpq i] at hat
  unfold uvmcopyPage
  rw [if_neg (mul_pgSize_lt_maxVa hit), hat]
  cases he : k₀.pte k₀.roots p i with
  | some e => exact copyMapped_spec h hpq hi he
  | none =>
    dsimp only
    cases hf : k.tables.findSwap p (i * pgSize) with
    | none => exact ⟨true, k, g, rfl, h.skip hpq hi he (findSwap_eq_none hf)⟩
    | some s =>
      have hs := findSwap_eq_some hf
      rw [Option.bind_some, h.inv.tables.swapMap_eq hs]
      exact copySwapped_spec h hpq hi he hs

/-- The loop of `uvmcopy` copies all pages, or fails at some page and unmaps those before it. -/
theorem uvmcopyLoop_spec (n : ℕ) (h : Copying L k₀ p q new N i k g) (hpq : p ≠ q)
    (hold : k₀.roots p = some old) (hn : i + n = N) :
    (∃ k' g', k.uvmcopyLoop S p q old new n i = .ok (true, k') ∧
      Copying L k₀ p q new N N k' g' ∧ Confined new k k') ∨
    ∃ j k₁ g₁, j < N ∧ Copying L k₀ p q new N j k₁ g₁ ∧ Confined new k k₁ ∧
      k.uvmcopyLoop S p q old new n i =
        k₁.uvmunmap p new 0 j true >>= fun k' => .ok (false, k') := by
  induction n generalizing i k g with
  | zero =>
    obtain rfl : i = N := hn
    exact .inl ⟨k, g, rfl, h, .refl new k⟩
  | succ n ih =>
    obtain ⟨ok, k₁, g₁, heq₁, h₁⟩ := uvmcopyPage_spec h hpq hold (by omega)
    have hconf := uvmcopyPage_confined ((show i < N by omega).trans_le h.bound) heq₁
    simp only [uvmcopyLoop, heq₁, ok_bind]
    cases ok with
    | false => exact .inr ⟨i, k₁, g₁, by omega, h₁, hconf, rfl⟩
    | true =>
      obtain ⟨k', g', heq, h', hconf'⟩ | ⟨j, k₂, g₂, hj, h₂, hconf₂, heq⟩ :=
        ih (i := i + 1) h₁ (by omega)
      · exact .inl ⟨k', g', heq, h', hconf.trans hconf'⟩
      · exact .inr ⟨j, k₂, g₂, hj, h₂, hconf.trans hconf₂, heq⟩

/-- The start of `uvmcopy` for a child without memory. -/
theorem Inv.copying (h : Inv k g) (hs : Synced k g) (hnew : k.roots q = some new)
    (hq : (k.procs q).sz = 0) (hN : N ≤ vpn trapframeVa) :
    Copying L k p q new N 0 k { g with size := Function.update g.size new (some N) } := by
  have ho : g.own q = some new := (hs.own q).trans hnew
  have hn : g.size new = some 0 := by
    rw [hs.size q new hnew, hq]
    rfl
  have hnp : g.np q = 0 := Ghost.np_of_own ho hn
  have hinv := h.resize hs.pend ho hn N hN fun w _ hw => absurd hw (Nat.not_lt_zero w)
  refine
    { inv := hinv
      pend := hs.pend
      own := hs.roots_eq.symm
      child := hnew
      size := Function.update_self ..
      size_other := fun r hr root hroot => ?_
      core := fun _ => rfl
      pte := fun _ _ _ => rfl
      frameTable := rfl
      count := rfl
      noFrame := fun j va hj => ?_
      swap_old := fun _ _ => rfl
      swap_new := fun _ _ => .inl rfl
      logical := fun _ _ _ _ => rfl
      copied := fun w hw => absurd hw (Nat.not_lt_zero w)
      fresh := fun w _ hw => h.fresh_of_le (by omega) hw }
  · have hne : root ≠ new := by
      rintro rfl
      exact hr (h.own_inj r q root ((hs.own r).trans hroot) ho)
    exact (Function.update_of_ne hne _ _).trans (hs.size r root hroot)
  · obtain ⟨r, w, hentry, hw, -⟩ := h.tables.frame_ok j (congrArg (·.1) hj)
    rw [hj] at hentry
    simp only [Prod.mk.injEq, Option.some.injEq, true_and] at hentry
    rw [← hentry.1, hnp] at hw
    exact absurd hw (Nat.not_lt_zero w)

/-! ## The theorem -/

/-- A change of a frame or a slot of `p` does not show in the pages of `q`. -/
structure Apart (L : SwapLaws S) (k : Kernel σ) (p q : ProcIdx) : Prop where
  frame : ∀ v e, v < vpn trapframeVa → k.pte k.roots p v = some e →
    ∀ x w, w < vpn trapframeVa →
      ({ k with mem := Function.update k.mem e.pa x } : Kernel σ).logical L k.roots q w =
        k.logical L k.roots q w
  slot : ∀ s, (k.tables.swapMap s).used = true → (k.tables.swapMap s).proc = some p → ∀ x w,
    ({ k with swap := (S.write s x k.swap).2 } : Kernel σ).logical L k.roots q w =
      k.logical L k.roots q w

theorem Inv.apart (h : Inv k g) (hroots : k.roots = g.own) (hpq : p ≠ q) : Apart L k p q where
  frame v e hv he x w hw := by
    refine logical_congr rfl (fun e' he' => Function.update_of_ne ?_ _ _) fun _ => rfl
    obtain ⟨r, hr, -, -, hu⟩ := h.pte_user (hroots ▸ he) hv
    obtain ⟨r', hr', -, -, hu'⟩ := h.pte_user (hroots ▸ he') hw
    intro hpa
    rw [hpa, hu] at hu'
    obtain ⟨rfl, -⟩ := Use.user.inj hu'
    exact hpq (h.own_inj p q r hr hr')
  slot s hs hp x w := by
    refine logical_congr rfl (fun _ _ => rfl) fun _ =>
      h.swapPage_congr (h.congr rfl rfl rfl (fun _ => rfl) (.refl _)) (fun _ => Iff.rfl)
        fun s' hs' => L.view_write_of_ne _ _ _ _ ?_
    rintro rfl
    exact hpq (Option.some.inj (hp.symm.trans hs'.2.1))

/-- The address space of `q` in `k'` is a copy of that of `p` in `k`. -/
structure Forked (L : SwapLaws S) (p q : ProcIdx) (k k' : Kernel σ) : Prop where
  logical : ∀ w < npages (k.procs p).sz, k'.logical L k'.roots q w = k.logical L k.roots p w
  perm : ∀ w < npages (k.procs p).sz,
    (k'.pte k'.roots q w).map Pte.perm = (k.pte k.roots p w).map Pte.perm
  mapped : ∀ w, npages (k.procs p).sz ≤ w → w < vpn trapframeVa → k'.pte k'.roots q w = none
  entries : ∀ s, (k'.tables.swapMap s).used = true → (k'.tables.swapMap s).proc = some q →
    ∃ w < npages (k.procs p).sz, k'.tables.swapMap s = ⟨true, some q, w * pgSize, some s⟩
  frames : k'.tables.frameTable = k.tables.frameTable
  others : ∀ r ≠ q, ∀ w < vpn trapframeVa,
    k'.logical L k'.roots r w = k.logical L k.roots r w ∧
      k'.pte k'.roots r w = k.pte k.roots r w
  swapUsed : ∀ s, k'.tables.swapUsed s = true ↔
    (k'.tables.swapMap s).used = true ∧ (k'.tables.swapMap s).swapSlot = some s
  sound : (k'.forkDone p q).Sound
  apart : Apart L k' p q ∧ Apart L k' q p

/-- The child gets the size of the parent. -/
theorem Copying.sound (h : Copying L k₀ p q new (npages (k₀.procs p).sz) i k g) :
    (k.forkDone p q).Sound := by
  have hpt : ∀ r, ((k.forkDone p q).procs r).pagetable = k₀.roots r := by
    intro r
    have := congrArg ProcCore.pagetable (h.core r)
    simp only [Proc.core] at this
    by_cases hr : r = q
    · subst hr
      simpa [forkDone, setProc, roots] using this
    · simpa [forkDone, setProc, roots, hr] using this
  have hsz : ∀ r, (k.procs r).sz = (k₀.procs r).sz := fun r => congrArg ProcCore.sz (h.core r)
  refine ⟨g, h.inv.congr rfl rfl rfl (fun r => ?_) (.refl _), fun r => ?_, fun r root hr => ?_,
    h.pend⟩
  · by_cases hr : r = q
    · simp [forkDone, setProc, hr]
    · simp [forkDone, setProc, hr]
  · rw [h.own, hpt]
  · rw [hpt] at hr
    by_cases hrq : r = q
    · subst hrq
      obtain rfl : new = root := Option.some.inj (h.child.symm.trans hr)
      simpa [forkDone, setProc, hsz p] using h.size
    · simpa [forkDone, setProc, hrq, hsz r] using h.size_other r hrq root hr

/-- A call of `uvmcopy` that succeeds has copied all pages, and the processes are as before. -/
theorem uvmcopy_copying (L : SwapLaws S) (h : k.Sound) (hpq : p ≠ q)
    (hold : (k.procs p).pagetable = some old) (hnew : (k.procs q).pagetable = some new)
    (hsz : (k.procs q).sz = 0)
    (heq : k.uvmcopy S p q old new (k.procs p).sz = .ok (true, k')) :
    ∃ g', Copying L k p q new (npages (k.procs p).sz) (npages (k.procs p).sz) k' g' ∧
      k'.procs = k.procs := by
  obtain ⟨g, hinv, hs⟩ := h
  have hbound := (hinv.pt old _ (hs.size p old hold)).bound
  have hstart := hinv.copying (L := L) (p := p) hs hnew hsz hbound
  obtain ⟨k₁, g', heq', h', hconf⟩ | ⟨j, k₁, g₁, -, -, -, heq'⟩ :=
    uvmcopyLoop_spec (npages (k.procs p).sz) hstart hpq hold (Nat.zero_add _)
  · obtain ⟨-, rfl⟩ := Prod.mk.inj (Except.ok.inj (heq.symm.trans heq'))
    exact ⟨g', h', hconf.procs⟩
  · obtain ⟨k₂, -, hfalse⟩ := bind_eq_ok.1 (heq'.symm.trans heq)
    cases hfalse

/-- **`fork` copies the address space.** If `uvmcopy` succeeds, every page of the child has the
contents and, if it is resident, the permissions of the parent's page, and the child has no other
page. No other process's pages change, the tables are well formed, and the two sides share no frame
and no slot. -/
theorem uvmcopy_copies (L : SwapLaws S) (h : k.Sound) (hpq : p ≠ q)
    (hold : (k.procs p).pagetable = some old) (hnew : (k.procs q).pagetable = some new)
    (hsz : (k.procs q).sz = 0)
    (heq : k.uvmcopy S p q old new (k.procs p).sz = .ok (true, k')) : Forked L p q k k' := by
  obtain ⟨g', h', -⟩ := uvmcopy_copying L h hpq hold hnew hsz heq
  have hroots : k'.roots = k.roots := by
    funext r
    exact congrArg ProcCore.pagetable (h'.core r)
  have hown : k'.roots = g'.own := hroots.trans h'.own.symm
  refine
    { logical := fun w hw => hroots ▸ (h'.copied w hw).1
      perm := fun w hw => hroots ▸ (h'.copied w hw).2
      mapped := fun w hle hw => hown ▸ (h'.fresh w hle hw).1
      entries := fun s hused hproc => ?_
      frames := h'.frameTable
      others := fun r hr w hw => by
        rw [hroots]
        exact ⟨h'.logical r hr w hw, h'.pte r hr w⟩
      swapUsed := fun s => ?_
      sound := h'.sound
      apart := ⟨h'.inv.apart hown hpq, h'.inv.apart hown hpq.symm⟩ }
  · obtain ⟨r, w, hentry, hw, -⟩ := h'.inv.tables.swap_ok s hused
    rw [hentry] at hproc
    obtain rfl : r = q := Option.some.inj hproc
    exact ⟨w, h'.np ▸ hw, hentry⟩
  · rw [h'.inv.tables.used_iff]
    refine ⟨fun hused => ⟨hused, ?_⟩, And.left⟩
    obtain ⟨r, w, hentry, -⟩ := h'.inv.tables.swap_ok s hused
    rw [hentry]

/-! ## A parent with pages of all three kinds -/

theorem sole_clean : sole.Clean := by
  have hblank : ∀ q, (sole.procs q).state = .unused → (sole.procs q).sz = 0 ∧
      (sole.procs q).pagetable = none ∧ (sole.procs q).trapframe = none := by decide
  intro q hq
  obtain ⟨hsz, hpt, htf⟩ := hblank q hq
  exact ⟨hq, hsz, hpt, htf⟩

theorem lone_clean : lone.Clean := sole_clean

def heirProc : ProcIdx := ⟨1, one_lt_nProc⟩

def heirRoot : PA := soleRoot + 0x5000

/-- The parent and a child that `allocproc` has made. -/
def pair : Kernel Raid.Dev :=
  match lone.allocproc soleProc heirProc with
  | .ok (_, k) => k
  | .error _ => lone

theorem pair_sound : pair.Sound := by
  obtain ⟨b, k', heq, hstep, -⟩ := allocproc_spec (q := heirProc) (raidSwapLaws .raid5) lone_sound
    (lone_clean heirProc rfl) soleProc
  have hpair : pair = k' := by rw [pair, heq]
  rw [hpair]
  exact hstep.sound

theorem pair_roots : (pair.procs soleProc).pagetable = some soleRoot ∧
    (pair.procs heirProc).pagetable = some heirRoot ∧ (pair.procs heirProc).sz = 0 := by
  decide +kernel

theorem pair_copies : (match pair.uvmcopy (raidSwap .raid5) soleProc heirProc soleRoot heirRoot
      (pair.procs soleProc).sz with
    | .ok (true, k') => decide (k'.freelist = [])
    | _ => false) = true := by
  decide +kernel

theorem uvmcopy_copies_pair : pair.Sound ∧ ∃ k',
    pair.uvmcopy (raidSwap .raid5) soleProc heirProc soleRoot heirRoot (pair.procs soleProc).sz =
      .ok (true, k') ∧ Forked (raidSwapLaws .raid5) soleProc heirProc pair k' := by
  have hcopies := pair_copies
  split at hcopies
  · rename_i k' heq
    exact ⟨pair_sound, k', heq, uvmcopy_copies (raidSwapLaws .raid5) pair_sound (by decide)
      pair_roots.1 pair_roots.2.1 pair_roots.2.2 heq⟩
  · cases hcopies

end Xv6Swap.Paging.Kernel
