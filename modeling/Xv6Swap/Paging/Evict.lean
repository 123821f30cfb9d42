import Xv6Swap.Paging.Alloc

/-!
# Eviction keeps the pages

`evict_one_user_frame` moves a page to swap. When no other process interferes, its first attempt
succeeds (`EvictStep`) or there is nothing to evict (`evictOneUserFrame_cases`). No process sees a
difference, however many evictions there are (`Evicts.spec`).
-/

namespace Xv6Swap.Paging.Kernel

open Raid (Page pgSize)
open Tables

variable {σ : Type} {S : SwapOps σ} {L : SwapLaws S} {k k' : Kernel σ} {g g' : Ghost}
  {root pa : PA} {n v : ℕ} {p : ProcIdx}

/-! ## The page of a process in swap -/

theorem Inv.swapPage_eq (h : Inv k g) {i : SlotIdx}
    (hi : (k.tables.swapMap i).Holds p (v * pgSize)) :
    k.swapPage L p v = some (L.view k.swap i) := by
  simp [swapPage, h.tables.findSwap_eq hi, h.tables.swapMap_eq hi]

theorem swapPage_none (hno : ∀ i, ¬ (k.tables.swapMap i).Holds p (v * pgSize)) :
    k.swapPage L p v = none := by
  unfold swapPage
  cases hf : k.tables.findSwap p (v * pgSize) with
  | none => rfl
  | some i => exact absurd (findSwap_eq_some hf) (hno i)

theorem Inv.swapPage_congr (h : Inv k g) (h' : Inv k' g')
    (hholds : ∀ i, (k'.tables.swapMap i).Holds p (v * pgSize) ↔
      (k.tables.swapMap i).Holds p (v * pgSize))
    (hview : ∀ i, (k.tables.swapMap i).Holds p (v * pgSize) →
      L.view k'.swap i = L.view k.swap i) :
    k'.swapPage L p v = k.swapPage L p v := by
  by_cases hex : ∃ i, (k.tables.swapMap i).Holds p (v * pgSize)
  · obtain ⟨i, hi⟩ := hex
    rw [h.swapPage_eq hi, h'.swapPage_eq ((hholds i).2 hi), hview i hi]
  · rw [not_exists] at hex
    rw [swapPage_none hex, swapPage_none fun i hi => hex i ((hholds i).1 hi)]

/-! ## Eviction -/

/-- The ghost owners are those of the processes. -/
def Owns (k : Kernel σ) (g : Ghost) : Prop := ∀ p, g.own p = (k.procs p).pagetable

theorem Quiet.owns (h : Quiet L k g k' g') (ho : Owns k g) : Owns k' g' := by
  intro p
  have := h.core p
  simp only [Proc.core, ProcCore.mk.injEq] at this
  rw [h.own, ho p, this.2.2.1]

theorem countEviction_core (vic : Victim) (k : Kernel σ) (p : ProcIdx) :
    ((k.countEviction vic).procs p).core = (k.procs p).core := by
  unfold countEviction
  cases vic.proc with
  | none => rfl
  | some q =>
    by_cases hp : p = q
    · simp [setProc, hp, Proc.core]
    · simp [setProc, hp]

theorem countEviction_eq (vic : Victim) (k : Kernel σ) :
    k.countEviction vic = { k with procs := (k.countEviction vic).procs } := by
  unfold countEviction
  cases vic.proc <;> rfl

/-- The state of an eviction when the page is in swap and its frame has not been freed yet. -/
def evicted (k : Kernel σ) (vic : Victim) (t : Tables) (root : PA) (dev : σ) : Kernel σ :=
  ({ k.setLeaf root vic.va none with swap := dev, tables := t.evictPublish vic }).countEviction vic

section Evicted

variable (vic : Victim) (t : Tables) (dev : σ)

@[simp] theorem evicted_freelist : (k.evicted vic t root dev).freelist = k.freelist := by
  rw [evicted, countEviction_eq]
  rfl

@[simp] theorem evicted_kernEnd : (k.evicted vic t root dev).kernEnd = k.kernEnd := by
  rw [evicted, countEviction_eq]
  rfl

@[simp] theorem evicted_pts :
    (k.evicted vic t root dev).pts = (k.setLeaf root vic.va none).pts := by
  rw [evicted, countEviction_eq]

@[simp] theorem evicted_mem : (k.evicted vic t root dev).mem = k.mem := by
  rw [evicted, countEviction_eq]
  rfl

@[simp] theorem evicted_swap : (k.evicted vic t root dev).swap = dev := by
  rw [evicted, countEviction_eq]

@[simp] theorem evicted_tables : (k.evicted vic t root dev).tables = t.evictPublish vic := by
  rw [evicted, countEviction_eq]

theorem evicted_core (q : ProcIdx) :
    ((k.evicted vic t root dev).procs q).core = (k.procs q).core :=
  countEviction_core vic _ q

end Evicted

/-- The victim's page moves to swap, and its frame is held by the eviction. -/
theorem evicted_spec (h : Inv k g) (hpend : g.pend = none) {vic : Victim} {t : Tables}
    (hb : Begun k.tables t vic) (hp : vic.proc = some p) (hva : vic.va = v * pgSize)
    (ho : g.own p = some root) {e : Pte} (he : (k.pts root).leaf v = some e) (hv : v < g.np p) :
    Inv (k.evicted vic t root (S.write vic.slot (k.mem e.pa) k.swap).2) (g.setUse e.pa .held) ∧
      Quiet L k g (k.evicted vic t root (S.write vic.slot (k.mem e.pa) k.swap).2)
        (g.setUse e.pa .free) := by
  obtain ⟨n, hn⟩ := Option.isSome_iff_exists.1 (h.own_size p root ho)
  have hvt : v < vpn trapframeVa := hv.trans_le (h.np_le p)
  have hpte : k.pte g.own p v = some e := (pte_of_own ho).trans he
  obtain ⟨-, hu⟩ := (h.pt root n hn).leaf_user he hvt
  have hself : (k.setLeaf root vic.va none).pte g.own p v = none := by
    rw [hva]
    exact Inv.pte_setLeaf_self ho
  have hother : ∀ q w, (q, w) ≠ (p, v) →
      (k.setLeaf root vic.va none).pte g.own q w = k.pte g.own q w := fun q w hqw => by
    rw [hva]
    exact h.pte_setLeaf_other ho hqw
  have htables : TablesOk (t.evictPublish vic) g.np ((k.setLeaf root vic.va none).pte g.own)
      none := by
    have := h.tables
    rw [hpend] at this
    exact this.evict hb hp hva hv (by simp [hpte]) hself hother
  have hfree : (k.tables.swapMap vic.slot).used = false := by rw [← h.tables.used_iff, hb.free]
  generalize hdev : (S.write vic.slot (k.mem e.pa) k.swap).2 = dev
  have hmap : ∀ i, (k.evicted vic t root dev).tables.swapMap i =
      if i = vic.slot then ⟨true, some p, v * pgSize, some vic.slot⟩ else k.tables.swapMap i := by
    intro i
    simp [evictPublish, decCount, setFrame, setSwap, hb.swapMap, Function.update_apply, hp, hva]
  have hinv : Inv (k.evicted vic t root dev) (g.setUse e.pa .held) := by
    have := h.unmap_leaf hn hu (t.evictPublish vic) none (hva ▸ htables)
    rw [← hpend] at this
    refine this.congr (by simp [setLeaf, setPt]) (by simp [setLeaf, setPt]) (by simp [hva])
      (fun q => congrArg ProcCore.trapframe (evicted_core vic t dev q)) ?_
    rw [evicted_tables]
    exact .refl _
  have hsame : (k.evicted vic t root dev).pte g.own = (k.setLeaf root vic.va none).pte g.own := by
    funext q w
    simp [pte]
  refine ⟨hinv, ⟨rfl, rfl, evicted_core vic t dev, fun pa' hpa' => ?_, fun q w hqw => ?_,
    fun i hi => ?_, fun i q w hi => ?_, fun q w hw => ?_⟩⟩
  · have hne : pa' ≠ e.pa := by
      rintro rfl
      simp [hu] at hpa'
    rw [evicted_mem, Ghost.setUse_use_of_ne _ _ hne]
    exact ⟨hpa', rfl⟩
  · rw [hsame]
    by_cases hqw' : (q, w) = (p, v)
    · obtain ⟨rfl, rfl⟩ := Prod.mk.inj hqw'
      exact hself
    · rw [hother q w hqw', hqw]
  · rw [hmap, if_neg]
    rintro rfl
    simp [hfree] at hi
  · rw [hmap] at hi
    split at hi
    · obtain ⟨-, hq, hw⟩ := hi
      obtain rfl : p = q := Option.some.inj hq
      obtain rfl := Nat.eq_of_mul_eq_mul_right pgSize_pos hw
      exact .inr (by simp [hpte])
    · exact .inl hi
  · by_cases hqw : (q, w) = (p, v)
    · -- the evicted page is now in its slot
      obtain ⟨rfl, rfl⟩ := Prod.mk.inj hqw
      have hslot : ((k.evicted vic t root dev).tables.swapMap vic.slot).Holds q (w * pgSize) := by
        rw [hmap, if_pos rfl]
        exact ⟨rfl, rfl, rfl⟩
      have hpage : (k.evicted vic t root dev).swapPage L q w = some (k.mem e.pa) := by
        rw [hinv.swapPage_eq hslot, evicted_swap, ← hdev, L.view_write_self]
      simp [logical, hsame, hself, hpage, hpte]
    · refine logical_congr ((congrFun₂ hsame q w).trans (hother q w hqw))
        (fun e' _ => by rw [evicted_mem]) fun _ => ?_
      refine h.swapPage_congr hinv (fun i => ?_) fun i hi => ?_
      · rw [hmap]
        split
        · rename_i his
          subst his
          constructor
          · rintro ⟨-, hq, hw'⟩
            exact absurd (Prod.ext (Option.some.inj hq).symm
              (Nat.eq_of_mul_eq_mul_right pgSize_pos hw').symm) hqw
          · rintro ⟨hused, -⟩
            simp [hfree] at hused
        · rfl
      · have his : i ≠ vic.slot := by
          rintro rfl
          have hused := hi.1
          simp [hfree] at hused
        rw [evicted_swap, ← hdev, L.view_write_of_ne _ _ _ _ his]

/-- A successful eviction of a page of `p`, whichever frame and slot it takes. -/
inductive EvictStep (S : SwapOps σ) (p : ProcIdx) (k : Kernel σ) : Kernel σ → Prop
  | mk {vic : Victim} {t : Tables} {root : PA} {e : Pte} {k' : Kernel σ}
      (hbegun : Begun k.tables t vic) (hproc : vic.proc = some p)
      (hroot : (k.procs p).pagetable = some root) (hpte : k.pteAt root vic.va = some e)
      (hwrite : 0 ≤ (S.write vic.slot (k.mem e.pa) k.swap).1)
      (hfree : (k.evicted vic t root (S.write vic.slot (k.mem e.pa) k.swap).2).kfree e.pa =
        .ok k') : EvictStep S p k k'

/-- The page that a frame entry stands for. -/
theorem Inv.victim_page (h : Inv k g) (hpend : g.pend = none) {vic : Victim} {t : Tables}
    (hbegun : Begun k.tables t vic) :
    ∃ p v root pa, vic.proc = some p ∧ vic.va = v * pgSize ∧ v < g.np p ∧ g.own p = some root ∧
      (k.pts root).leaf v = some ⟨pa, .userRw⟩ ∧ k.pteAt root vic.va = some ⟨pa, .userRw⟩ ∧
      ¬ maxVa ≤ vic.va := by
  obtain ⟨p, v, hentry, hv, ⟨pa, hpa⟩ | ⟨hp, -⟩⟩ :=
    h.tables.frame_ok vic.frame (congrArg (·.1) hbegun.entry)
  swap
  · simp [hpend] at hp
  rw [hbegun.entry] at hentry
  simp only [Prod.mk.injEq, true_and] at hentry
  obtain ⟨hproc, hva⟩ := hentry
  obtain ⟨root, hown, hleaf, -, -⟩ := h.pte_user hpa (hv.trans_le (h.np_le p))
  obtain ⟨n, hn⟩ := Option.isSome_iff_exists.1 (h.own_size p root hown)
  refine ⟨p, v, root, pa, hproc, hva, hv, hown, hleaf, ?_, ?_⟩
  · rw [hva, ← hleaf]
    exact h.pteAt_eq hn v
  · have := hv.trans_le (h.np_le p)
    rw [hva]
    simp only [vpn, trapframeVa, trampolineVa, maxVa, pgSize] at this ⊢
    omega

/-- What an eviction does: one entry is cleared, and its page goes to swap and to the free list. -/
theorem EvictStep.spec (L : SwapLaws S) (h : Inv k g) (ho : Owns k g) (hpend : g.pend = none)
    (hstep : EvictStep S p k k') :
    ∃ v root e, g.own p = some root ∧ v < g.np p ∧ (k.pts root).leaf v = some e ∧
      Inv k' (g.setUse e.pa .free) ∧ Quiet L k g k' (g.setUse e.pa .free) ∧
      k'.pts = (k.setLeaf root (v * pgSize) none).pts ∧ ∀ pa ≠ e.pa, k'.mem pa = k.mem pa := by
  obtain ⟨hbegun, hproc, hroot, hpte, -, hfree⟩ := hstep
  rename_i vic t root e
  obtain ⟨p', v, root', pa, hproc', hva, hv, hown, hleaf, hat, -⟩ := h.victim_page hpend hbegun
  obtain rfl : p = p' := Option.some.inj (hproc.symm.trans hproc')
  obtain rfl : root = root' := Option.some.inj ((hroot.symm.trans (ho p).symm).trans hown)
  obtain rfl : e = ⟨pa, .userRw⟩ := Option.some.inj (hpte.symm.trans hat)
  obtain ⟨hinv, hquiet⟩ := evicted_spec (L := L) h hpend hbegun hproc hva hown hleaf hv
  obtain ⟨k'', hfree', hinv', hquiet', hpts, -⟩ :=
    kfree_spec (L := L) hinv (g.setUse_use_self pa .held)
  obtain rfl : k' = k'' := Except.ok.inj (hfree.symm.trans hfree')
  rw [Ghost.setUse_setUse] at hinv' hquiet'
  refine ⟨v, root, _, hown, hv, hleaf, hinv', hquiet.trans hquiet', ?_, fun pa' hpa' => ?_⟩
  · rw [hpts, evicted_pts, hva]
  · obtain rfl := kfree_eq_ok hfree
    simp [fill, hpa']

/-- What an eviction changes: page `v` of `p`, mapped to `pa`, moves from frame entry `f` to
slot `s`. -/
structure SwapsOut (S : SwapOps σ) (p : ProcIdx) (v : ℕ) (root pa : PA) (f : FrameIdx)
    (s : SlotIdx) (k k' : Kernel σ) : Prop where
  lt : v < vpn trapframeVa
  pagetable : (k.procs p).pagetable = some root
  leaf : (k.pts root).leaf v = some ⟨pa, .userRw⟩
  entry : (k.tables.frameTable f).entry = (true, true, some p, v * pgSize)
  fresh : (k.tables.swapMap s).used = false
  frame_self : k'.tables.frameTable f = .clear
  frame_other : ∀ i ≠ f, (k'.tables.frameTable i).entry = (k.tables.frameTable i).entry
  swapMap : k'.tables.swapMap =
    Function.update k.tables.swapMap s ⟨true, some p, v * pgSize, some s⟩
  swapUsed : k'.tables.swapUsed = Function.update k.tables.swapUsed s true
  freelist : k'.freelist = pa :: k.freelist
  pts : k'.pts = (k.setLeaf root (v * pgSize) none).pts
  mem : ∀ pa' ≠ pa, k'.mem pa' = k.mem pa'
  swap : k'.swap = (S.write s (k.mem pa) k.swap).2
  procs : k'.procs = (k.countEviction ⟨f, some p, v * pgSize, s⟩).procs
  kernEnd : k'.kernEnd = k.kernEnd
  trampoline : k'.trampoline = k.trampoline

theorem EvictStep.swapsOut (h : Inv k g) (ho : Owns k g) (hpend : g.pend = none)
    (hstep : EvictStep S p k k') : ∃ v root pa f s, SwapsOut S p v root pa f s k k' := by
  obtain ⟨hbegun, hproc, hroot, hpte, -, hfree⟩ := hstep
  rename_i vic t root e
  obtain ⟨p', v, root', pa, hproc', hva, hv, hown, hleaf, hat, -⟩ := h.victim_page hpend hbegun
  obtain rfl : p = p' := Option.some.inj (hproc.symm.trans hproc')
  obtain rfl : root = root' := Option.some.inj ((hroot.symm.trans (ho p).symm).trans hown)
  obtain rfl : e = ⟨pa, .userRw⟩ := Option.some.inj (hpte.symm.trans hat)
  obtain ⟨f, vp, va, s⟩ := vic
  obtain rfl : vp = some p := hproc
  obtain rfl : va = v * pgSize := hva
  obtain rfl := kfree_eq_ok hfree
  exact ⟨v, root, pa, f, s,
    { lt := hv.trans_le (h.np_le p)
      pagetable := hroot
      leaf := hleaf
      entry := hbegun.entry
      fresh := by rw [← h.tables.used_iff, hbegun.free]
      frame_self := by
        simp [fill, evictPublish, decCount, setFrame, setSwap, hbegun.hidden, Frame.clear]
      frame_other := fun i hi => by
        rw [← hbegun.frame i hi]
        simp [fill, evictPublish, decCount, setFrame, setSwap, hi]
      swapMap := by simp [fill, evictPublish, decCount, setFrame, setSwap, hbegun.swapMap]
      swapUsed := by simp [fill, evictPublish, decCount, setFrame, setSwap, hbegun.swapUsed]
      freelist := by simp
      pts := by simp [fill]
      mem := fun pa' hpa' => by simp [fill, hpa']
      swap := by simp [fill]
      procs := rfl
      kernEnd := rfl
      trampoline := rfl }⟩

/-- `evict_one_user_frame` needs one attempt when no other process interferes. -/
theorem evictOneUserFrame_cases (L : SwapLaws S) (h : Inv k g) (ho : Owns k g)
    (hpend : g.pend = none) :
    (∃ t, SameEntries k.tables t ∧
      k.evictOneUserFrame S = .ok (false, { k with tables := t })) ∨
    ∃ p k', k.evictOneUserFrame S = .ok (true, k') ∧ EvictStep S p k k' := by
  have hloop : k.evictOneUserFrame S = evictLoop S (19 + 1) k := rfl
  rw [hloop, evictLoop]
  cases hb : k.tables.evictBegin k.levels with
  | mk r t =>
    cases r with
    | none => exact .inl ⟨t, evictBegin_none hb, rfl⟩
    | some vic =>
      have hbegun := evictBegin_some hb
      obtain ⟨p, v, root, pa, hproc, hva, hv, hown, hleaf, hat, hmax⟩ := h.victim_page hpend hbegun
      obtain ⟨hinv, -⟩ := evicted_spec (L := L) h hpend hbegun hproc hva hown hleaf hv
      obtain ⟨k', hfree, -⟩ := kfree_spec (L := L) hinv (g.setUse_use_self pa .held)
      refine .inr ⟨p, k', ?_, .mk hbegun hproc ((ho p).symm.trans hown) hat (L.write_ok _ _ _)
        hfree⟩
      have hroot : (({ k with tables := t } : Kernel σ)).victimRoot vic = some root := by
        simp [victimRoot, hproc, ← ho p, hown]
      have hat' : (({ k with tables := t } : Kernel σ)).pteAt root vic.va =
          some ⟨pa, .userRw⟩ := hat
      have hw : ¬ (S.write vic.slot (k.mem pa) k.swap).1 < 0 := not_lt.2 (L.write_ok _ _ _)
      simp only [hroot, if_neg hmax, hat']
      have hmem : (({ k with tables := t } : Kernel σ).setLeaf root vic.va none).mem pa =
          k.mem pa := rfl
      have hswap : (({ k with tables := t } : Kernel σ).setLeaf root vic.va none).swap =
          k.swap := rfl
      rw [hmem, hswap, if_neg hw]
      change (do let k ← (k.evicted vic t root _).kfree pa; return (true, k)) = _
      rw [hfree]
      rfl

/-! ## Any number of evictions -/

/-- Evictions, and what they and `kalloc_user` leave on the way: reference bits and the clock hand,
and the contents of free pages. -/
inductive Evicts (S : SwapOps σ) : Kernel σ → Kernel σ → Prop
  | refl (k : Kernel σ) : Evicts S k k
  | touch {k k' : Kernel σ} {t : Tables} (hsame : SameEntries k.tables t)
      (rest : Evicts S { k with tables := t } k') : Evicts S k k'
  | scratch {k k' : Kernel σ} {pa : PA} (hpa : pa ∈ k.freelist) (x : Page)
      (rest : Evicts S { k with mem := Function.update k.mem pa x } k') : Evicts S k k'
  | evict {p : ProcIdx} {k k₁ k' : Kernel σ} (hstep : EvictStep S p k k₁)
      (rest : Evicts S k₁ k') : Evicts S k k'

theorem Evicts.trans {k'' : Kernel σ} (h : Evicts S k k') (h' : Evicts S k' k'') :
    Evicts S k k'' := by
  induction h with
  | refl k => exact h'
  | touch hsame _ ih => exact .touch hsame (ih h')
  | scratch hpa x _ ih => exact .scratch hpa x (ih h')
  | evict hstep _ ih => exact .evict hstep (ih h')

/-- No process sees a difference. -/
theorem Evicts.spec (L : SwapLaws S) (hev : Evicts S k k') (h : Inv k g) (ho : Owns k g)
    (hpend : g.pend = none) : ∃ g', Inv k' g' ∧ Quiet L k g k' g' ∧ g'.pend = none := by
  induction hev generalizing g with
  | refl k => exact ⟨g, h, .refl L k g, hpend⟩
  | @touch k k' t hsame _ ih =>
    have hq : Quiet L k g { k with tables := t } g := h.quiet rfl rfl (fun _ => rfl) (fun _ => rfl)
      hsame.swapMap rfl (fun _ _ _ _ => rfl) fun _ hpa => ⟨hpa, rfl⟩
    obtain ⟨g', hinv, hq', hpend'⟩ := ih (h.congr rfl rfl rfl (fun _ => rfl) hsame) ho hpend
    exact ⟨g', hinv, hq.trans hq', hpend'⟩
  | @scratch k k' pa hpa x _ ih =>
    have hfree := h.pages.free_use _ hpa
    have hne : ∀ pa', g.use pa' ≠ .free → pa' ≠ pa := fun pa' hpa' e => hpa' (e ▸ hfree)
    have hq : Quiet L k g { k with mem := Function.update k.mem pa x } g :=
      h.quiet rfl rfl (fun _ => rfl) (fun _ => rfl) rfl rfl
        (fun pa' r v hu => Function.update_of_ne (hne pa' (by simp [hu])) _ _)
        fun pa' hu => ⟨hu, Function.update_of_ne (hne pa' (by simp [hu])) _ _⟩
    obtain ⟨g', hinv, hq', hpend'⟩ := ih (h.congr rfl rfl rfl (fun _ => rfl) (.refl _)) ho hpend
    exact ⟨g', hinv, hq.trans hq', hpend'⟩
  | evict hstep _ ih =>
    obtain ⟨v, root, e, -, -, -, hinv, hq, -⟩ := hstep.spec L h ho hpend
    obtain ⟨g', hinv', hq', hpend'⟩ := ih hinv (hq.owns ho) hpend
    exact ⟨g', hinv', hq.trans hq', hpend'⟩

/-- What every eviction keeps, and reference bits and the contents of free pages do not matter to,
holds after any number of them. -/
theorem Evicts.keeps {P : Kernel σ → Prop} (L : SwapLaws S) (hev : Evicts S k k') (h : Inv k g)
    (ho : Owns k g) (hpend : g.pend = none)
    (touch : ∀ k t, SameEntries k.tables t → P k → P { k with tables := t })
    (scratch : ∀ k pa x, pa ∈ k.freelist → P k → P { k with mem := Function.update k.mem pa x })
    (evict : ∀ k k' g p v root pa f s, Inv k g → Owns k g → SwapsOut S p v root pa f s k k' →
      P k → P k') (h₀ : P k) : P k' := by
  induction hev generalizing g with
  | refl k => exact h₀
  | touch hsame _ ih =>
    exact ih (h.congr rfl rfl rfl (fun _ => rfl) hsame) ho hpend (touch _ _ hsame h₀)
  | scratch hpa x _ ih =>
    exact ih (h.congr rfl rfl rfl (fun _ => rfl) (.refl _)) ho hpend (scratch _ _ x hpa h₀)
  | evict hstep _ ih =>
    obtain ⟨v, root, pa, f, s, hout⟩ := hstep.swapsOut h ho hpend
    obtain ⟨-, -, e, -, -, -, hinv, hq, -⟩ := hstep.spec L h ho hpend
    exact ih hinv (hq.owns ho) hpend (evict _ _ g _ v root pa f s h ho hout h₀)

theorem evictOneUserFrame_evicts (L : SwapLaws S) (h : Inv k g) (ho : Owns k g)
    (hpend : g.pend = none) :
    ∃ b k', k.evictOneUserFrame S = .ok (b, k') ∧ Evicts S k k' := by
  rcases evictOneUserFrame_cases L h ho hpend with ⟨t, hsame, heq⟩ | ⟨p, k', heq, hstep⟩
  · exact ⟨false, _, heq, .touch hsame (.refl _)⟩
  · exact ⟨true, k', heq, .evict hstep (.refl _)⟩

end Xv6Swap.Paging.Kernel
