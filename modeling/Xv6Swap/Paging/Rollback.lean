import Xv6Swap.Paging.Account
import Xv6Swap.Paging.Invisible

/-!
# A failing page fault rolls back

`vmfault` can fail before it allocates a frame, after evictions, after the frame was registered, or
when there is no memory for the page table. In every case the mappings, the entries of both tables
and the contents of pages are as before (`Kept`), but for pages that evictions have moved to fresh
slots (`Displaced`), and no page is lost.

`Kept` composes, so it is proved for one eviction and for the failing end of a page fault.
-/

namespace Xv6Swap.Paging.Kernel

open Raid (Page pgSize)
open Tables

variable {σ : Type} {S : SwapOps σ} {L : SwapLaws S} {k k' k₁ k₂ : Kernel σ} {g : Ghost}
  {root pa : PA} {v w : ℕ} {p q : ProcIdx}

/-! ## Pages that stay and pages that move -/

/-- Page `w` of `q` was mapped to `pa`, and is now in a slot that was free, with equal contents. -/
structure Displaced (L : SwapLaws S) (k k' : Kernel σ) (q : ProcIdx) (w : ℕ) (pa : PA) : Prop where
  lt : w < vpn trapframeVa
  before : ∃ perm, k.pte k.roots q w = some ⟨pa, perm⟩
  after : k'.pte k.roots q w = none
  slot : ∃ s, (k.tables.swapMap s).used = false ∧
    k'.tables.swapMap s = ⟨true, some q, w * pgSize, some s⟩ ∧ L.view k'.swap s = k.mem pa

/-- All that evictions and a failing page fault may change: pages move to swap, page tables get more
interior pages, and the contents of free pages, reference bits, the clock hand and the counters of
processes change. -/
structure Kept (L : SwapLaws S) (k k' : Kernel σ) : Prop where
  core : ∀ q, (k'.procs q).core = (k.procs q).core
  level : ∀ q, (k'.procs q).level = (k.procs q).level
  kernEnd : k'.kernEnd = k.kernEnd
  trampoline : k'.trampoline = k.trampoline
  leaf : ∀ r w, (k'.pts r).leaf w = (k.pts r).leaf w ∨
    ∃ q pa, k.roots q = some r ∧ Displaced L k k' q w pa
  mid : ∀ r i pg, (k.pts r).mid i = some pg → (k'.pts r).mid i = some pg
  low : ∀ r j pg, (k.pts r).low j = some pg → (k'.pts r).low j = some pg
  mem : ∀ pa, k'.mem pa = k.mem pa ∨ pa ∈ k.freelist ∨ ∃ q w, Displaced L k k' q w pa
  free : ∀ pa ∈ k'.freelist, pa ∈ k.freelist ∨ ∃ q w, Displaced L k k' q w pa
  swap : ∀ s, (k.tables.swapMap s).used = true →
    k'.tables.swapMap s = k.tables.swapMap s ∧ L.view k'.swap s = L.view k.swap s
  swap_new : ∀ s, (k'.tables.swapMap s).used = true → (k.tables.swapMap s).used = true ∨
    ∃ q w pa, Displaced L k k' q w pa ∧ k'.tables.swapMap s = ⟨true, some q, w * pgSize, some s⟩
  frame : ∀ i, (k'.tables.frameTable i).used = true →
    (k'.tables.frameTable i).entry = (k.tables.frameTable i).entry
  frame_lost : ∀ i, (k.tables.frameTable i).used = true →
    (k'.tables.frameTable i).entry = (k.tables.frameTable i).entry ∨
    ∃ q w pa, Displaced L k k' q w pa ∧
      (k.tables.frameTable i).entry = (true, true, some q, w * pgSize)
  accounted : ∀ R, (∀ q root, k.roots q = some root → root ∈ R) →
    k'.accounted R = k.accounted R

theorem Kept.roots (h : Kept L k k') : k'.roots = k.roots := by
  funext q
  exact congrArg ProcCore.pagetable (h.core q)

/-- Steps that leave the mappings, the swap and the tables' entries alone. -/
theorem Kept.of_same (hcore : ∀ q, (k'.procs q).core = (k.procs q).core)
    (hlevel : ∀ q, (k'.procs q).level = (k.procs q).level) (hend : k'.kernEnd = k.kernEnd)
    (htramp : k'.trampoline = k.trampoline) (hfree : k'.freelist = k.freelist)
    (hpts : k'.pts = k.pts) (hmem : ∀ pa, pa ∉ k.freelist → k'.mem pa = k.mem pa)
    (hswap : k'.swap = k.swap) (ht : SameEntries k.tables k'.tables) : Kept L k k' where
  core := hcore
  level := hlevel
  kernEnd := hend
  trampoline := htramp
  leaf r w := .inl (by rw [hpts])
  mid r i pg hi := by rw [hpts, hi]
  low r j pg hj := by rw [hpts, hj]
  mem pa := by
    by_cases hpa : pa ∈ k.freelist
    · exact .inr (.inl hpa)
    · exact .inl (hmem pa hpa)
  free pa hpa := .inl (hfree ▸ hpa)
  swap s _ := by rw [ht.swapMap, hswap]; exact ⟨rfl, rfl⟩
  swap_new s hs := .inl (ht.swapMap ▸ hs)
  frame i _ := ht.frame i
  frame_lost i _ := .inl (ht.frame i)
  accounted R _ := accounted_congr hfree (fun q => congrArg ProcCore.trapframe (hcore q))
    fun _ _ => by rw [hpts]

theorem Kept.refl (L : SwapLaws S) (k : Kernel σ) : Kept L k k :=
  .of_same (fun _ => rfl) (fun _ => rfl) rfl rfl rfl rfl (fun _ _ => rfl) rfl (.refl _)

/-- A page in swap stays there. -/
theorem Displaced.mono (h : Displaced L k k₁ q w pa) (h' : Kept L k₁ k₂) :
    Displaced L k k₂ q w pa := by
  obtain ⟨s, hfree, hmap, hview⟩ := h.slot
  obtain ⟨hmap', hview'⟩ := h'.swap s (by rw [hmap])
  refine ⟨h.lt, h.before, ?_, s, hfree, hmap'.trans hmap, hview'.trans hview⟩
  have hafter := h.after
  cases hq : k.roots q with
  | none => simp [pte, hq]
  | some r =>
    rw [pte_of_own hq] at hafter ⊢
    rcases h'.leaf r w with hsame | ⟨q', pa', hq', hmoved⟩
    · rw [hsame, hafter]
    · obtain ⟨perm, hpte⟩ := hmoved.before
      rw [pte_of_own hq', hafter] at hpte
      cases hpte

/-- A page that moves later was there before. -/
theorem Displaced.pre (h : Inv k g) (ho : Owns k g) (hk : Kept L k k₁)
    (hm : Displaced L k₁ k₂ q w pa) :
    Displaced L k k₂ q w pa := by
  have hown : k.roots = g.own := (funext ho).symm
  obtain ⟨perm, hpte₁⟩ := hm.before
  rw [hk.roots] at hpte₁
  have hpte : k.pte k.roots q w = some ⟨pa, perm⟩ := by
    cases hq : k.roots q with
    | none => simp [Kernel.pte, hq] at hpte₁
    | some r =>
      rw [pte_of_own hq] at hpte₁ ⊢
      rcases hk.leaf r w with hsame | ⟨q', pa', hq', hmoved⟩
      · rw [← hsame, hpte₁]
      · have hafter := hmoved.after
        rw [pte_of_own hq', hpte₁] at hafter
        cases hafter
  obtain ⟨r, hr, -, -, huse⟩ := h.pte_user (hown ▸ hpte) hm.lt
  have hmem : k₁.mem pa = k.mem pa := by
    rcases hk.mem pa with hsame | hfree | ⟨q', w', hmoved⟩
    · exact hsame
    · have := h.pages.free_use pa hfree
      simp [huse] at this
    · -- the same frame: it is the page itself, and it is still mapped
      obtain ⟨perm', hpte'⟩ := hmoved.before
      obtain ⟨r', hr', -, -, huse'⟩ := h.pte_user (hown ▸ hpte') hmoved.lt
      obtain ⟨rfl, rfl⟩ : r = r' ∧ w = w' := by simpa using huse.symm.trans huse'
      obtain rfl := h.own_inj q q' r hr hr'
      have hafter := hmoved.after
      rw [hpte₁] at hafter
      cases hafter
  obtain ⟨s, hfree, hmap, hview⟩ := hm.slot
  refine ⟨hm.lt, ⟨perm, hpte⟩, hk.roots ▸ hm.after, s, ?_, hmap, hview.trans hmem⟩
  by_contra hused
  have hused : (k.tables.swapMap s).used = true := by simpa using hused
  rw [(hk.swap s hused).1, hused] at hfree
  cases hfree

theorem Kept.trans (h : Inv k g) (ho : Owns k g) (h₁ : Kept L k k₁) (h₂ : Kept L k₁ k₂) :
    Kept L k k₂ := by
  have hmono : ∀ {q w pa}, Displaced L k k₁ q w pa → Displaced L k k₂ q w pa :=
    fun hm => hm.mono h₂
  have hpre : ∀ {q w pa}, Displaced L k₁ k₂ q w pa → Displaced L k k₂ q w pa :=
    fun hm => hm.pre h ho h₁
  refine
    { core := fun q => (h₂.core q).trans (h₁.core q)
      level := fun q => (h₂.level q).trans (h₁.level q)
      kernEnd := h₂.kernEnd.trans h₁.kernEnd
      trampoline := h₂.trampoline.trans h₁.trampoline
      mid := fun r i pg hi => h₂.mid r i pg (h₁.mid r i pg hi)
      low := fun r j pg hj => h₂.low r j pg (h₁.low r j pg hj)
      leaf := fun r w => ?_
      mem := fun pa => ?_
      free := fun pa hpa => ?_
      swap := fun s hs => ?_
      swap_new := fun s hs => ?_
      frame := fun i hi => ?_
      frame_lost := fun i hi => ?_
      accounted := fun R hR => ?_ }
  · rcases h₂.leaf r w with hsame | ⟨q, pa, hq, hm⟩
    · rw [hsame]
      exact (h₁.leaf r w).imp_right fun ⟨q, pa, hq, hm⟩ => ⟨q, pa, hq, hmono hm⟩
    · exact .inr ⟨q, pa, h₁.roots ▸ hq, hpre hm⟩
  · have hfirst : ∀ {x}, x = k₁.mem pa → x = k.mem pa ∨ pa ∈ k.freelist ∨
        ∃ q w, Displaced L k k₂ q w pa := fun hx =>
      (h₁.mem pa).imp hx.trans (.imp_right fun ⟨q, w, hm⟩ => ⟨q, w, hmono hm⟩)
    rcases h₂.mem pa with hsame | hfree | ⟨q, w, hm⟩
    · exact hfirst hsame
    · exact .inr ((h₁.free pa hfree).imp_right fun ⟨q, w, hm⟩ => ⟨q, w, hmono hm⟩)
    · exact .inr (.inr ⟨q, w, hpre hm⟩)
  · rcases h₂.free pa hpa with hfree | ⟨q, w, hm⟩
    · exact (h₁.free pa hfree).imp_right fun ⟨q, w, hm⟩ => ⟨q, w, hmono hm⟩
    · exact .inr ⟨q, w, hpre hm⟩
  · obtain ⟨hmap, hview⟩ := h₁.swap s hs
    obtain ⟨hmap', hview'⟩ := h₂.swap s (hmap ▸ hs)
    exact ⟨hmap'.trans hmap, hview'.trans hview⟩
  · rcases h₂.swap_new s hs with hs₁ | ⟨q, w, pa, hm, hmap⟩
    · refine (h₁.swap_new s hs₁).imp_right fun ⟨q, w, pa, hm, hmap⟩ => ⟨q, w, pa, hmono hm, ?_⟩
      exact (h₂.swap s hs₁).1.trans hmap
    · exact .inr ⟨q, w, pa, hpre hm, hmap⟩
  · have hsame := h₂.frame i hi
    exact hsame.trans (h₁.frame i ((congrArg (·.1) hsame).symm.trans hi))
  · rcases h₁.frame_lost i hi with hsame | ⟨q, w, pa, hm, hentry⟩
    · rcases h₂.frame_lost i ((congrArg (·.1) hsame).trans hi) with hsame' | ⟨q, w, pa, hm, he⟩
      · exact .inl (hsame'.trans hsame)
      · exact .inr ⟨q, w, pa, hpre hm, hsame.symm.trans he⟩
    · exact .inr ⟨q, w, pa, hmono hm, hentry⟩
  · rw [h₂.accounted R (h₁.roots ▸ hR), h₁.accounted R hR]

/-! ## Evictions -/

theorem countEviction_level (vic : Victim) (k : Kernel σ) (p : ProcIdx) :
    ((k.countEviction vic).procs p).level = (k.procs p).level := by
  unfold countEviction
  cases vic.proc with
  | none => rfl
  | some q =>
    by_cases hp : p = q
    · simp [setProc, hp]
    · simp [setProc, hp]

/-- An eviction moves one page. -/
theorem SwapsOut.kept {f : FrameIdx} {s : SlotIdx} (h : SwapsOut S p v root pa f s k k') :
    Kept L k k' := by
  have hroot : k.roots p = some root := h.pagetable
  have hleaf : ∀ r w, (r, w) ≠ (root, v) → (k'.pts r).leaf w = (k.pts r).leaf w := by
    intro r w hrw
    rw [h.pts]
    by_cases hr : r = root
    · have hw : w ≠ v := fun e => hrw (by rw [hr, e])
      simp [setLeaf, setPt, hr, hw]
    · simp [setLeaf, setPt, hr]
  have hmoved : Displaced L k k' p v pa := by
    refine ⟨h.lt, ⟨.userRw, (pte_of_own hroot).trans h.leaf⟩, ?_, s, h.fresh, ?_, ?_⟩
    · rw [pte_of_own hroot, h.pts]
      simp [setLeaf, setPt]
    · simp [h.swapMap]
    · rw [h.swap, L.view_write_self]
  have hmap : ∀ s', (k.tables.swapMap s').used = true → s' ≠ s := by
    rintro s' hs' rfl
    simp [h.fresh] at hs'
  refine
    { core := fun q => by rw [h.procs, countEviction_core]
      level := fun q => by rw [h.procs, countEviction_level]
      kernEnd := h.kernEnd
      trampoline := h.trampoline
      leaf := fun r w => ?_
      mid := fun r i pg hi => ?_
      low := fun r j pg hj => ?_
      mem := fun pa' => ?_
      free := fun pa' hpa' => ?_
      swap := fun s' hs' => ?_
      swap_new := fun s' hs' => ?_
      frame := fun i hi => ?_
      frame_lost := fun i hi => ?_
      accounted := fun R hR => ?_ }
  · by_cases hrw : (r, w) = (root, v)
    · obtain ⟨rfl, rfl⟩ := Prod.mk.inj hrw
      exact .inr ⟨p, pa, hroot, hmoved⟩
    · exact .inl (hleaf r w hrw)
  · rw [h.pts, ← hi]
    by_cases hr : r = root
    · simp [setLeaf, setPt, hr]
    · simp [setLeaf, setPt, hr]
  · rw [h.pts, ← hj]
    by_cases hr : r = root
    · simp [setLeaf, setPt, hr]
    · simp [setLeaf, setPt, hr]
  · by_cases hpa' : pa' = pa
    · subst hpa'
      exact .inr (.inr ⟨p, v, hmoved⟩)
    · exact .inl (h.mem pa' hpa')
  · rw [h.freelist] at hpa'
    rcases List.mem_cons.1 hpa' with rfl | hpa'
    · exact .inr ⟨p, v, hmoved⟩
    · exact .inl hpa'
  · rw [h.swapMap, h.swap, Function.update_of_ne (hmap s' hs')]
    exact ⟨rfl, L.view_write_of_ne _ _ _ _ (hmap s' hs')⟩
  · by_cases hs : s' = s
    · subst hs
      exact .inr ⟨p, v, pa, hmoved, by simp [h.swapMap]⟩
    · rw [h.swapMap, Function.update_of_ne hs] at hs'
      exact .inl hs'
  · by_cases hif : i = f
    · rw [hif, h.frame_self] at hi
      cases hi
    · exact h.frame_other i hif
  · by_cases hif : i = f
    · rw [hif]
      exact .inr ⟨p, v, pa, hmoved, h.entry⟩
    · exact .inl (h.frame_other i hif)
  · rw [clearLeaf_accounted (hR p root hroot) h.lt h.leaf]
    have hcons : ∀ k₀ : Kernel σ, k₀.freelist = k.freelist → k₀.procs = k'.procs →
        k₀.pts = k'.pts → k'.accounted R = insert pa (k₀.accounted R) := by
      intro k₀ hf hp hpt
      exact accounted_cons (h.freelist.trans (by rw [hf])) hp.symm hpt.symm
    rw [hcons { k with procs := k'.procs, pts := k'.pts } rfl rfl rfl]
    refine congrArg (insert pa) (accounted_congr rfl (fun q => ?_) fun r _ => ?_)
    · have := countEviction_core ⟨f, some p, v * pgSize, s⟩ k q
      rw [← h.procs] at this
      exact congrArg ProcCore.trapframe this
    · change (k'.pts r).pages = _
      rw [h.pts]

theorem Evicts.kept (L : SwapLaws S) (hev : Evicts S k k') (h : Inv k g) (ho : Owns k g)
    (hpend : g.pend = none) : Kept L k k' := by
  refine hev.keeps L h ho hpend (P := Kept L k) (fun k₁ t hsame hk => ?_)
    (fun k₁ pa x hpa hk => ?_) (fun k₁ k₂ g₁ p v root pa f s _ _ hout hk => ?_) (.refl L k)
  · exact hk.trans h ho (.of_same (fun _ => rfl) (fun _ => rfl) rfl rfl rfl rfl (fun _ _ => rfl)
      rfl hsame)
  · refine hk.trans h ho (.of_same (fun _ => rfl) (fun _ => rfl) rfl rfl rfl rfl
      (fun pa' hpa' => ?_)
      rfl (.refl _))
    have hne : pa' ≠ pa := by
      rintro rfl
      exact hpa' hpa
    exact Function.update_of_ne hne _ _
  · exact hk.trans h ho hout.kept

/-! ## The failing end of a page fault -/

/-- A page that is registered and freed again leaves a cleared entry. -/
theorem registerUserFrame_freeFrameEntry {t t' : Tables} {va : ℕ}
    (hno : ∀ i, (t.frameTable i).entry ≠ (true, true, some p, va))
    (hreg : t.registerUserFrame p va = some t') :
    ∃ i, (t.frameTable i).used = false ∧
      t'.freeFrameEntry (some p) va = t.setFrame i .clear := by
  obtain ⟨i, hi, ht⟩ := registerUserFrame_eq_some hreg
  have hself : (t'.frameTable i).entry = (true, true, some p, va) := by
    rw [ht]
    simp [setFrame, Frame.entry]
  have hother : ∀ j ≠ i, t'.frameTable j = t.frameTable j := fun j hj => by
    rw [ht]
    simp [setFrame, hj]
  have hfind : t'.findFrame (some p) va = some i := by
    cases hf : t'.findFrame (some p) va with
    | none => exact absurd hself (findFrame_eq_none hf i)
    | some j =>
      have hj := findFrame_eq_some hf
      by_cases hji : j = i
      · rw [hji]
      · exact absurd (hother j hji ▸ hj) (hno j)
  refine ⟨i, hi, ?_⟩
  have hfree : t'.freeFrameEntry (some p) va = (t'.setFrame i .clear).decCount := by
    unfold freeFrameEntry
    rw [hfind]
  rw [hfree, ht]
  simp only [setFrame, decCount, Function.update_idem, Nat.add_sub_cancel]

/-- No entry of the frame table stands for a page that is not mapped. -/
theorem Inv.no_frame (h : Inv k g) (hpend : g.pend = none) (hpte : k.pte g.own p v = none)
    (i : FrameIdx) : (k.tables.frameTable i).entry ≠ (true, true, some p, v * pgSize) := by
  intro hentry
  obtain ⟨q, w, hentry', -, ⟨pa, hpa⟩ | ⟨hp, -⟩⟩ := h.tables.frame_ok i (congrArg (·.1) hentry)
  · rw [hentry] at hentry'
    simp only [Prod.mk.injEq, Option.some.injEq, true_and] at hentry'
    obtain ⟨rfl, hvw⟩ := hentry'
    obtain rfl := Nat.eq_of_mul_eq_mul_right pgSize_pos hvw
    rw [hpte] at hpa
    cases hpa
  · rw [hpend] at hp
    cases hp

/-- The frame was registered and filled, but there was no memory for the page table: the page and
its entry are given back. -/
theorem Kept.giveBack {l : List PA} {t : Tables} {dev : σ} {page : Page} {perm : Perm}
    (h : Inv k g) (hpend : g.pend = none) (hroot : k.roots p = some root)
    (hpte : k.pte g.own p v = none) (hfree : k.freelist = pa :: l)
    (hreg : k.tables.registerUserFrame p (v * pgSize) = some t)
    (hdev : L.view dev = L.view k.swap)
    (hmap : ({ k.taken pa l t with
      swap := dev, mem := Function.update (k.taken pa l t).mem pa page }).mappages root
        (v * pgSize) pa perm = .ok (false, k₂))
    (hgive : k₂.freeUserFrame p (v * pgSize) pa = .ok k') : Kept L k k' := by
  obtain ⟨_, hw, ⟨-, rfl⟩ | ⟨hfalse, -⟩⟩ := mappages_walked hmap
  swap
  · cases hfalse
  obtain ⟨i, hi, htab⟩ := registerUserFrame_freeFrameEntry (h.no_frame hpend hpte) hreg
  have hrest := hw.rest
  have htables : k₂.tables = t := by rw [hrest]; rfl
  have hprocs : k₂.procs = k.procs := by rw [hrest]; rfl
  have hswap : k₂.swap = dev := by rw [hrest]
  have hend : k₂.kernEnd = k.kernEnd := by rw [hrest]; rfl
  have htramp : k₂.trampoline = k.trampoline := by rw [hrest]; rfl
  unfold freeUserFrame at hgive
  obtain rfl := kfree_eq_ok hgive
  rw [htables, htab]
  have hleaf : ∀ r, (k₂.pts r).leaf = (k.pts r).leaf := by
    intro r
    by_cases hr : r = root
    · rw [hr, hw.leaf]
      rfl
    · rw [hw.other r hr]
      rfl
  have hsub : ∀ x ∈ k₂.freelist, x ∈ k.freelist := fun x hx => by
    rw [hfree]
    exact List.mem_cons_of_mem _ (hw.free hx)
  refine
    { core := fun q => by simp [fill, hprocs]
      level := fun q => by simp [fill, hprocs]
      kernEnd := hend
      trampoline := htramp
      leaf := fun r w => .inl (by simp [fill, hleaf])
      mid := fun r j pg hj => ?_
      low := fun r j pg hj => ?_
      mem := fun x => ?_
      free := fun x hx => .inl ?_
      swap := fun s hs => ⟨rfl, ?_⟩
      swap_new := fun s hs => .inl hs
      frame := fun j hj => ?_
      frame_lost := fun j hj => .inl ?_
      accounted := fun R hR => ?_ }
  · by_cases hr : r = root
    · subst hr
      exact hw.mid j pg hj
    · exact (congrArg (·.mid j) (hw.other r hr)).trans hj
  · by_cases hr : r = root
    · subst hr
      exact hw.low j pg hj
    · exact (congrArg (·.low j) (hw.other r hr)).trans hj
  · by_cases hx : x ∈ k.freelist
    · exact .inr (.inl hx)
    · have hne : x ≠ pa := by
        rintro rfl
        exact hx (by simp [hfree])
      have hxl : x ∉ l := fun hxl => hx (by simp [hfree, hxl])
      refine .inl ?_
      simp only [fill, Function.update_of_ne hne]
      rw [hw.mem x hxl]
      simp [taken, fill, hne]
  · rcases List.mem_cons.1 hx with rfl | hx
    · simp [hfree]
    · exact hsub x hx
  · simp only [fill, hswap, hdev]
  · by_cases hji : j = i
    · simp [fill, setFrame, hji, Frame.clear] at hj
    · simp [fill, setFrame, hji]
  · have hji : j ≠ i := by
      rintro rfl
      simp [hi] at hj
    simp [fill, setFrame, hji]
  · have hpush : ({ ({ k₂ with tables := t.freeFrameEntry (some p) (v * pgSize) } : Kernel σ).fill
        pa 1 with freelist := pa :: k₂.freelist } : Kernel σ).accounted R =
        insert pa (k₂.accounted R) := accounted_cons rfl rfl rfl
    have hpop : k.accounted R = insert pa ((k.taken pa l t).accounted R) :=
      accounted_cons hfree rfl rfl
    rw [← htab, hpush, hw.accounted R (hR p root hroot), hpop]
    rfl

/-- A failing allocation and mapping, whatever is written to the page in between. -/
theorem UserAlloc.kept {r : Option PA} (hall : UserAlloc S p (v * pgSize) k r k₁) (h : Inv k g)
    (ho : Owns k g) (hpend : g.pend = none) (hroot : g.own p = some root)
    (hpte : k.pte g.own p v = none) (hnone : r = none → k' = k₁)
    (hsome : ∀ pa, r = some pa → ∃ dev page k₂, L.view dev = L.view k₁.swap ∧
      ({ k₁ with swap := dev, mem := Function.update k₁.mem pa page } : Kernel σ).mappages root
        (v * pgSize) pa .userRw = .ok (false, k₂) ∧
      k₂.freeUserFrame p (v * pgSize) pa = .ok k') : Kept L k k' := by
  cases hall with
  | full hev =>
    rw [hnone rfl]
    exact hev.kept L h ho hpend
  | page hev hfree hreg =>
    obtain ⟨g₀, hinv, hq, hp⟩ := hev.spec L h ho hpend
    obtain ⟨dev, page, k₂, hdev, hmap, hgive⟩ := hsome _ rfl
    have hroots := (hq.owns ho p).symm.trans (hq.own ▸ hroot)
    exact (hev.kept L h ho hpend).trans h ho (.giveBack hinv hp hroots (hq.own ▸ hq.pte p v hpte)
      hfree hreg hdev hmap hgive)

theorem zeroFill_kept (L : SwapLaws S) (h : Inv k g) (ho : Owns k g) (hpend : g.pend = none)
    (hroot : g.own p = some root) (hpte : k.pte g.own p v = none)
    (hfail : k.zeroFill S p root (v * pgSize) = .ok (none, k')) : Kept L k k' := by
  obtain ⟨⟨r, k₁⟩, heq, hfail⟩ := bind_eq_ok.1 hfail
  obtain ⟨r', k₁', heq', hall⟩ := kallocUser_cases L h ho hpend p (v * pgSize)
  obtain ⟨rfl, rfl⟩ := Prod.mk.inj (Except.ok.inj (heq.symm.trans heq'))
  refine hall.kept h ho hpend hroot hpte (fun hr => ?_) fun pa hr => ?_
  · subst hr
    exact (Prod.mk.inj (Except.ok.inj hfail)).2.symm
  · subst hr
    obtain ⟨⟨b, k₂⟩, hmap, hfail⟩ := bind_eq_ok.1 hfail
    cases b with
    | true => cases hfail
    | false =>
      obtain ⟨k₃, hgive, hfail⟩ := bind_eq_ok.1 hfail
      obtain ⟨-, rfl⟩ := Prod.mk.inj (Except.ok.inj hfail)
      exact ⟨k₁.swap, fun _ => 0, k₂, rfl, hmap, hgive⟩

theorem swapIn_kept (L : SwapLaws S) (h : Inv k g) (ho : Owns k g) (hpend : g.pend = none)
    (hroot : g.own p = some root) (hpte : k.pte g.own p v = none) {i j : SlotIdx}
    (hfail : k.swapIn S p root (v * pgSize) i (some j) = .ok (none, k')) : Kept L k k' := by
  obtain ⟨⟨r, k₁⟩, heq, hfail⟩ := bind_eq_ok.1 hfail
  obtain ⟨r', k₁', heq', hall⟩ := kallocUser_cases L h ho hpend p (v * pgSize)
  obtain ⟨rfl, rfl⟩ := Prod.mk.inj (Except.ok.inj (heq.symm.trans heq'))
  refine hall.kept h ho hpend hroot hpte (fun hr => ?_) fun pa hr => ?_
  · subst hr
    exact (Prod.mk.inj (Except.ok.inj hfail)).2.symm
  · subst hr
    simp only [readSwap_eq L, Bool.true_eq_false, if_false] at hfail
    obtain ⟨⟨b, k₂⟩, hmap, hfail⟩ := bind_eq_ok.1 hfail
    cases b with
    | true => cases hfail
    | false =>
      obtain ⟨k₃, hgive, hfail⟩ := bind_eq_ok.1 hfail
      obtain ⟨-, rfl⟩ := Prod.mk.inj (Except.ok.inj hfail)
      exact ⟨_, _, k₂, L.view_read j _ _, hmap, hgive⟩

/-- Changes to the counters of a process. -/
theorem Kept.setProc (L : SwapLaws S) (k : Kernel σ) (p : ProcIdx) {f : Proc → Proc}
    (hcore : ∀ proc, (f proc).core = proc.core) (hlevel : ∀ proc, (f proc).level = proc.level) :
    Kept L k (k.setProc p f) := by
  refine .of_same (fun q => ?_) (fun q => ?_) rfl rfl rfl rfl (fun _ _ => rfl) rfl (.refl _)
  · by_cases hq : q = p
    · simp [Kernel.setProc, hq, hcore]
    · simp [Kernel.setProc, hq]
  · by_cases hq : q = p
    · simp [Kernel.setProc, hq, hlevel]
    · simp [Kernel.setProc, hq]

/-- A failing page fault, on a page that is mapped or not. -/
theorem vmfault_kept (L : SwapLaws S) (h : Inv k g) (hs : Synced k g) {va : ℕ}
    (hfail : k.vmfault S p va = .ok (none, k')) :
    Kept L k k' ∧ (k.pte k.roots p (va / pgSize) ≠ none → k'.pts = k.pts) := by
  unfold vmfault at hfail
  split at hfail
  · obtain ⟨-, rfl⟩ := Prod.mk.inj (Except.ok.inj hfail)
    exact ⟨.refl L k, fun _ => rfl⟩
  rename_i root hroot
  split at hfail
  · obtain ⟨-, rfl⟩ := Prod.mk.inj (Except.ok.inj hfail)
    exact ⟨.refl L k, fun _ => rfl⟩
  rename_i hva
  have hn := hs.size p root hroot
  have hown : g.own p = some root := (hs.own p).trans hroot
  have hat := h.pteAt_eq hn (va / pgSize)
  rw [← pte_of_own hown] at hat
  obtain ⟨v, hv⟩ : ∃ v, va / pgSize = v := ⟨_, rfl⟩
  simp only [pgRoundDown, hv] at hfail hat ⊢
  obtain ⟨mapped, hmapped, hfail⟩ := bind_eq_ok.1 hfail
  have hmapped : mapped = (k.pte g.own p v).isSome := by
    unfold ismapped at hmapped
    split at hmapped
    · cases hmapped
    · rw [← Except.ok.inj hmapped, hat]
  subst hmapped
  have hroots : k.roots = g.own := (funext hs.own).symm
  rw [hroots]
  cases hpte : k.pte g.own p v with
  | some e =>
    simp only [hpte, Option.isSome_some, if_true] at hfail
    obtain ⟨-, rfl⟩ := Prod.mk.inj (Except.ok.inj hfail)
    exact ⟨.of_same (fun _ => rfl) (fun _ => rfl) rfl rfl rfl rfl (fun _ _ => rfl) rfl
      (sameEntries_setRefBit k.tables p (v * pgSize)), fun _ => rfl⟩
  | none =>
    refine ⟨?_, fun hsome => absurd rfl hsome⟩
    simp only [hpte, Option.isSome_none, Bool.false_eq_true, if_false] at hfail
    obtain ⟨hinv, hq⟩ := h.setProc_quiet L p (f := fun proc =>
      { proc with pageFaults := proc.pageFaults + 1 }) fun _ => rfl
    have hk := Kept.setProc L k p (f := fun proc =>
      { proc with pageFaults := proc.pageFaults + 1 }) (fun _ => rfl) fun _ => rfl
    have howns := hq.owns hs.own
    generalize k.setProc p (fun proc => { proc with pageFaults := proc.pageFaults + 1 }) = k₁
      at hinv hq howns hk hfail
    refine hk.trans h hs.own ?_
    cases hf : k₁.tables.findSwap p (v * pgSize) with
    | some i =>
      simp only [hf, hinv.tables.swapMap_eq (findSwap_eq_some hf)] at hfail
      exact swapIn_kept L hinv howns hs.pend hown (hq.pte p v hpte) hfail
    | none =>
      simp only [hf] at hfail
      exact zeroFill_kept L hinv howns hs.pend hown (hq.pte p v hpte) hfail

/-! ## The theorem -/

/-- A page fault keeps the invariant and all pages, whether or not it is below the size. -/
theorem vmfault_stays (L : SwapLaws S) (h : Inv k g) (hs : Synced k g) {va : ℕ} {r : Option PA}
    (heq : k.vmfault S p va = .ok (r, k')) : ∃ g', Inv k' g' ∧ Synced k' g' ∧ Stays L k k' := by
  cases hroot : (k.procs p).pagetable with
  | none =>
    simp only [vmfault, hroot] at heq
    obtain ⟨-, rfl⟩ := Prod.mk.inj (Except.ok.inj heq)
    exact ⟨g, h, hs, .refl L k⟩
  | some root =>
    by_cases hva : va < (k.procs p).sz
    · obtain ⟨r', k'', g', heq', hf⟩ := vmfault_spec L h hs hroot hva
      obtain ⟨rfl, rfl⟩ := Prod.mk.inj (Except.ok.inj (heq.symm.trans heq'))
      exact ⟨g', hf.inv, hf.synced hs, hf.stays hs⟩
    · simp only [vmfault, hroot, if_pos (Nat.not_lt.1 hva)] at heq
      obtain ⟨-, rfl⟩ := Prod.mk.inj (Except.ok.inj heq)
      exact ⟨g, h, hs, .refl L k⟩

/-- The roots of the processes' page tables. -/
def tableRoots (k : Kernel σ) : Set PA := {root | ∃ q, k.roots q = some root}

/-- A free page is on the free list once, and is not in use. -/
structure FreeOnce (k : Kernel σ) : Prop where
  nodup : k.freelist.Nodup
  trapframe : ∀ pa ∈ k.freelist, ∀ q, (k.procs q).trapframe ≠ some pa
  table : ∀ pa ∈ k.freelist, ∀ root ∈ k.tableRoots, pa ≠ root ∧ pa ∉ (k.pts root).pages

theorem Inv.freeOnce (h : Inv k g) (hs : Synced k g) : FreeOnce k where
  nodup := h.pages.nodup
  trapframe pa hpa q hq := by
    have := h.pages.free_use pa hpa
    simp [h.trapframe q pa hq] at this
  table pa hpa root := by
    rintro ⟨q, hq⟩
    have hfree := h.pages.free_use pa hpa
    have hpt := h.pt root _ (hs.size q root hq)
    constructor
    · rintro rfl
      simp [hpt.root_use] at hfree
    · rintro (⟨i, hi⟩ | ⟨j, hj⟩ | ⟨v, e, hv, he, rfl⟩)
      · simp [hpt.mid_use i pa hi] at hfree
      · simp [hpt.low_use j pa hj] at hfree
      · simp [(hpt.leaf_user he hv).2] at hfree

/-- What a failing page fault of `p` on `va` leaves. -/
structure RolledBack (L : SwapLaws S) (p : ProcIdx) (va : ℕ) (k k' : Kernel σ) : Prop where
  sound : k'.Sound
  kept : Kept L k k'
  other : ∀ q w pa, Displaced L k k' q w pa → (q, w) ≠ (p, va / pgSize)
  logical : ∀ q w, w < vpn trapframeVa → k'.logical L k'.roots q w = k.logical L k.roots q w
  unmapped : k.pte k.roots p (va / pgSize) = none → k'.pte k'.roots p (va / pgSize) = none ∧
    ∀ i, ¬ ((k'.tables.frameTable i).used = true ∧ (k'.tables.frameTable i).proc = some p ∧
      (k'.tables.frameTable i).va = pgRoundDown va)
  swapped : ∀ s, (k.tables.swapMap s).Holds p (pgRoundDown va) →
    k'.tables.swapMap s = k.tables.swapMap s ∧ k'.tables.swapUsed s = true ∧
      L.view k'.swap s = L.view k.swap s
  count : k'.tables.userFrameCount = k'.tables.usedFrames.card
  pages : k'.accounted k'.tableRoots = k.accounted k.tableRoots
  freeOnce : FreeOnce k'

/-- **A failing page fault rolls back.** Whatever evictions it made and wherever it failed, all
pages of all processes have their contents, the page has no frame entry and no mapping that it did
not have, its slot in swap is still its own, and no page is lost or freed twice. -/
theorem vmfault_rolls_back (L : SwapLaws S) (h : k.Sound) {va : ℕ}
    (hfail : k.vmfault S p va = .ok (none, k')) : RolledBack L p va k k' := by
  obtain ⟨g, hinv, hs⟩ := h
  obtain ⟨hkept, hmapped⟩ := vmfault_kept L hinv hs hfail
  obtain ⟨g', hinv', hs', hstays⟩ := vmfault_stays L hinv hs hfail
  have hroots : k.roots = g.own := (funext hs.own).symm
  have hroots' : k'.roots = g'.own := (funext hs'.own).symm
  have hsame : k.pte k.roots p (va / pgSize) ≠ none →
      k'.pte k.roots p (va / pgSize) = k.pte k.roots p (va / pgSize) := fun hsome => by
    simp only [pte, hmapped hsome]
  refine ⟨⟨g', hinv', hs'⟩, hkept, ?_, hstays.logical, fun hnone => ?_, fun s hs => ?_,
    hinv'.tables.count_eq, ?_, hinv'.freeOnce hs'⟩
  · rintro q w pa hm ⟨⟩
    obtain ⟨perm, hbefore⟩ := hm.before
    have hafter := hm.after
    rw [hsame (by simp [hbefore]), hbefore] at hafter
    cases hafter
  · have hnone' : k'.pte k.roots p (va / pgSize) = none := by
      cases hp : k.roots p with
      | none => simp [pte, hp]
      | some r =>
        rw [pte_of_own hp] at hnone ⊢
        rcases hkept.leaf r (va / pgSize) with hleaf | ⟨q, pa, hq, hm⟩
        · rw [hleaf, hnone]
        · rw [← pte_of_own hq]
          exact hm.after
    rw [hkept.roots]
    refine ⟨hnone', ?_⟩
    rintro i ⟨hused, hproc, hva⟩
    refine hinv'.no_frame hs'.pend (by rw [← hroots', hkept.roots]; exact hnone') i ?_
    obtain ⟨q, w, hentry, -⟩ := hinv'.tables.frame_ok i hused
    rw [hentry]
    simp only [Frame.entry, Prod.mk.injEq] at hentry
    rw [← hentry.2.2.1, ← hentry.2.2.2, hproc, hva, pgRoundDown]
  · obtain ⟨hmap, hview⟩ := hkept.swap s hs.1
    exact ⟨hmap, by rw [hinv'.tables.used_iff, hmap, hs.1], hview⟩
  · have htab : k'.tableRoots = k.tableRoots := by simp only [tableRoots, hkept.roots]
    rw [htab]
    exact hkept.accounted _ fun q root hq => ⟨q, hq⟩

/-- Less memory is free. -/
theorem Sound.take (h : k.Sound) (n : ℕ) :
    ({ k with freelist := k.freelist.take n } : Kernel σ).Sound := by
  obtain ⟨g, hinv, hs⟩ := h
  have hpages : PagesOk (k.freelist.take n) k.kernEnd g.use :=
    ⟨fun pa hpa => hinv.pages.free_use pa (List.mem_of_mem_take hpa),
      hinv.pages.nodup.sublist (List.take_sublist ..), hinv.pages.managed⟩
  exact ⟨g, ⟨hpages, hinv.pt, hinv.own_size, hinv.own_inj, hinv.trapframe, hinv.tables⟩, hs.own,
    hs.size, hs.pend⟩

/-- The only process, when there are two free pages: one for the page in swap, and one of the two
that its page table needs. -/
def scarce : Kernel Raid.Dev := { sole with freelist := sole.freelist.take 2 }

theorem scarce_sound : scarce.Sound := sole_sound.take 2

theorem scarce_fails : (match scarce.vmfault (raidSwap .raid5) soleProc 1 with
    | .ok (none, k') => decide (k'.freelist = [soleRoot + 0x1000])
    | _ => false) = true := by
  decide +kernel

/-- The swapped page stays in its slot; the frame that was meant for it is free again, and the page
table has kept an interior page. -/
theorem vmfault_rolls_back_scarce : scarce.Sound ∧ ∃ k',
    scarce.vmfault (raidSwap .raid5) soleProc 1 = .ok (none, k') ∧
      k'.freelist = [soleRoot + 0x1000] ∧
      RolledBack (raidSwapLaws .raid5) soleProc 1 scarce k' := by
  have hfails := scarce_fails
  split at hfails
  · rename_i k' heq
    exact ⟨scarce_sound, k', heq, of_decide_eq_true hfails,
      vmfault_rolls_back (raidSwapLaws .raid5) scarce_sound heq⟩
  · cases hfails

end Xv6Swap.Paging.Kernel
