import Xv6Swap.Paging.NoTrace
import Xv6Swap.Paging.Sbrk

/-!
# How pages move

What matters to the accounting of resident pages is which frame entries are in use and for what,
the mappings, and the counter of resident pages. A page fault, run to completion, is a sequence of
steps that keep all of that (`SameView`), take a page out (`SwapsOut`) or bring one in (`PageIn`):
`vmfault_moves`. So what each of the three keeps is kept by page faults and by everything that is
made of them, such as the copy of an exit status (`copyStatus_moves`).
-/

namespace Xv6Swap.Paging

/-- What a frame entry that is in use stands for. -/
def Frame.page (f : Frame) : Option (Bool × Option ProcIdx × ℕ) :=
  if f.used then some (f.userFrame, f.proc, f.va) else none

theorem Frame.page_congr {f f' : Frame} (h : f'.entry = f.entry) : f'.page = f.page := by
  simp only [Frame.entry, Prod.mk.injEq] at h
  simp [Frame.page, h]

theorem Frame.page_of_unused {f : Frame} (h : f.used = false) : f.page = none := by
  simp [Frame.page, h]

/-- A process without its counters. -/
def Proc.shape (p : Proc) : ProcState × ℕ × Option PA × Option PA :=
  (p.state, p.sz, p.pagetable, p.trapframe)

namespace Kernel

open Raid (Page pgSize)
open Tables

variable {σ : Type} {S : SwapOps σ} {L : SwapLaws S} {k k' k₁ k₂ : Kernel σ} {g : Ghost}
  {root pa : PA} {v : ℕ} {p : ProcIdx} {i : FrameIdx}

/-- The frame entries in use, the processes and the mappings are the same. -/
structure SameView (k k' : Kernel σ) : Prop where
  frame : ∀ i, (k'.tables.frameTable i).page = (k.tables.frameTable i).page
  shape : ∀ q, (k'.procs q).shape = (k.procs q).shape
  resident : ∀ q, (k'.procs q).residentPages = (k.procs q).residentPages
  leaf : ∀ r, (k'.pts r).leaf = (k.pts r).leaf

theorem SameView.of_same (hframe : SameEntries k.tables k'.tables) (hprocs : k'.procs = k.procs)
    (hpts : k'.pts = k.pts) : SameView k k' :=
  ⟨fun i => Frame.page_congr (hframe.frame i), fun _ => by rw [hprocs], fun _ => by rw [hprocs],
    fun _ => by rw [hpts]⟩

/-- Page `v` of `p` is mapped to `pa` and entered in the entry `i`. -/
structure PageIn (p : ProcIdx) (v : ℕ) (root pa : PA) (i : FrameIdx) (k k' : Kernel σ) :
    Prop where
  pagetable : (k.procs p).pagetable = some root
  unused : (k.tables.frameTable i).used = false
  frame_self : (k'.tables.frameTable i).page = some (true, some p, v * pgSize)
  frame_other : ∀ j ≠ i, (k'.tables.frameTable j).page = (k.tables.frameTable j).page
  shape : ∀ q, (k'.procs q).shape = (k.procs q).shape
  resident : ∀ q, (k'.procs q).residentPages =
    (k.procs q).residentPages + if q = p then 1 else 0
  leaf_self : (k'.pts root).leaf = Function.update (k.pts root).leaf v (some ⟨pa, .userRw⟩)
  leaf_other : ∀ r ≠ root, (k'.pts r).leaf = (k.pts r).leaf

/-- Nothing moves, or one page does. -/
inductive MoveStep (S : SwapOps σ) (k k' : Kernel σ) : Prop
  | same (h : SameView k k')
  | pageOut {p : ProcIdx} {v : ℕ} {root pa : PA} {f : FrameIdx} {s : SlotIdx}
      (h : SwapsOut S p v root pa f s k k')
  | pageIn {p : ProcIdx} {v : ℕ} {root pa : PA} {i : FrameIdx} (h : PageIn p v root pa i k k')

/-- Any number of such steps. -/
def Moves (S : SwapOps σ) : Kernel σ → Kernel σ → Prop := Relation.ReflTransGen (MoveStep S)

theorem Moves.refl (S : SwapOps σ) (k : Kernel σ) : Moves S k k := Relation.ReflTransGen.refl

theorem Moves.trans {k'' : Kernel σ} (h : Moves S k k') (h' : Moves S k' k'') : Moves S k k'' :=
  Relation.ReflTransGen.trans h h'

theorem MoveStep.moves (h : MoveStep S k k') : Moves S k k' := Relation.ReflTransGen.single h

theorem SameView.moves (S : SwapOps σ) (h : SameView k k') : Moves S k k' :=
  (MoveStep.same h).moves

/-- What every step keeps is kept. -/
theorem Moves.keeps {P : Kernel σ → Prop} (h : Moves S k k')
    (hstep : ∀ k k', MoveStep S k k' → P k → P k') (h₀ : P k) : P k' := by
  induction h with
  | refl => exact h₀
  | tail _ hs ih => exact hstep _ _ hs ih

/-! ## Page faults -/

theorem Evicts.moves (L : SwapLaws S) (hev : Evicts S k k') (h : Inv k g) (ho : Owns k g)
    (hpend : g.pend = none) : Moves S k k' := by
  refine hev.keeps L h ho hpend (P := Moves S k) (fun k₁ t hsame hk => ?_)
    (fun k₁ pa x _ hk => ?_) (fun k₁ k₂ g₁ p v root pa f s _ _ hout hk => ?_) (.refl S k)
  · have hview : SameView k₁ { k₁ with tables := t } := .of_same hsame rfl rfl
    exact hk.trans (hview.moves S)
  · have hview : SameView k₁ { k₁ with mem := Function.update k₁.mem pa x } :=
      .of_same (.refl _) rfl rfl
    exact hk.trans (hview.moves S)
  · exact hk.trans (MoveStep.pageOut hout).moves

/-- A page that was registered is given back, as there is no memory for the page table. -/
theorem SameView.giveBack {l : List PA} {t : Tables} {dev : σ} {page : Page} {perm : Perm}
    (h : Inv k g) (hpend : g.pend = none) (hpte : k.pte g.own p v = none)
    (hreg : k.tables.registerUserFrame p (v * pgSize) = some t)
    (hmap : ({ k.taken pa l t with
      swap := dev, mem := Function.update (k.taken pa l t).mem pa page }).mappages root
        (v * pgSize) pa perm = .ok (false, k₂))
    (hgive : k₂.freeUserFrame p (v * pgSize) pa = .ok k') : SameView k k' := by
  obtain ⟨_, hw, ⟨-, rfl⟩ | ⟨hfalse, -⟩⟩ := mappages_walked hmap
  swap
  · cases hfalse
  obtain ⟨i, hi, htab⟩ := registerUserFrame_freeFrameEntry (h.no_frame hpend hpte) hreg
  have htables : k₂.tables = t := by rw [hw.rest]; rfl
  have hprocs : k₂.procs = k.procs := by rw [hw.rest]; rfl
  unfold freeUserFrame at hgive
  obtain rfl := kfree_eq_ok hgive
  rw [htables, htab]
  refine ⟨fun j => ?_, fun q => by rw [← hprocs]; rfl, fun q => by rw [← hprocs]; rfl,
    fun r => ?_⟩
  · by_cases hji : j = i
    · subst hji
      rw [Frame.page_of_unused hi]
      simp [fill, setFrame, Frame.page, Frame.clear]
    · simp [fill, setFrame, hji]
  · by_cases hr : r = root
    · subst hr
      exact hw.leaf
    · exact congrArg PageTable.leaf (hw.other r hr)

/-- A page that was registered is mapped. The rest of the page fault does not touch what the entries
stand for. -/
theorem PageIn.install {l : List PA} {t t' : Tables} {dev : σ} {page : Page}
    (hroot : (k.procs p).pagetable = some root)
    (hreg : k.tables.registerUserFrame p (v * pgSize) = some t)
    (hmap : ({ k.taken pa l t with
      swap := dev, mem := Function.update (k.taken pa l t).mem pa page }).mappages root
        (v * pgSize) pa .userRw = .ok (true, k₂))
    (hsame : ∀ j, (t'.frameTable j).entry = (k₂.tables.frameTable j).entry) {f : Proc → Proc}
    (hshape : ∀ proc, (f proc).shape = proc.shape)
    (hres : ∀ proc, (f proc).residentPages = proc.residentPages + 1) :
    ∃ i, PageIn p v root pa i k (({ k₂ with tables := t' } : Kernel σ).setProc p f) := by
  obtain ⟨k₃, hw, ⟨hfalse, -⟩ | ⟨-, -, rfl⟩⟩ := mappages_walked hmap
  · cases hfalse
  obtain ⟨i, hi, ht⟩ := registerUserFrame_eq_some hreg
  have htables : k₃.tables = t := by rw [hw.rest]; rfl
  have hprocs : k₃.procs = k.procs := by rw [hw.rest]; rfl
  have hentry : ∀ j, (t'.frameTable j).page = (t.frameTable j).page := fun j => by
    rw [← htables]
    exact Frame.page_congr (hsame j)
  have hproc : ∀ q, ((({ k₃.setLeaf root (v * pgSize) (some ⟨pa, .userRw⟩) with
      tables := t' } : Kernel σ).setProc p f).procs q) =
        if q = p then f (k.procs p) else k.procs q := by
    intro q
    by_cases hq : q = p <;> simp [setProc, setLeaf, setPt, hq, hprocs]
  refine ⟨i, hroot, hi, (hentry i).trans ?_, fun j hj => (hentry j).trans ?_, fun q => ?_,
    fun q => ?_, ?_, fun r hr => ?_⟩
  · simp [ht, setFrame, Frame.page]
  · simp [ht, setFrame, hj]
  · rw [hproc]
    split
    · rename_i hq
      rw [hq, hshape]
    · rfl
  · rw [hproc]
    split
    · rename_i hq
      rw [hq, hres]
    · simp
  · change (Function.update k₃.pts root _ root).leaf = _
    rw [Function.update_self]
    dsimp only
    rw [vpn_mul, hw.leaf]
    rfl
  · change (Function.update k₃.pts root _ r).leaf = _
    rw [Function.update_of_ne hr, hw.other r hr]
    rfl

/-- How a page fault goes on with the page `pa` that `kalloc_user` returned in `k`. -/
def Finishes (p : ProcIdx) (v : ℕ) (root pa : PA) (k k' : Kernel σ) : Prop :=
  ∃ (dev : σ) (page : Page) (b : Bool) (k₂ : Kernel σ),
    ({ k with swap := dev, mem := Function.update k.mem pa page } : Kernel σ).mappages root
      (v * pgSize) pa .userRw = .ok (b, k₂) ∧
    (b = false → k₂.freeUserFrame p (v * pgSize) pa = .ok k') ∧
    (b = true → ∃ (t : Tables) (f : Proc → Proc),
      k' = ({ k₂ with tables := t } : Kernel σ).setProc p f ∧
      (∀ j, (t.frameTable j).entry = (k₂.tables.frameTable j).entry) ∧
      (∀ proc, (f proc).shape = proc.shape) ∧
      ∀ proc, (f proc).residentPages = proc.residentPages + 1)

theorem UserAlloc.moves {r : Option PA} (L : SwapLaws S)
    (hall : UserAlloc S p (v * pgSize) k r k₁) (h : Inv k g) (ho : Owns k g)
    (hpend : g.pend = none) (hroot : g.own p = some root) (hpte : k.pte g.own p v = none)
    (hnone : r = none → k' = k₁) (hsome : ∀ pa, r = some pa → Finishes p v root pa k₁ k') :
    Moves S k k' := by
  cases hall with
  | full hev =>
    rw [hnone rfl]
    exact hev.moves L h ho hpend
  | @page k₀ pa l t hev hfree hreg =>
    obtain ⟨g₀, hinv, hq, hp⟩ := hev.spec L h ho hpend
    have hroots : (k₀.procs p).pagetable = some root := (hq.owns ho p).symm.trans (hq.own ▸ hroot)
    obtain ⟨dev, page, b, k₂, hmap, hfail, hdone⟩ := hsome pa rfl
    refine (hev.moves L h ho hpend).trans ?_
    cases b with
    | false =>
      exact (SameView.giveBack hinv hp (hq.own ▸ hq.pte p v hpte) hreg hmap (hfail rfl)).moves S
    | true =>
      obtain ⟨t', f, rfl, hsame, hshape, hres⟩ := hdone rfl
      obtain ⟨i, hin⟩ := PageIn.install hroots hreg hmap hsame hshape hres
      exact (MoveStep.pageIn hin).moves

theorem zeroFill_moves {r : Option PA} (L : SwapLaws S) (h : Inv k g) (ho : Owns k g)
    (hpend : g.pend = none) (hroot : g.own p = some root) (hpte : k.pte g.own p v = none)
    (heq : k.zeroFill S p root (v * pgSize) = .ok (r, k')) : Moves S k k' := by
  obtain ⟨⟨o, k₁⟩, halloc, heq⟩ := bind_eq_ok.1 heq
  obtain ⟨_, _, halloc', hall⟩ := kallocUser_cases L h ho hpend p (v * pgSize)
  obtain ⟨rfl, rfl⟩ := Prod.mk.inj (Except.ok.inj (halloc.symm.trans halloc'))
  refine hall.moves L h ho hpend hroot hpte (fun ho => ?_) fun pa ho => ?_
  · subst ho
    exact (Prod.mk.inj (Except.ok.inj heq)).2.symm
  · subst ho
    obtain ⟨⟨b, k₂⟩, hmap, heq⟩ := bind_eq_ok.1 heq
    refine ⟨k₁.swap, fun _ => 0, b, k₂, hmap, ?_, ?_⟩
    · rintro rfl
      obtain ⟨k₃, hgive, heq⟩ := bind_eq_ok.1 heq
      obtain ⟨-, rfl⟩ := Prod.mk.inj (Except.ok.inj heq)
      exact hgive
    · rintro rfl
      obtain ⟨-, rfl⟩ := Prod.mk.inj (Except.ok.inj heq)
      exact ⟨k₂.tables.setRefBit p (v * pgSize), _, rfl,
        (sameEntries_setRefBit k₂.tables p (v * pgSize)).frame, fun _ => rfl, fun _ => rfl⟩

theorem swapIn_moves {r : Option PA} (L : SwapLaws S) (h : Inv k g) (ho : Owns k g)
    (hpend : g.pend = none) (hroot : g.own p = some root) (hpte : k.pte g.own p v = none)
    {s s' : SlotIdx} (heq : k.swapIn S p root (v * pgSize) s (some s') = .ok (r, k')) :
    Moves S k k' := by
  obtain ⟨⟨o, k₁⟩, halloc, heq⟩ := bind_eq_ok.1 heq
  obtain ⟨_, _, halloc', hall⟩ := kallocUser_cases L h ho hpend p (v * pgSize)
  obtain ⟨rfl, rfl⟩ := Prod.mk.inj (Except.ok.inj (halloc.symm.trans halloc'))
  refine hall.moves L h ho hpend hroot hpte (fun ho => ?_) fun pa ho => ?_
  · subst ho
    exact (Prod.mk.inj (Except.ok.inj heq)).2.symm
  · subst ho
    simp only [readSwap_eq L, Bool.true_eq_false, if_false] at heq
    obtain ⟨⟨b, k₂⟩, hmap, heq⟩ := bind_eq_ok.1 heq
    refine ⟨_, _, b, k₂, hmap, ?_, ?_⟩
    · rintro rfl
      obtain ⟨k₃, hgive, heq⟩ := bind_eq_ok.1 heq
      obtain ⟨-, rfl⟩ := Prod.mk.inj (Except.ok.inj heq)
      exact hgive
    · rintro rfl
      obtain ⟨-, rfl⟩ := Prod.mk.inj (Except.ok.inj heq)
      exact ⟨(k₂.tables.setRefBit p (v * pgSize)).releaseSwap s (some s'), _, rfl,
        (sameEntries_setRefBit k₂.tables p (v * pgSize)).frame, fun _ => rfl, fun _ => rfl⟩

/-- **A page fault** moves pages. -/
theorem vmfault_moves (L : SwapLaws S) (h : k.Sound) {va : ℕ} {r : Option PA}
    (heq : k.vmfault S p va = .ok (r, k')) : Moves S k k' := by
  obtain ⟨g, h, hs⟩ := h
  unfold vmfault at heq
  split at heq
  · obtain ⟨-, rfl⟩ := Prod.mk.inj (Except.ok.inj heq)
    exact .refl S k
  rename_i root hroot
  split at heq
  · obtain ⟨-, rfl⟩ := Prod.mk.inj (Except.ok.inj heq)
    exact .refl S k
  have hn := hs.size p root hroot
  have hown : g.own p = some root := (hs.own p).trans hroot
  have hat := h.pteAt_eq hn (va / pgSize)
  rw [← pte_of_own hown] at hat
  obtain ⟨v, hv⟩ : ∃ v, va / pgSize = v := ⟨_, rfl⟩
  simp only [pgRoundDown, hv] at heq hat
  obtain ⟨mapped, hmapped, heq⟩ := bind_eq_ok.1 heq
  have hmapped : mapped = (k.pte g.own p v).isSome := by
    unfold ismapped at hmapped
    split at hmapped
    · cases hmapped
    · rw [← Except.ok.inj hmapped, hat]
  subst hmapped
  cases hpte : k.pte g.own p v with
  | some e =>
    simp only [hpte, Option.isSome_some, if_true] at heq
    obtain ⟨-, rfl⟩ := Prod.mk.inj (Except.ok.inj heq)
    have hview : SameView k { k with tables := k.tables.setRefBit p (v * pgSize) } :=
      .of_same (sameEntries_setRefBit k.tables p (v * pgSize)) rfl rfl
    exact hview.moves S
  | none =>
    simp only [hpte, Option.isSome_none, Bool.false_eq_true, if_false] at heq
    obtain ⟨hinv, hq⟩ := h.setProc_quiet L p (f := fun proc =>
      { proc with pageFaults := proc.pageFaults + 1 }) fun _ => rfl
    have hview : SameView k (k.setProc p fun proc =>
        { proc with pageFaults := proc.pageFaults + 1 }) := by
      refine ⟨fun _ => rfl, fun q => ?_, fun q => ?_, fun _ => rfl⟩
      · by_cases hq : q = p <;> simp [setProc, hq, Proc.shape]
      · by_cases hq : q = p <;> simp [setProc, hq]
    have howns := hq.owns hs.own
    generalize k.setProc p (fun proc => { proc with pageFaults := proc.pageFaults + 1 }) = k₁
      at hinv hq howns hview heq
    refine (hview.moves S).trans ?_
    cases hf : k₁.tables.findSwap p (v * pgSize) with
    | some i =>
      simp only [hf, hinv.tables.swapMap_eq (findSwap_eq_some hf)] at heq
      exact swapIn_moves L hinv howns hs.pend hown (hq.pte p v hpte) heq
    | none =>
      simp only [hf] at heq
      exact zeroFill_moves L hinv howns hs.pend hown (hq.pte p v hpte) heq

/-! ## Copying the exit status -/

theorem copyoutPage_moves (L : SwapLaws S) (h : k.Sound) {dstva : ℕ} {src : List Raid.Byte}
    {b : Bool} (heq : k.copyoutPage S p root dstva src = .ok (b, k')) :
    Moves S k k' ∧ k'.Sound := by
  unfold copyoutPage at heq
  dsimp only at heq
  split at heq
  · obtain ⟨-, rfl⟩ := Prod.mk.inj (Except.ok.inj heq)
    exact ⟨.refl S k, h⟩
  obtain ⟨⟨r, k₁⟩, hpage, heq⟩ := bind_eq_ok.1 heq
  have h₁ : Moves S k k₁ ∧ k₁.Sound := by
    unfold userPage at hpage
    split at hpage
    · obtain ⟨-, rfl⟩ := Prod.mk.inj (Except.ok.inj hpage)
      exact ⟨.refl S k, h⟩
    · obtain ⟨g, hinv, hs⟩ := id h
      obtain ⟨g', hinv', hs', -⟩ := vmfault_stays L hinv hs hpage
      exact ⟨vmfault_moves L h hpage, g', hinv', hs'⟩
  cases r with
  | none =>
    obtain ⟨-, rfl⟩ := Prod.mk.inj (Except.ok.inj heq)
    exact h₁
  | some pa =>
    dsimp only at heq
    split at heq
    · obtain ⟨-, rfl⟩ := Prod.mk.inj (Except.ok.inj heq)
      exact h₁
    split at heq
    · obtain ⟨-, rfl⟩ := Prod.mk.inj (Except.ok.inj heq)
      exact h₁
    · obtain ⟨-, rfl⟩ := Prod.mk.inj (Except.ok.inj heq)
      obtain ⟨hm, g, hinv, hs⟩ := h₁
      have hview : SameView k₁ (k₁.copyBytes pa (dstva - pgRoundDown dstva) src) :=
        .of_same (.refl _) rfl rfl
      exact ⟨hm.trans (hview.moves S), g, hinv.congr rfl rfl rfl (fun _ => rfl) (.refl _),
        hs.own, hs.size, hs.pend⟩

theorem copyoutLoop_moves (L : SwapLaws S) (rounds : ℕ) (h : k.Sound) {dstva : ℕ}
    {src : List Raid.Byte} {b : Bool}
    (heq : k.copyoutLoop S p root rounds dstva src = .ok (b, k')) : Moves S k k' ∧ k'.Sound := by
  induction rounds generalizing k dstva src with
  | zero =>
    obtain ⟨-, rfl⟩ := Prod.mk.inj (Except.ok.inj heq)
    exact ⟨.refl S k, h⟩
  | succ rounds ih =>
    unfold copyoutLoop at heq
    split at heq
    · obtain ⟨-, rfl⟩ := Prod.mk.inj (Except.ok.inj heq)
      exact ⟨.refl S k, h⟩
    obtain ⟨⟨ok, k₁⟩, hpage, heq⟩ := bind_eq_ok.1 heq
    obtain ⟨hm, h₁⟩ := copyoutPage_moves L h hpage
    cases ok with
    | false =>
      obtain ⟨-, rfl⟩ := Prod.mk.inj (Except.ok.inj heq)
      exact ⟨hm, h₁⟩
    | true =>
      obtain ⟨hm', h'⟩ := ih h₁ heq
      exact ⟨hm.trans hm', h'⟩

theorem copyStatus_moves (L : SwapLaws S) (h : k.Sound) {q : ProcIdx} {addr : ℕ} {b : Bool}
    (heq : k.copyStatus S p q addr = .ok (b, k')) : Moves S k k' ∧ k'.Sound := by
  unfold copyStatus at heq
  split at heq
  · obtain ⟨-, rfl⟩ := Prod.mk.inj (Except.ok.inj heq)
    exact ⟨.refl S k, h⟩
  split at heq
  · obtain ⟨-, rfl⟩ := Prod.mk.inj (Except.ok.inj heq)
    exact ⟨.refl S k, h⟩
  · exact copyoutLoop_moves L _ h heq

end Kernel

end Xv6Swap.Paging
