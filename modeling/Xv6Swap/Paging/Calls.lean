import Xv6Swap.Paging.Moves

/-!
# Runs of page faults and system calls

`MemCall` is what moves, makes or frees user pages outside `exec`: page faults, evictions, `sbrk`,
`fork`, `exit` and `wait`, each run to completion. `MemEffect` says what each call can do to the
frame entries, the mappings and the counters of resident pages, and `memCall_spec` that it does one
of that. Everything about runs of such calls (`MemRuns`) follows from it.
-/

namespace Xv6Swap.Paging

open Raid (pgSize)

/-- The operations on user pages. -/
inductive MemCall
  | fault (p : ProcIdx) (va : ℕ)
  | evict
  | sbrk (p : ProcIdx) (n : Int32) (eager : Bool)
  | fork (p : ProcIdx)
  | exit (p : ProcIdx) (status : BitVec 32)
  | wait (p q : ProcIdx) (addr : ℕ)

namespace Kernel

open Tables

variable {σ : Type} {S : SwapOps σ} {L : SwapLaws S} {k k' : Kernel σ} {g g' : Ghost}
  {root : PA} {m n v : ℕ} {p q cur : ProcIdx} {c : MemCall}

/-- The call can be made: its process can run, and the process that is waited for has exited. -/
def Callable (k : Kernel σ) : MemCall → Prop
  | .fault p _ => k.Alive p
  | .evict => True
  | .sbrk p _ _ => k.Alive p
  | .fork p => k.Alive p
  | .exit p _ => k.Alive p
  | .wait p q _ => k.Alive p ∧ (k.procs q).state = .zombie

instance callableDecidable (k : Kernel σ) : (c : MemCall) → Decidable (k.Callable c)
  | .fault p _ => inferInstanceAs (Decidable (k.Alive p))
  | .evict => inferInstanceAs (Decidable True)
  | .sbrk p _ _ => inferInstanceAs (Decidable (k.Alive p))
  | .fork p => inferInstanceAs (Decidable (k.Alive p))
  | .exit p _ => inferInstanceAs (Decidable (k.Alive p))
  | .wait _ _ _ => inferInstanceAs (Decidable (_ ∧ _))

def memCall (S : SwapOps σ) (c : MemCall) (k : Kernel σ) : Result (Kernel σ) :=
  match c with
  | .fault p va => do
    let (_, k) ← k.vmfault S p va
    return k
  | .evict => do
    let (_, k) ← k.evictOneUserFrame S
    return k
  | .sbrk p n eager => do
    let (_, k) ← k.sysSbrk p n.toInt eager
    return k
  | .fork p => do
    let (_, k) ← k.kfork S p
    return k
  | .exit p status => .ok (k.kexit p status)
  | .wait p q addr => do
    let (_, k) ← k.kwait S p q addr
    return k

/-- A run of calls that are made only where `C` allows them. -/
inductive MemRuns (S : SwapOps σ) (C : Kernel σ → MemCall → Prop) (k₀ : Kernel σ) :
    List MemCall → Kernel σ → Prop
  | nil : MemRuns S C k₀ [] k₀
  | snoc {cs : List MemCall} {k k' : Kernel σ} {c : MemCall} (h : MemRuns S C k₀ cs k)
      (hcall : k.Callable c) (hC : C k c) (heq : k.memCall S c = .ok k') :
      MemRuns S C k₀ (cs ++ [c]) k'

/-- Perform calls one after another, as long as they can be made. -/
def memCalls (S : SwapOps σ) (C : Kernel σ → MemCall → Prop) [∀ k c, Decidable (C k c)] :
    List MemCall → Kernel σ → Option (Kernel σ)
  | [], k => some k
  | c :: cs, k =>
    if k.Callable c ∧ C k c then
      match k.memCall S c with
      | .ok k' => memCalls S C cs k'
      | .error _ => none
    else none

theorem memRuns_of_memCalls {C : Kernel σ → MemCall → Prop} [∀ k c, Decidable (C k c)]
    {k₀ : Kernel σ} {done cs : List MemCall} (hrun : MemRuns S C k₀ done k)
    (h : memCalls S C cs k = some k') : MemRuns S C k₀ (done ++ cs) k' := by
  induction cs generalizing done k with
  | nil =>
    obtain rfl := Option.some.inj h
    rwa [List.append_nil]
  | cons c cs ih =>
    rw [memCalls] at h
    split at h
    · rename_i hc
      split at h
      · rename_i k₁ heq
        have hrest := ih (hrun.snoc hc.1 hc.2 heq) h
        rwa [List.append_assoc] at hrest
      · cases h
    · cases h

/-! ## What `sbrk` does -/

/-- The size of `p` is changed. Frame entries are dropped for pages that are unmapped, and pages are
mapped if the growth is eager. -/
structure Resizes (p : ProcIdx) (d : ℤ) (eager : Bool) (k k' : Kernel σ) : Prop where
  procs : ∃ sz', k'.procs = (k.setProc p fun proc => { proc with sz := sz' }).procs
  frame : ∀ i, (k'.tables.frameTable i).page = (k.tables.frameTable i).page ∨
    d < 0 ∧ ∃ w, npages (addSize (k.procs p).sz d) ≤ w ∧
      (k.tables.frameTable i).page = some (true, some p, w * pgSize) ∧
      (k'.tables.frameTable i).page = none ∧ k'.pte k'.roots p w = none
  pte : ∀ q w, w < vpn trapframeVa → k'.pte k'.roots q w = k.pte k.roots q w ∨
    k'.pte k'.roots q w = none ∨ q = p ∧ eager = true ∧ 0 < d ∧
      addSize (k.procs p).sz d ≤ trapframeVa ∧ npages (k.procs p).sz ≤ w ∧
      w < npages (addSize (k.procs p).sz d)

theorem Resizes.refl (p : ProcIdx) (d : ℤ) (eager : Bool) (k : Kernel σ) :
    Resizes p d eager k k where
  procs := ⟨(k.procs p).sz, by simp [setProc]⟩
  frame _ := .inl rfl
  pte _ _ _ := .inl rfl

/-- Setting the size changes neither entries nor mappings. -/
theorem roots_setSize (k : Kernel σ) (p : ProcIdx) (sz' : ℕ) :
    (k.setProc p fun proc => { proc with sz := sz' }).roots = k.roots := by
  funext q
  by_cases hq : q = p <;> simp [roots, setProc, hq]

theorem Resizes.lazy (p : ProcIdx) (d : ℤ) (eager : Bool) (k : Kernel σ) (sz' : ℕ) :
    Resizes p d eager k (k.setProc p fun proc => { proc with sz := sz' }) where
  procs := ⟨sz', rfl⟩
  frame _ := .inl rfl
  pte q w _ := .inl (by rw [roots_setSize]; rfl)

theorem setSize_procs {k₁ : Kernel σ} (h : k₁.procs = k.procs) (p : ProcIdx) (sz' : ℕ) :
    (k₁.setProc p fun proc => { proc with sz := sz' }).procs =
      (k.setProc p fun proc => { proc with sz := sz' }).procs := by
  simp [setProc, h]

/-- An eager growth, also one that was undone. -/
theorem Grown.resizes {d : ℤ} {eager : Bool} {sz' : ℕ} {k₁ : Kernel σ}
    (hg : Grown root (npages (k.procs p).sz) (npages (addSize (k.procs p).sz d)) k k₁)
    (hinj : ∀ r, k.roots r = some root → r = p) (heager : eager = true) (hd : 0 < d)
    (hmax : addSize (k.procs p).sz d ≤ trapframeVa)
    (hk' : k' = k₁.setProc p fun proc => { proc with sz := sz' }) : Resizes p d eager k k' := by
  have hprocs := hg.confined.procs
  have hroots : k'.roots = k.roots := by
    rw [hk', roots_setSize]
    funext q
    rw [roots, roots, hprocs]
  have hleaf : ∀ q w, k'.pte k'.roots q w = k₁.pte k.roots q w := fun q w => by
    rw [hroots, hk']
    rfl
  refine ⟨⟨sz', by rw [hk', setSize_procs hprocs]⟩, fun i => .inl ?_, fun q w hw => ?_⟩
  · rw [hk', ← hg.tables]
    rfl
  · rw [hleaf]
    cases hq : k.roots q with
    | none => simp [Kernel.pte, hq]
    | some r =>
      by_cases hr : r = root
      · subst hr
        obtain rfl := hinj q hq
        by_cases hrange : npages (k.procs q).sz ≤ w ∧ w < npages (addSize (k.procs q).sz d)
        · exact .inr (.inr ⟨rfl, heager, hd, hmax, hrange⟩)
        · simp [Kernel.pte, hq, hg.leaf w hrange]
      · simp [Kernel.pte, hq, hg.confined.other r hr]

/-- One round of `uvmunmap` drops at most the frame entry of its page. -/
theorem unmapPage_drops (h : k.unmapPage (some p) root true (v * pgSize) = .ok k') :
    k'.procs = k.procs ∧ ∀ i, k'.tables.frameTable i = k.tables.frameTable i ∨
      (k.tables.frameTable i).entry = (true, true, some p, v * pgSize) ∧
        k'.tables.frameTable i = .clear := by
  have hframe : (k.tables.freeSwapEntry p (v * pgSize)).frameTable = k.tables.frameTable := by
    unfold freeSwapEntry
    split
    · unfold releaseSwap releaseSlot
      split <;> rfl
    · rfl
  unfold unmapPage at h
  dsimp only at h
  generalize k.tables.freeSwapEntry p (v * pgSize) = t at hframe h
  split at h
  · cases h
  split at h
  · obtain rfl := Except.ok.inj h
    exact ⟨rfl, fun i => .inl (congrFun hframe i)⟩
  · obtain ⟨k₁, hfree, h⟩ := bind_eq_ok.1 h
    obtain rfl := Except.ok.inj h
    obtain rfl := kfree_eq_ok hfree
    refine ⟨rfl, fun i => ?_⟩
    have hdrop := freeFrameEntry_frame (some p) (v * pgSize) t i
    rwa [hframe] at hdrop

theorem unmapLoop_drops (c : ℕ) (h : unmapLoop (some p) root true c (v * pgSize) k = .ok k') :
    k'.procs = k.procs ∧ ∀ i, k'.tables.frameTable i = k.tables.frameTable i ∨
      ∃ w, v ≤ w ∧ (k.tables.frameTable i).entry = (true, true, some p, w * pgSize) ∧
        k'.tables.frameTable i = .clear := by
  induction c generalizing v k with
  | zero =>
    obtain rfl := Except.ok.inj h
    exact ⟨rfl, fun _ => .inl rfl⟩
  | succ c ih =>
    obtain ⟨k₁, h₁, h⟩ := bind_eq_ok.1 h
    have hnext : v * pgSize + pgSize = (v + 1) * pgSize := by ring
    rw [hnext] at h
    obtain ⟨hprocs₁, hframe₁⟩ := unmapPage_drops h₁
    obtain ⟨hprocs, hframe⟩ := ih h
    refine ⟨hprocs.trans hprocs₁, fun i => ?_⟩
    rcases hframe₁ i with hsame₁ | ⟨hentry, hclear⟩
    · rw [← hsame₁]
      rcases hframe i with hsame | ⟨w, hw, hrest⟩
      · exact .inl hsame
      · exact .inr ⟨w, by omega, hrest⟩
    · rcases hframe i with hsame | ⟨w, -, hbad, -⟩
      · exact .inr ⟨v, le_rfl, hentry, hsame.trans hclear⟩
      · simp [hclear, Frame.entry, Frame.clear] at hbad

theorem uvmdealloc_drops {oldsz newsz r : ℕ} (hroot : (k.procs p).pagetable = some root)
    (h : k.uvmdealloc p root oldsz newsz = .ok (r, k')) :
    k'.procs = k.procs ∧ ∀ i, k'.tables.frameTable i = k.tables.frameTable i ∨
      ∃ w, npages newsz ≤ w ∧ (k.tables.frameTable i).entry = (true, true, some p, w * pgSize) ∧
        k'.tables.frameTable i = .clear := by
  unfold uvmdealloc at h
  split at h
  · obtain ⟨-, rfl⟩ := Prod.mk.inj (Except.ok.inj h)
    exact ⟨rfl, fun _ => .inl rfl⟩
  split at h
  · have howner : k.unmapOwner p root = some p := by rw [unmapOwner, if_pos hroot]
    obtain ⟨k₁, hloop, h⟩ := bind_eq_ok.1 h
    rw [pgRoundUp_eq newsz, uvmunmap, if_neg (by simp), howner] at hloop
    obtain ⟨-, rfl⟩ := Prod.mk.inj (Except.ok.inj h)
    exact unmapLoop_drops _ hloop
  · obtain ⟨-, rfl⟩ := Prod.mk.inj (Except.ok.inj h)
    exact ⟨rfl, fun _ => .inl rfl⟩

/-- A call that is to shrink. -/
theorem uvmdealloc_resizes {d : ℤ} {sz' : ℕ} {eager : Bool} {k₁ : Kernel σ} (L : SwapLaws S)
    (h : Inv k g) (hs : Synced k g) (hroot : (k.procs p).pagetable = some root) (hd : d < 0)
    (heq : k.uvmdealloc p root (k.procs p).sz (addSize (k.procs p).sz d) = .ok (sz', k₁))
    (hk' : k' = k₁.setProc p fun proc => { proc with sz := sz' }) : Resizes p d eager k k' := by
  have hown : g.own p = some root := (hs.own p).trans hroot
  have hsize := hs.size p root hroot
  have hnp : g.np p = npages (k.procs p).sz := Ghost.np_of_own hown hsize
  obtain ⟨_, g₁, heq', hun⟩ := uvmdealloc_spec L h hs.pend hs.own hown (k.procs p).sz
    (addSize (k.procs p).sz d) (h.pt root _ hsize).bound
  obtain ⟨-, rfl⟩ := Prod.mk.inj (Except.ok.inj (heq.symm.trans heq'))
  obtain ⟨hprocs, hframe⟩ := uvmdealloc_drops hroot heq
  have hroots : k'.roots = k.roots := by
    rw [hk', roots_setSize]
    funext q
    rw [roots, roots, hprocs]
  have hpte : ∀ q w, k'.pte k'.roots q w = k₁.pte g.own q w := fun q w => by
    rw [hroots, hs.roots_eq, hk']
    rfl
  refine ⟨⟨sz', by rw [hk', setSize_procs hprocs]⟩, fun i => ?_, fun q w hw => ?_⟩
  · have hsame : k'.tables = k₁.tables := by rw [hk']; rfl
    rw [hsame]
    rcases hframe i with hold | ⟨w, hle, hentry, hclear⟩
    · exact .inl (by rw [hold])
    · have hlt : w < npages (k.procs p).sz := hnp ▸ h.tables.frame_lt hentry
      refine .inr ⟨hd, w, hle, ?_, ?_, ?_⟩
      · simp only [Frame.entry, Prod.mk.injEq] at hentry
        simp [Frame.page, hentry]
      · simp [hclear, Frame.page, Frame.clear]
      · rw [hpte]
        exact hun.gone_pte w ⟨hle, hlt⟩
  · rw [hpte, hs.roots_eq]
    by_cases hgone : q = p ∧ npages (addSize (k.procs p).sz d) ≤ w ∧ w < npages (k.procs p).sz
    · obtain ⟨rfl, hgone⟩ := hgone
      exact .inr (.inl (hun.gone_pte w hgone))
    · exact .inl (hun.pte q w hgone)

theorem sysSbrk_resizes {d : ℤ} {eager : Bool} {r : Option ℕ} (L : SwapLaws S) (h : Inv k g)
    (hs : Synced k g) (hroot : (k.procs p).pagetable = some root)
    (heq : k.sysSbrk p d eager = .ok (r, k')) : Resizes p d eager k k' := by
  have hnp : g.np p = npages (k.procs p).sz :=
    Ghost.np_of_own ((hs.own p).trans hroot) (hs.size p root hroot)
  have hinj : ∀ r, k.roots r = some root → r = p := fun r hr =>
    h.own_inj r p root ((hs.own r).trans hr) ((hs.own p).trans hroot)
  unfold sysSbrk at heq
  split at heq
  · rename_i heager
    obtain ⟨⟨ok, k₁⟩, hgrow, heq⟩ := bind_eq_ok.1 heq
    obtain ⟨-, rfl⟩ := Prod.mk.inj (Except.ok.inj heq)
    simp only [growproc, hroot] at hgrow
    split at hgrow
    · rename_i hd
      have heager' : eager = true := by simpa [hd.not_gt] using heager
      split at hgrow
      · obtain ⟨-, rfl⟩ := Prod.mk.inj (Except.ok.inj hgrow)
        exact .refl p d eager k
      · rename_i hmax
        have hmax := Nat.le_of_not_lt hmax
        obtain ⟨⟨r, k₂⟩, halloc, hgrow⟩ := bind_eq_ok.1 hgrow
        have hg := uvmalloc_grown hroot (h.unlisted hnp.le) hmax halloc
        cases r with
        | none =>
          obtain ⟨-, rfl⟩ := Prod.mk.inj (Except.ok.inj hgrow)
          have hself : k₂ = k₂.setProc p fun proc => { proc with sz := (k₂.procs p).sz } := by
            simp [setProc]
          exact hg.resizes hinj heager' hd hmax hself
        | some sz' =>
          obtain ⟨-, rfl⟩ := Prod.mk.inj (Except.ok.inj hgrow)
          exact hg.resizes hinj heager' hd hmax rfl
    · split at hgrow
      · rename_i hd
        obtain ⟨⟨sz', k₂⟩, hdealloc, hgrow⟩ := bind_eq_ok.1 hgrow
        obtain ⟨-, rfl⟩ := Prod.mk.inj (Except.ok.inj hgrow)
        exact uvmdealloc_resizes L h hs hroot hd hdealloc rfl
      · obtain ⟨-, rfl⟩ := Prod.mk.inj (Except.ok.inj hgrow)
        exact .refl p d eager k
  · dsimp only at heq
    split at heq
    · obtain ⟨-, rfl⟩ := Prod.mk.inj (Except.ok.inj heq)
      exact .refl p d eager k
    · split at heq
      · obtain ⟨-, rfl⟩ := Prod.mk.inj (Except.ok.inj heq)
        exact .refl p d eager k
      · obtain ⟨-, rfl⟩ := Prod.mk.inj (Except.ok.inj heq)
        exact .lazy p d eager k _

/-! ## What `freeproc` does -/

/-- The process `q` is gone, with its frame entries. -/
structure Frees (q : ProcIdx) (k k' : Kernel σ) : Prop where
  sound : k'.Sound
  blank : (k'.procs q).Blank
  procs : ∀ r ≠ q, k'.procs r = k.procs r
  frame : ∀ i, (k'.tables.frameTable i).page =
    if (k.tables.frameTable i).proc = some q then none else (k.tables.frameTable i).page
  pte : ∀ r ≠ q, ∀ w, k'.pte k'.roots r w = k.pte k.roots r w

/-- A process without a page table has no frame entry. -/
theorem Inv.page_eq_none (h : Inv k g) (hnp : g.np q = 0) {i : FrameIdx}
    (hi : (k.tables.frameTable i).proc = some q) : (k.tables.frameTable i).page = none := by
  cases hu : (k.tables.frameTable i).used with
  | false => exact Frame.page_of_unused hu
  | true =>
    obtain ⟨r, w, hentry, hw, -⟩ := h.tables.frame_ok i hu
    simp only [Frame.entry, Prod.mk.injEq] at hentry
    obtain rfl : r = q := Option.some.inj (hentry.2.2.1.symm.trans hi)
    omega

theorem freeProcSwapSlots_page (h : Inv k g) (q : ProcIdx) (i : FrameIdx) :
    ((k.tables.freeProcSwapSlots q).frameTable i).page =
      if (k.tables.frameTable i).proc = some q then none else (k.tables.frameTable i).page := by
  rw [(freeProcSwapSlots_spec q k.tables).frame]
  by_cases hproc : (k.tables.frameTable i).proc = some q
  · rw [if_pos hproc]
    split
    · simp [Frame.page, Frame.clear]
    · rename_i hno
      refine Frame.page_of_unused (Bool.not_eq_true _ ▸ fun hu => hno ?_)
      exact (h.tables.ownFrame_iff q i).2 ⟨hu, hproc⟩
  · rw [if_neg hproc, if_neg fun ho => hproc ((h.tables.ownFrame_iff q i).1 ho).2]

theorem freeproc_effect (L : SwapLaws S) (h : Inv k g) (hs : Synced k g) (hne : cur ≠ q)
    (heq : k.freeproc cur q = .ok k') : Frees q k k' := by
  obtain ⟨_, g', heq', hinv', hs', -, hself, -⟩ := freeproc_spec L h hs hne
  obtain rfl := Except.ok.inj (heq.symm.trans heq')
  have hblank : (k'.procs q).Blank := by
    simp only [Proc.core, ProcCore.mk.injEq] at hself
    obtain ⟨hstate, hsz, hpt, htf, -⟩ := hself
    exact ⟨hstate, hsz, hpt, htf⟩
  have hpte : (∀ r ≠ q, k'.procs r = k.procs r) →
      (∀ r ≠ q, ∀ root, k.roots r = some root → k'.pts root = k.pts root) →
      ∀ r ≠ q, ∀ w, k'.pte k'.roots r w = k.pte k.roots r w := by
    intro hprocs hpts r hr w
    have hroot : k'.roots r = k.roots r := by rw [roots, roots, hprocs r hr]
    cases hown : k.roots r with
    | none => simp [Kernel.pte, hroot, hown]
    | some root => simp [Kernel.pte, hroot, hown, hpts r hr root hown]
  cases hroot : (k.procs q).pagetable with
  | some root =>
    obtain ⟨htab, hprocs, -, hpts, -⟩ := freeproc_frees L h hs hne hroot heq
    refine ⟨⟨g', hinv', hs'⟩, hblank, hprocs, fun i => ?_, hpte hprocs fun r hr root' hr' => ?_⟩
    · rw [htab, freeProcSwapSlots_page h q i]
    · refine hpts root' ?_
      rintro rfl
      exact hr (h.own_inj r q root' ((hs.own r).trans hr') ((hs.own q).trans hroot))
  | none =>
    obtain ⟨k₁, heq₁, heq⟩ := bind_eq_ok.1 heq
    obtain ⟨k₂, heq₂, heq⟩ := bind_eq_ok.1 heq
    obtain rfl := Except.ok.inj heq
    obtain ⟨_, g₁, heq₁', -, -, -, -, htab₁, hpts₁, hprocs₁, -⟩ :=
      freeTrapframe_spec (L := L) h q
    obtain rfl := Except.ok.inj (heq₁.symm.trans heq₁')
    have hnone : (k₁.procs q).pagetable = none := by simp [hprocs₁, hroot]
    rw [freePagetable, hnone] at heq₂
    obtain rfl := Except.ok.inj heq₂
    have hprocs : ∀ r ≠ q, ((k₁.setProc q fun proc =>
        { proc with pagetable := none, sz := 0, xstate := 0, state := .unused }).procs r) =
          k.procs r := fun r hr => by simp [setProc, hr, hprocs₁]
    refine ⟨⟨g', hinv', hs'⟩, hblank, hprocs, fun i => ?_, hpte hprocs fun r hr root' hr' => ?_⟩
    · change (k₁.tables.frameTable i).page = _
      rw [htab₁]
      split
      · rename_i hproc
        have hnp : g.np q = 0 := by simp [Ghost.np, hs.own, hroot]
        exact h.page_eq_none hnp hproc
      · rfl
    · exact congrFun hpts₁ root'

/-! ## What a call does -/

/-- What a call can do. -/
inductive MemEffect (L : SwapLaws S) (k k' : Kernel σ) : MemCall → Prop
  | moves {c : MemCall} (h : Moves S k k') : MemEffect L k k' c
  | resizes {p : ProcIdx} {n : Int32} {eager : Bool} (halive : k.Alive p)
      (h : Resizes p n.toInt eager k k') : MemEffect L k k' (.sbrk p n eager)
  | noTrace {p : ProcIdx} (h : NoTrace L k k') : MemEffect L k k' (.fork p)
  | forks {p q : ProcIdx} (h : Forks p q k k') : MemEffect L k k' (.fork p)
  | exits {p : ProcIdx} {status : BitVec 32} (halive : k.Alive p) (h : k' = k.kexit p status) :
      MemEffect L k k' (.exit p status)
  | reaps {p q : ProcIdx} {addr : ℕ} {k₁ : Kernel σ} (hmoves : Moves S k k₁) (hsound : k₁.Sound)
      (h : Frees q k₁ k') : MemEffect L k k' (.wait p q addr)

theorem SwapsOut.shape {pa : PA} {f : FrameIdx} {s : SlotIdx}
    (h : SwapsOut S p v root pa f s k k') (q : ProcIdx) :
    (k'.procs q).shape = (k.procs q).shape := by
  rw [h.procs]
  by_cases hq : q = p <;> simp [countEviction, setProc, hq, Proc.shape]

theorem Moves.shape (h : Moves S k k') (q : ProcIdx) :
    (k'.procs q).shape = (k.procs q).shape := by
  refine h.keeps (P := fun k' => (k'.procs q).shape = (k.procs q).shape)
    (fun k₁ k₂ hstep hk => ?_) rfl
  cases hstep with
  | same hv => exact (hv.shape q).trans hk
  | pageOut ho => exact (ho.shape q).trans hk
  | pageIn hi => exact (hi.shape q).trans hk

theorem Moves.clean (h : Moves S k k') (hclean : k.Clean) : k'.Clean := by
  intro q hq
  have hshape := h.shape q
  simp only [Proc.shape, Prod.mk.injEq] at hshape
  obtain ⟨-, hsz, hpt, htf⟩ := hclean q (hshape.1 ▸ hq)
  exact ⟨hq, hshape.2.1.trans hsz, hshape.2.2.1.trans hpt, hshape.2.2.2.trans htf⟩

/-- The processes that are not in use stay blank. -/
theorem MemEffect.clean (h : MemEffect L k k' c) (hclean : k.Clean) : k'.Clean := by
  cases h with
  | moves h => exact h.clean hclean
  | @resizes p n eager halive h =>
    obtain ⟨sz', hprocs⟩ := h.procs
    intro q hq
    by_cases hqp : q = p
    · subst hqp
      exact absurd (by simpa [hprocs, setProc] using hq) halive.1
    · have hsame : k'.procs q = k.procs q := by simp [hprocs, setProc, hqp]
      rw [hsame] at hq ⊢
      exact hclean q hq
  | noTrace h =>
    intro q hq
    by_cases hold : (k.procs q).state = .unused
    · exact h.unused q hold
    · exact absurd (h.procs q hold ▸ hq) hold
  | @forks p q h =>
    intro r hr
    by_cases hrq : r = q
    · rw [hrq, h.state] at hr
      cases hr
    · rw [h.procs r hrq] at hr ⊢
      exact hclean r hr
  | @exits p status halive h =>
    intro q hq
    by_cases hqp : q = p
    · simp [h, hqp, kexit, setProc] at hq
    · have hsame : k'.procs q = k.procs q := by simp [h, kexit, setProc, hqp]
      rw [hsame] at hq ⊢
      exact hclean q hq
  | @reaps p q addr k₁ hmoves _ h =>
    intro r hr
    by_cases hrq : r = q
    · exact hrq ▸ h.blank
    · rw [h.procs r hrq] at hr ⊢
      exact hmoves.clean hclean r hr

/-- **A call has one of the effects**, and keeps the tables well formed. -/
theorem memCall_spec (L : SwapLaws S) (h : k.Sound) (hclean : k.Clean) (hcall : k.Callable c)
    (heq : k.memCall S c = .ok k') : k'.Sound ∧ MemEffect L k k' c := by
  obtain ⟨g, hinv, hs⟩ := id h
  cases c with
  | fault p va =>
    obtain ⟨⟨r, k₁⟩, hfault, heq⟩ := bind_eq_ok.1 heq
    obtain rfl := Except.ok.inj heq
    obtain ⟨g', hinv', hs', -⟩ := vmfault_stays L hinv hs hfault
    exact ⟨⟨g', hinv', hs'⟩, .moves (vmfault_moves L h hfault)⟩
  | evict =>
    obtain ⟨⟨b, k₁⟩, hevict, heq⟩ := bind_eq_ok.1 heq
    obtain rfl := Except.ok.inj heq
    obtain ⟨_, _, hevict', hev⟩ := evictOneUserFrame_evicts L hinv hs.own hs.pend
    obtain ⟨-, rfl⟩ := Prod.mk.inj (Except.ok.inj (hevict.symm.trans hevict'))
    obtain ⟨g', hinv', hq, hpend'⟩ := hev.spec L hinv hs.own hs.pend
    exact ⟨⟨g', hinv', hs.of_core hq.own hq.size hq.core hpend'⟩,
      .moves (hev.moves L hinv hs.own hs.pend)⟩
  | sbrk p n eager =>
    obtain ⟨⟨r, k₁⟩, hsbrk, heq⟩ := bind_eq_ok.1 heq
    obtain rfl := Except.ok.inj heq
    obtain ⟨root, hroot⟩ := Option.isSome_iff_exists.1 hcall.2.2
    obtain ⟨_, _, g', hsbrk', hinv', hs', -⟩ := sysSbrk_spec L hinv hs hroot n.le_toInt
      n.toInt_lt eager
    obtain ⟨-, rfl⟩ := Prod.mk.inj (Except.ok.inj (hsbrk.symm.trans hsbrk'))
    exact ⟨⟨g', hinv', hs'⟩, .resizes hcall (sysSbrk_resizes L hinv hs hroot hsbrk)⟩
  | fork p =>
    obtain ⟨⟨r, k₁⟩, hfork, heq⟩ := bind_eq_ok.1 heq
    obtain rfl := Except.ok.inj heq
    obtain ⟨root, hroot⟩ := Option.isSome_iff_exists.1 hcall.2.2
    obtain ⟨_, _, hfork', hnone, hsome⟩ := kfork_spec L h hclean hroot
    obtain ⟨rfl, rfl⟩ := Prod.mk.inj (Except.ok.inj (hfork.symm.trans hfork'))
    cases r with
    | none => exact ⟨(hnone rfl).sound, .noTrace (hnone rfl)⟩
    | some q => exact ⟨(hsome q rfl).sound, .forks (hsome q rfl)⟩
  | exit p status =>
    obtain rfl := Except.ok.inj heq
    obtain ⟨hinv', hs', -⟩ := kexit_spec hinv hs (shows_flat L k) p status
    exact ⟨⟨g, hinv', hs'⟩, .exits hcall rfl⟩
  | wait p q addr =>
    obtain ⟨⟨b, k₂⟩, hwait, heq⟩ := bind_eq_ok.1 heq
    obtain rfl := Except.ok.inj heq
    obtain ⟨⟨ok, k₁⟩, hcopy, hwait⟩ := bind_eq_ok.1 hwait
    obtain ⟨hmoves, hsound⟩ := copyStatus_moves L h hcopy
    cases ok with
    | false =>
      obtain ⟨-, rfl⟩ := Prod.mk.inj (Except.ok.inj hwait)
      exact ⟨hsound, .moves hmoves⟩
    | true =>
      obtain ⟨k₃, hfree, hwait⟩ := bind_eq_ok.1 hwait
      obtain ⟨-, rfl⟩ := Prod.mk.inj (Except.ok.inj hwait)
      have hpq : p ≠ q := by
        rintro rfl
        exact hcall.1.2.1 hcall.2
      obtain ⟨g₁, hinv₁, hs₁⟩ := id hsound
      have hf := freeproc_effect L hinv₁ hs₁ hpq hfree
      exact ⟨hf.sound, .reaps hmoves hsound hf⟩

/-- **What every call keeps holds in every run.** -/
theorem MemRuns.keeps {C : Kernel σ → MemCall → Prop} {P : Kernel σ → Prop} (L : SwapLaws S)
    {k₀ : Kernel σ} {cs : List MemCall} (h : MemRuns S C k₀ cs k) (hsound : k₀.Sound)
    (hclean : k₀.Clean) (h₀ : P k₀)
    (hstep : ∀ k k' c, k.Sound → k.Clean → k'.Sound → C k c → MemEffect L k k' c → P k → P k') :
    k.Sound ∧ k.Clean ∧ P k := by
  induction h with
  | nil => exact ⟨hsound, hclean, h₀⟩
  | snoc _ hcall hC heq ih =>
    obtain ⟨hs, hc, hP⟩ := ih
    obtain ⟨hs', heffect⟩ := memCall_spec L hs hc hcall heq
    exact ⟨hs', heffect.clean hc, hstep _ _ _ hs hc hs' hC heffect hP⟩

end Kernel

end Xv6Swap.Paging
