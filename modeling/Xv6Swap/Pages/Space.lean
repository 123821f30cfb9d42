import Xv6Swap.Pages.Fault

/-!
# The books of address spaces

The steps of `uvmunmap`, `growproc`, `freeproc`, `allocproc` and `uvmcopy` keep the books. Each has
a predicate on its program counter that says what the books depend on: the page table has an owner,
and the pages of the range are for user code.
-/

namespace Xv6Swap.Paging

open Raid (Page pgSize)
open Kernel (vpn lowIdx Steady)

/-! ## Ranges of pages -/

theorem UserVa.mono {a b : ℕ} (h : UserVa b) (hab : a ≤ b) : UserVa a :=
  (Nat.div_le_div_right hab).trans_lt h

theorem UserVa.le_trapframeVa {va : ℕ} (h : UserVa va) : va ≤ trapframeVa := by
  by_contra hlt
  exact absurd h (not_lt.2 (Nat.div_le_div_right (not_le.1 hlt).le))

theorem pgRoundUp_le {n : ℕ} (h : n ≤ trapframeVa) : pgRoundUp n ≤ trapframeVa := by
  simp only [pgRoundUp, trapframeVa, trampolineVa, maxVa, pgSize] at h ⊢
  omega

/-- The pages of `uvmdealloc` are for user code. -/
theorem userVa_dealloc {oldsz newsz m : ℕ} (h : oldsz ≤ trapframeVa)
    (hm : (pgRoundUp oldsz - pgRoundUp newsz) / pgSize = m + 1) :
    UserVa (pgRoundUp newsz + m * pgSize) := by
  have hle := pgRoundUp_le h
  generalize pgRoundUp oldsz = x at hm hle
  generalize pgRoundUp newsz = y at hm ⊢
  refine userVa_of_lt ?_
  simp only [pgSize] at hm ⊢
  omega

/-- The last page of the range of a `uvmunmap`. -/
def UnmapPc.last : UnmapPc → ℕ
  | .swap a n | .look a n | .frame a n _ | .clear a n _ => a + n * pgSize

/-- The page whose entry a `uvmunmap` has read, with the entry. -/
def UnmapPc.seen : UnmapPc → Option (ℕ × Pte)
  | .frame a _ pte | .clear a _ pte => some (a, pte)
  | .swap _ _ | .look _ _ => none

namespace Kernel

variable {σ : Type} {S : SwapOps σ} {k k' : Kernel σ} {P hand rest : Multiset PA}
  {own : ProcIdx → Option PA} {p q cur : ProcIdx} {root pa : PA} {a n : ℕ}

/-! ## Unmapping -/

/-- What the books depend on inside `uvmunmap`. -/
structure UnmapOk (k : Kernel σ) (own : ProcIdx → Option PA) (u : Unmapping) : Prop where
  owned : ∃ q, own q = some u.root
  last : UserVa u.pc.last
  seen : ∀ a pte, u.pc.seen = some (a, pte) → k.leaves u.root (vpn a) = some pte

theorem unmapRound_ok (howned : ∃ q, own q = some root) {o : Option ProcIdx}
    (hlast : ∀ m, n = m + 1 → UserVa (a + m * pgSize)) {u : Unmapping}
    (hu : unmapRound o root a n = .go u) : k.UnmapOk own u ∧ u.root = root ∧ u.owner = o := by
  cases n with
  | zero => cases hu
  | succ m =>
    obtain rfl := Next.go.inj hu
    refine ⟨⟨howned, ?_, ?_⟩, rfl, rfl⟩
    · have := hlast m rfl
      cases o <;> exact this
    · cases o <;> exact nofun

theorem unmapNext_moved (h : Books P (k.layout own) rest) {u : Unmapping} (hok : k.UnmapOk own u)
    (hvas : UserVas k.tables none) {next : Next Unmapping Unit}
    (hk : k.unmapNext u = .ok (next, k')) :
    Moved P own rest k k' ∧ UserVas k'.tables none ∧
      ∀ u', next = .go u' → k'.UnmapOk own u' ∧ u'.root = u.root ∧ u'.owner = u.owner := by
  obtain ⟨o, root, pc⟩ := u
  obtain ⟨⟨q, hq⟩, hlast, hseen⟩ := hok
  have hround : ∀ a n, UserVa (a + n * pgSize) → ∀ m, n = m + 1 →
      UserVa (a + pgSize + m * pgSize) := by
    rintro a n ha m rfl
    exact ha.mono (by rw [Nat.succ_mul]; omega)
  cases pc with
  | swap a n =>
    obtain ⟨rfl, rfl⟩ := Prod.mk.inj (Except.ok.inj hk)
    have hgo : ∀ k'' : Kernel σ, k''.UnmapOk own ⟨o, root, .look a n⟩ := fun _ =>
      ⟨⟨q, hq⟩, hlast, nofun⟩
    cases o with
    | none => exact ⟨⟨h, .refl k⟩, hvas, fun u' hu' => Next.go.inj hu' ▸ ⟨hgo _, rfl, rfl⟩⟩
    | some p =>
      refine ⟨quiet_moved h rfl rfl rfl rfl, hvas.of_entries fun i => ?_,
        fun u' hu' => Next.go.inj hu' ▸ ⟨hgo _, rfl, rfl⟩⟩
      rw [(k.tables.freeSwapEntry_frameTable p a).1]
  | look a n =>
    simp only [unmapNext] at hk
    split at hk
    · cases hk
    · split at hk
      · obtain ⟨rfl, rfl⟩ := Prod.mk.inj (Except.ok.inj hk)
        exact ⟨⟨h, .refl k⟩, hvas, fun u' hu' => unmapRound_ok ⟨q, hq⟩ (hround a n hlast) hu'⟩
      · rename_i pte hpte
        obtain ⟨rfl, rfl⟩ := Prod.mk.inj (Except.ok.inj hk)
        refine ⟨⟨h, .refl k⟩, hvas, fun u' hu' => ?_⟩
        obtain rfl := Next.go.inj hu'
        refine ⟨⟨⟨q, hq⟩, hlast, ?_⟩, rfl, rfl⟩
        rintro a' pte' heq
        obtain ⟨rfl, rfl⟩ := Prod.mk.inj (Option.some.inj heq)
        exact (leaves_of_pteAt hpte).1
  | frame a n pte =>
    obtain ⟨rfl, rfl⟩ := Prod.mk.inj (Except.ok.inj hk)
    refine ⟨quiet_moved h rfl rfl rfl rfl, hvas.freeFrameEntry o a, fun u' hu' => ?_⟩
    obtain rfl := Next.go.inj hu'
    exact ⟨⟨⟨q, hq⟩, hlast, hseen⟩, rfl, rfl⟩
  | clear a n pte =>
    obtain ⟨k₁, hfree, hk⟩ := bind_eq_ok.1 hk
    obtain ⟨rfl, rfl⟩ := Prod.mk.inj (Except.ok.inj hk)
    have ha : UserVa a := UserVa.mono hlast (Nat.le_add_right a _)
    have hleaf : k.leaves root (vpn a) = some pte := hseen a pte rfl
    have hbooks : Books P ((k₁.setLeaf root a none).layout own) rest :=
      h.kfree_setPt (F := fun pt => pt.setLeaf (vpn a) none) hq
        ((k.pts root).page_setLeaf ha none) (Books.page_user ha hleaf)
        ((h.wf_pts hq).setLeaf_none _) hfree
    refine ⟨⟨hbooks, (Steady.kfree hfree).trans (.setLeaf k₁ root ha nofun)⟩, ?_,
      fun u' hu' => unmapRound_ok ⟨q, hq⟩ (hround a n hlast) hu'⟩
    exact hvas.of_entries fun i => by rw [← (kfree_untouched hfree).tables]; rfl

/-! ## Growing and shrinking -/

/-- What the books depend on inside `growproc`. -/
def GrowOk (k : Kernel σ) (own : ProcIdx → Option PA) : GrowPc → Prop
  | .alloc root _ sz a n => (∃ q, own q = some root) ∧ UserVa (a + n * pgSize) ∧ sz ≤ trapframeVa
  | .unmap sz u => k.UnmapOk own u ∧ ∀ x, sz = some x → x ≤ trapframeVa

/-- `growproc` goes on, or returns a size below the trapframe. -/
def GrowNextOk (k : Kernel σ) (own : ProcIdx → Option PA) : Next GrowPc (Option ℕ) → Prop
  | .go pc => k.GrowOk own pc
  | .ret sz => ∀ x, sz = some x → x ≤ trapframeVa

theorem deallocStart_ok (howned : ∃ q, own q = some root) {oldsz newsz : ℕ} {sz : Option ℕ}
    (hold : oldsz ≤ trapframeVa) (hsz : ∀ x, sz = some x → x ≤ trapframeVa) :
    k.GrowNextOk own (k.deallocStart cur root oldsz newsz sz) := by
  unfold deallocStart
  split
  · unfold unmapStart
    cases hu : unmapRound (k.unmapOwner cur root) root (pgRoundUp newsz)
        ((pgRoundUp oldsz - pgRoundUp newsz) / pgSize) with
    | go u => exact ⟨(unmapRound_ok howned (fun m hm => userVa_dealloc hold hm) hu).1, hsz⟩
    | ret r => exact hsz
  · exact hsz

theorem growRound_ok (howned : ∃ q, own q = some root) {oldsz sz : ℕ} (hsz : sz ≤ trapframeVa)
    (hlast : ∀ m, n = m + 1 → UserVa (a + m * pgSize)) :
    k.GrowNextOk own (growRound root oldsz sz a n) := by
  cases n with
  | zero =>
    rintro x hx
    obtain rfl := Option.some.inj hx
    exact hsz
  | succ m => exact ⟨howned, hlast m rfl, hsz⟩

theorem growStart_ok (hsync : ∀ q root, (k.procs q).pagetable = some root → own q = some root)
    (hsz : (k.procs p).sz ≤ trapframeVa) (m : ℤ) : k.GrowNextOk own (k.growStart p m) := by
  unfold growStart
  split
  · exact nofun
  · rename_i root hroot
    have howned : ∃ q, own q = some root := ⟨p, hsync p root hroot⟩
    dsimp only
    split
    · split
      · exact nofun
      · rename_i hle
        exact growRound_ok howned (not_lt.1 hle) fun m hm => userVa_dealloc (not_lt.1 hle) hm
    · refine deallocStart_ok howned hsz ?_
      rintro x hx
      obtain rfl := Option.some.inj hx
      exact (min_le_left _ _).trans hsz

theorem growNext_moved (h : Books P (k.layout own) rest) {pc : GrowPc} (hok : k.GrowOk own pc)
    (hvas : UserVas k.tables none) {next : Next GrowPc (Option ℕ)}
    (hk : k.growNext cur pc = .ok (next, k')) :
    Moved P own rest k k' ∧ UserVas k'.tables none ∧ k'.GrowNextOk own next := by
  cases pc with
  | alloc root oldsz sz a n =>
    obtain ⟨⟨q, hq⟩, hlast, hsz⟩ := hok
    have ha : UserVa a := UserVa.mono hlast (Nat.le_add_right a _)
    simp only [growNext] at hk
    split at hk
    · rename_i hka
      obtain ⟨rfl, rfl⟩ := Prod.mk.inj (Except.ok.inj hk)
      obtain rfl := kalloc_none hka
      exact ⟨⟨h, .refl _⟩, hvas, deallocStart_ok ⟨q, hq⟩ ha.le_trapframeVa (by simp)⟩
    · rename_i pa k₁ hka
      obtain ⟨⟨ok, k₂⟩, hmap, hk⟩ := bind_eq_ok.1 hk
      have hfill : Moved P own (pa ::ₘ rest) k (k₁.fill pa 0) :=
        ⟨h.kalloc_fill hka 0, (Steady.kalloc hka).trans (.of_pts rfl rfl rfl)⟩
      have hm₂ : Moved P own (if ok then rest else pa ::ₘ rest) k k₂ :=
        hfill.trans ⟨hfill.books.mappages hq ha hmap, .mappages ha rfl hmap⟩
      have htab : k₂.tables = k.tables :=
        (mappages_untouched hmap).tables.trans (kalloc_untouched hka).tables
      cases ok with
      | false =>
        obtain ⟨k₃, hfree, hk⟩ := bind_eq_ok.1 hk
        obtain ⟨rfl, rfl⟩ := Prod.mk.inj (Except.ok.inj hk)
        refine ⟨hm₂.trans (kfree_moved hm₂.books hfree), ?_, deallocStart_ok ⟨q, hq⟩
          ha.le_trapframeVa (by simp)⟩
        rw [(kfree_untouched hfree).tables, htab]
        exact hvas
      | true =>
        obtain ⟨rfl, rfl⟩ := Prod.mk.inj (Except.ok.inj hk)
        refine ⟨hm₂, htab ▸ hvas, growRound_ok ⟨q, hq⟩ hsz ?_⟩
        rintro m rfl
        exact hlast.mono (by rw [Nat.succ_mul]; omega)
  | unmap sz u =>
    obtain ⟨⟨next', k₁⟩, hunmap, hk⟩ := bind_eq_ok.1 hk
    obtain ⟨rfl, rfl⟩ := Prod.mk.inj (Except.ok.inj hk)
    obtain ⟨hm, hvas', hgo⟩ := unmapNext_moved h hok.1 hvas hunmap
    refine ⟨hm, hvas', ?_⟩
    cases next' with
    | go u' => exact ⟨(hgo u' rfl).1, hok.2⟩
    | ret r => exact hok.2

/-! ## Freeing a process -/

/-- What the books depend on inside `freeproc(q)`. Between `freewalk` and the end of `freeproc` the
process still names a page table that it does not have. -/
def FreeOk (k : Kernel σ) (own : ProcIdx → Option PA) (q : ProcIdx) : FreePc → Prop
  | .trapframe => own q = (k.procs q).pagetable
  | .slots | .detach => own q = (k.procs q).pagetable ∧ (k.procs q).trapframe = none
  | .pages u => own q = some u.root ∧ (k.procs q).trapframe = none ∧ k.UnmapOk own u
  | .walk root => own q = some root ∧ (k.procs q).trapframe = none
  | .reset => own q = none ∧ (k.procs q).trapframe = none

/-- `Steady` for the other processes and their page tables. -/
structure SteadyBut (own : ProcIdx → Option PA) (q : ProcIdx) (k k' : Kernel σ) : Prop where
  space : ∀ p ≠ q, (k'.procs p).space = (k.procs p).space
  trampoline : k'.trampoline = k.trampoline
  leaves : ∀ p ≠ q, ∀ r v, own p = some r → vpn trapframeVa ≤ v → k'.leaves r v = k.leaves r v
  user : ∀ p ≠ q, ∀ r, own p = some r → k.UserLeaves r → k'.UserLeaves r

theorem Steady.but (h : Steady k k') (own : ProcIdx → Option PA) (q : ProcIdx) :
    SteadyBut own q k k' :=
  ⟨fun p _ => h.space p, h.trampoline, fun _ _ r v _ hv => h.leaves r v hv,
    fun _ _ _ _ hu => hu.steady h⟩

theorem SteadyBut.trans {k'' : Kernel σ} (h : SteadyBut own q k k') (h' : SteadyBut own q k' k'') :
    SteadyBut own q k k'' where
  space p hp := (h'.space p hp).trans (h.space p hp)
  trampoline := h'.trampoline.trans h.trampoline
  leaves p hp r v hr hv := (h'.leaves p hp r v hr hv).trans (h.leaves p hp r v hr hv)
  user p hp r hr hu := h'.user p hp r hr (h.user p hp r hr hu)

theorem setProc_steadyBut (own : ProcIdx → Option PA) (k : Kernel σ) (q : ProcIdx)
    (f : Proc → Proc) : SteadyBut own q k (k.setProc q f) where
  space p hp := by simp [Kernel.setProc, hp]
  trampoline := rfl
  leaves _ _ _ _ _ _ := rfl
  user _ _ _ _ hu := hu

theorem SteadyBut.of_leaves (hspace : ∀ p ≠ q, (k'.procs p).space = (k.procs p).space)
    (htrampoline : k'.trampoline = k.trampoline)
    (hleaves : ∀ p ≠ q, ∀ r, own p = some r → k'.leaves r = k.leaves r) : SteadyBut own q k k' where
  space := hspace
  trampoline := htrampoline
  leaves p hp r v hr _ := by rw [hleaves p hp r hr]
  user p hp r hr hu v e hv he := hu v e hv (hleaves p hp r hr ▸ he)

/-- The page table of `q` changes. -/
theorem leaves_steadyBut (h : Books P (k.layout own) hand) (hq : own q = some root)
    (hprocs : k'.procs = k.procs) (htrampoline : k'.trampoline = k.trampoline)
    (hleaves : ∀ r ≠ root, k'.leaves r = k.leaves r) : SteadyBut own q k k' := by
  have hsame : ∀ p ≠ q, ∀ r, own p = some r → k'.leaves r = k.leaves r := fun p hp r hr =>
    hleaves r fun heq => hp (h.root_inj hr (heq ▸ hq))
  exact .of_leaves (fun p _ => by rw [hprocs]) htrampoline hsame

theorem uvmunmap_steadyBut (h : Books P (k.layout own) hand) (hq : own q = some root) {va : ℕ}
    (hk : k.uvmunmap cur root va 1 false = .ok k') : SteadyBut own q k k' := by
  obtain rfl | rfl := uvmunmap_cases hk
  · exact (Steady.refl k').but own q
  · refine leaves_steadyBut h hq rfl rfl fun r hr => ?_
    rw [leaves_setLeaf, Function.update_of_ne hr]

theorem layout_setTrapframe (k : Kernel σ) (own : ProcIdx → Option PA) (q : ProcIdx)
    (x : Option PA) {f : Proc → Proc} (hf : ∀ proc, (f proc).trapframe = x) :
    (k.setProc q f).layout own = (k.layout own).setTrapframe q x := by
  have htf : ((k.setProc q f).layout own).trapframe =
      Function.update (k.layout own).trapframe q x := by
    funext p
    by_cases hp : p = q
    · subst hp
      simp [Kernel.layout, Kernel.setProc, hf]
    · simp [Kernel.layout, Kernel.setProc, hp]
  exact congrArg (fun tf => { k.layout own with trapframe := tf }) htf

theorem freeTrapframe_moved (h : Books P (k.layout own) rest) (hk : k.freeTrapframe q = .ok k') :
    Books P (k'.layout own) rest ∧ SteadyBut own q k k' ∧ (k'.procs q).trapframe = none ∧
      (k'.procs q).pagetable = (k.procs q).pagetable ∧ (k'.procs q).sz = (k.procs q).sz := by
  unfold freeTrapframe at hk
  split at hk
  · rename_i hnone
    obtain rfl := Except.ok.inj hk
    exact ⟨h, (Steady.refl k).but own q, hnone, rfl, rfl⟩
  · rename_i tf htf
    obtain ⟨k₁, hfree, hk⟩ := bind_eq_ok.1 hk
    obtain rfl := Except.ok.inj hk
    have hprocs := (kfree_untouched hfree).procs
    refine ⟨?_, ((Steady.kfree hfree).but own q).trans (setProc_steadyBut own k₁ q _), ?_, ?_, ?_⟩
    · -- the trapframe is taken first, and freed then
      have htake : Books P ((k.setProc q fun proc => { proc with trapframe := none }).layout own)
          (tf ::ₘ rest) := by
        rw [layout_setTrapframe k own q none (by intro; rfl)]
        exact h.setTrapframe_none htf
      obtain rfl := kfree_eq_ok hfree
      exact htake.pushFree
    · simp [Kernel.setProc]
    · simp [Kernel.setProc, hprocs]
    · simp [Kernel.setProc, hprocs]

theorem freeUnmapped_ok (hq : own q = some root) (htf : (k.procs q).trapframe = none)
    {next : Next Unmapping Unit}
    (hgo : ∀ u, next = .go u → k.UnmapOk own u ∧ u.root = root) {pc : FreePc}
    (hpc : freeUnmapped root next = .go pc) : k.FreeOk own q pc := by
  cases next with
  | go u =>
    obtain rfl := Next.go.inj hpc
    obtain ⟨hok, rfl⟩ := hgo u rfl
    exact ⟨hq, htf, hok⟩
  | ret r =>
    obtain rfl := Next.go.inj hpc
    exact ⟨hq, htf⟩

theorem freeUnmapped_ne_ret (root : PA) (next : Next Unmapping Unit) :
    freeUnmapped root next ≠ .ret () := by
  cases next <;> exact nofun

theorem userVa_pages {sz m : ℕ} (h : sz ≤ trapframeVa) (hm : pgRoundUp sz / pgSize = m + 1) :
    UserVa (0 + m * pgSize) := by
  have hle := pgRoundUp_le h
  generalize pgRoundUp sz = x at hm hle
  refine userVa_of_lt ?_
  simp only [pgSize] at hm ⊢
  omega

/-- What a step of `freeproc(q)` does: only `freewalk` takes the page table from the process, and
the last step is the end of `freeproc`. -/
structure FreedStep (P : Multiset PA) (own : ProcIdx → Option PA) (hand : Multiset PA) (q : ProcIdx)
    (k : Kernel σ) (next : Next FreePc Unit) (k' : Kernel σ) (own' : ProcIdx → Option PA) :
    Prop where
  books : Books P (k'.layout own') hand
  roots : ∀ p ≠ q, own' p = own p
  steady : SteadyBut own q k k'
  sz : (k'.procs q).sz ≤ (k.procs q).sz
  vas : UserVas k'.tables none
  go : ∀ pc, next = .go pc → k'.FreeOk own' q pc
  ret : next = .ret () → own' q = none ∧ (k'.procs q).trapframe = none ∧ k' = k.resetProc q

theorem freeNext_freed (h : Books P (k.layout own) rest) {pc : FreePc} (hok : k.FreeOk own q pc)
    (hvas : UserVas k.tables none) (hsz : (k.procs q).sz ≤ trapframeVa) {next : Next FreePc Unit}
    (hk : k.freeNext cur q pc = .ok (next, k')) :
    ∃ own', FreedStep P own rest q k next k' own' := by
  cases pc with
  | trapframe =>
    obtain ⟨k₁, hfree, hk⟩ := bind_eq_ok.1 hk
    obtain ⟨rfl, rfl⟩ := Prod.mk.inj (Except.ok.inj hk)
    obtain ⟨hb, hs, htf, hpt, hsz'⟩ := freeTrapframe_moved h hfree
    have hown : own q = (k₁.procs q).pagetable := (show own q = _ from hok).trans hpt.symm
    refine ⟨own, hb, fun _ _ => rfl, hs, hsz'.le, ?_, fun pc hpc => ?_, by simp⟩
    · rw [(freeTrapframe_life hfree).1]
      exact hvas
    · obtain rfl := Next.go.inj hpc
      cases hp : (k₁.procs q).pagetable with
      | none => exact ⟨hown.trans hp, htf⟩
      | some root => exact ⟨hown, htf⟩
  | slots =>
    simp only [freeNext] at hk
    have hspec := (k.tables.freeProcSwapSlots_spec q).frame
    generalize k.tables.freeProcSwapSlots q = t at hk hspec
    obtain ⟨rfl, rfl⟩ := Prod.mk.inj (Except.ok.inj hk)
    have hm := tables_moved h t
    refine ⟨own, hm.books, fun _ _ => rfl, hm.steady.but own q, le_rfl, ⟨fun i => ?_, by simp⟩,
      fun pc hpc => ?_, by simp⟩
    · change UserVa (t.frameTable i).va
      rw [hspec]
      split
      · exact userVa_zero
      · exact hvas.frame i
    · obtain rfl := Next.go.inj hpc
      exact hok
  | detach =>
    simp only [freeNext] at hk
    split at hk
    · rename_i hnone
      obtain ⟨rfl, rfl⟩ := Prod.mk.inj (Except.ok.inj hk)
      refine ⟨own, h, fun _ _ => rfl, (Steady.refl k).but own q, le_rfl, hvas, fun pc hpc => ?_,
        by simp⟩
      obtain rfl := Next.go.inj hpc
      exact ⟨hok.1.trans hnone, hok.2⟩
    · rename_i root hroot
      obtain ⟨k₁, hunmap₁, hk⟩ := bind_eq_ok.1 hk
      obtain ⟨k₂, hunmap₂, hk⟩ := bind_eq_ok.1 hk
      obtain ⟨rfl, rfl⟩ := Prod.mk.inj (Except.ok.inj hk)
      have hq : own q = some root := hok.1.trans hroot
      have h₁ := h.uvmunmap_kernel hq (by decide) hunmap₁
      have h₂ := h₁.uvmunmap_kernel hq (by decide) hunmap₂
      have hu := (uvmunmap_keep_untouched hunmap₁).trans (uvmunmap_keep_untouched hunmap₂)
      have hs := (uvmunmap_steadyBut h hq hunmap₁).trans (uvmunmap_steadyBut h₁ hq hunmap₂)
      have hsz₂ : (k₂.procs q).sz = (k.procs q).sz := by rw [hu.procs]
      have htf : (k₂.procs q).trapframe = none := by rw [hu.procs]; exact hok.2
      refine ⟨own, h₂, fun _ _ => rfl, hs, hsz₂.le, hu.tables ▸ hvas,
        fun pc hpc => freeUnmapped_ok hq htf (fun u hu' => ?_) hpc,
        fun hret => absurd hret (freeUnmapped_ne_ret _ _)⟩
      obtain ⟨hok', hr, -⟩ :=
        unmapRound_ok ⟨q, hq⟩ (fun m hm => userVa_pages (hsz₂.trans_le hsz) hm) hu'
      exact ⟨hok', hr⟩
  | pages u =>
    obtain ⟨⟨next', k₁⟩, hunmap, hk⟩ := bind_eq_ok.1 hk
    obtain ⟨rfl, rfl⟩ := Prod.mk.inj (Except.ok.inj hk)
    obtain ⟨hq, htf, hok⟩ := hok
    obtain ⟨hm, hvas', hgo⟩ := unmapNext_moved h hok hvas hunmap
    refine ⟨own, hm.books, fun _ _ => rfl, hm.steady.but own q, (hm.steady.sz q).le, hvas',
      fun pc hpc => freeUnmapped_ok hq ?_ (fun u' hu' => ⟨(hgo u' hu').1, (hgo u' hu').2.1⟩) hpc,
      fun hret => absurd hret (freeUnmapped_ne_ret _ _)⟩
    rw [hm.steady.trapframe, htf]
  | walk root =>
    obtain ⟨k₁, hwalk, hk⟩ := bind_eq_ok.1 hk
    obtain ⟨rfl, rfl⟩ := Prod.mk.inj (Except.ok.inj hk)
    obtain ⟨hq, htf⟩ := hok
    have hs := freewalk_steady hwalk
    refine ⟨Function.update own q none, h.freewalk hq hwalk,
      fun p hp => Function.update_of_ne hp _ _, hs.but own q, (hs.sz q).le, ?_, fun pc hpc => ?_,
      by simp⟩
    · rw [(freewalk_untouched hwalk).tables]
      exact hvas
    · obtain rfl := Next.go.inj hpc
      exact ⟨Function.update_self .., (hs.trapframe q).trans htf⟩
  | reset =>
    obtain ⟨rfl, rfl⟩ := Prod.mk.inj (Except.ok.inj hk)
    refine ⟨own, h.congr rfl (setProc_trapframe (by intro; rfl) k q) rfl, fun _ _ => rfl,
      setProc_steadyBut own k q _, ?_, hvas, by simp, fun _ => ⟨hok.1, ?_, rfl⟩⟩
    · simp [resetProc, Kernel.setProc]
    · simpa [resetProc, Kernel.setProc] using hok.2

end Kernel

end Xv6Swap.Paging
