import Xv6Swap.Paging.Calls

/-!
# The cap on resident user pages

A page that is brought in by a page fault has an entry in the frame table, so there are at most
`MAX_FRAMES` of them. `uvmalloc` and `uvmcopy` map pages that they get from `kalloc`, without an
entry. So the resident pages are capped in every run in which no eager `sbrk` maps a page and no
process with a resident page is forked (`residents_capped`), and not in others
(`eager_growth_not_capped`).

The pages that `exec` has loaded do not count. They are the resident pages without an entry at the
start of a run, for as long as they stay mapped (`ImageRuns`).
-/

namespace Xv6Swap.Paging

open Raid (pgSize)

namespace Kernel

open Tables

variable {σ : Type} {S : SwapOps σ} {L : SwapLaws S} {k k' : Kernel σ} {c : MemCall}
  {I : Set (ProcIdx × ℕ)}

/-- Page `w` of `q` is mapped for user code. -/
def resident (k : Kernel σ) (q : ProcIdx) (w : ℕ) : Bool :=
  (k.pte k.roots q w).any fun e => e.perm.u

/-- The resident user pages. -/
def residents (k : Kernel σ) : Set (ProcIdx × ℕ) := {x | k.resident x.1 x.2 = true}

/-- The pages with an entry in the frame table. -/
def tracked (k : Kernel σ) : Set (ProcIdx × ℕ) :=
  {x | ∃ i, (k.tables.frameTable i).page = some (true, some x.1, x.2 * pgSize)}

/-- The call maps no page without an entry: an eager `sbrk` stays within the last page or is
refused, and a process that is forked has no resident page. -/
def MapsTracked (k : Kernel σ) : MemCall → Prop
  | .sbrk p n eager => eager = true → 0 < n.toInt →
      npages (addSize (k.procs p).sz n.toInt) ≤ npages (k.procs p).sz ∨
        trapframeVa < addSize (k.procs p).sz n.toInt
  | .fork p => ∀ w < npages (k.procs p).sz, k.resident p w = false
  | _ => True

instance mapsTrackedDecidable (k : Kernel σ) : (c : MemCall) → Decidable (k.MapsTracked c)
  | .fault _ _ => inferInstanceAs (Decidable True)
  | .evict => inferInstanceAs (Decidable True)
  | .sbrk _ _ _ => inferInstanceAs (Decidable (_ → _ → _))
  | .fork p => inferInstanceAs (Decidable (∀ w < npages (k.procs p).sz, k.resident p w = false))
  | .exit _ _ => inferInstanceAs (Decidable True)
  | .wait _ _ _ => inferInstanceAs (Decidable True)

/-- A run from `k₀` to `k`, with the pages `I` that `exec` had loaded before and that are still
mapped. -/
inductive ImageRuns (S : SwapOps σ) (C : Kernel σ → MemCall → Prop) (k₀ : Kernel σ) :
    Set (ProcIdx × ℕ) → Kernel σ → Prop
  | nil : ImageRuns S C k₀ (k₀.residents \ k₀.tracked) k₀
  | snoc {I : Set (ProcIdx × ℕ)} {k k' : Kernel σ} {c : MemCall} (h : ImageRuns S C k₀ I k)
      (hcall : k.Callable c) (hC : C k c) (heq : k.memCall S c = .ok k') :
      ImageRuns S C k₀ (I ∩ k'.residents) k'

theorem ImageRuns.subset {C : Kernel σ → MemCall → Prop} {k₀ : Kernel σ}
    (h : ImageRuns S C k₀ I k) : I ⊆ k₀.residents := by
  induction h with
  | nil => exact Set.sdiff_subset
  | snoc _ _ _ _ ih => exact Set.inter_subset_left.trans ih

theorem imageRuns_of_memCalls {C : Kernel σ → MemCall → Prop} [∀ k c, Decidable (C k c)]
    {k₀ : Kernel σ} {cs : List MemCall} (hrun : ImageRuns S C k₀ I k)
    (h : memCalls S C cs k = some k') : ∃ I', ImageRuns S C k₀ I' k' := by
  induction cs generalizing I k with
  | nil =>
    obtain rfl := Option.some.inj h
    exact ⟨I, hrun⟩
  | cons c cs ih =>
    rw [memCalls] at h
    split at h
    · rename_i hc
      split at h
      · rename_i k₁ heq
        exact ih (hrun.snoc hc.1 hc.2 heq) h
      · cases h
    · cases h

/-! ## What each call keeps -/

/-- Every resident page has an entry or is in `I`. -/
def Covered (k : Kernel σ) (I : Set (ProcIdx × ℕ)) : Prop := k.residents ⊆ I ∪ k.tracked

theorem mem_residents {q : ProcIdx} {w : ℕ} :
    (q, w) ∈ k.residents ↔ ∃ e, k.pte k.roots q w = some e ∧ e.perm.u = true := by
  simp [residents, resident, Option.any_eq_true]

/-- Resident pages are below the size of their process. -/
theorem Sound.resident_lt (h : k.Sound) {q : ProcIdx} {w : ℕ} (hw : (q, w) ∈ k.residents) :
    w < npages (k.procs q).sz ∧ w < vpn trapframeVa := by
  obtain ⟨g, hinv, hs⟩ := h
  obtain ⟨e, he, hu⟩ := mem_residents.1 hw
  obtain ⟨root, hroot, hleaf⟩ := Option.bind_eq_some_iff.1 he
  have hpt := hinv.pt root _ (hs.size q root hroot)
  have hlt := (hpt.leaf_user_of_perm hleaf hu).1
  exact ⟨hlt, hlt.trans_le hpt.bound⟩

/-- Pages that were mapped before, with their entries kept, are covered. -/
theorem Covered.mono (h : k.Covered I)
    (hres : ∀ q w, (q, w) ∈ k'.residents → (q, w) ∈ k.residents)
    (hframe : ∀ q w, (q, w) ∈ k'.residents → (q, w) ∈ k.tracked → (q, w) ∈ k'.tracked) :
    k'.Covered I := by
  rintro ⟨q, w⟩ hw
  exact (h (hres q w hw)).imp id (hframe q w hw)

theorem residents_of_pte {q : ProcIdx} {w : ℕ} (hpte : k'.pte k'.roots q w = k.pte k.roots q w)
    (hw : (q, w) ∈ k'.residents) : (q, w) ∈ k.residents := by
  rw [mem_residents] at hw ⊢
  rwa [← hpte]

theorem tracked_of_page {q : ProcIdx} {w : ℕ}
    (hframe : ∀ i, (k'.tables.frameTable i).page = (k.tables.frameTable i).page)
    (hw : (q, w) ∈ k.tracked) : (q, w) ∈ k'.tracked := by
  obtain ⟨i, hi⟩ := hw
  exact ⟨i, (hframe i).trans hi⟩

theorem roots_of_shape (h : ∀ q, (k'.procs q).shape = (k.procs q).shape) : k'.roots = k.roots :=
  funext fun q => congrArg (fun s => s.2.2.1) (h q)

theorem SameView.covered (h : SameView k k') (hk : k.Covered I) : k'.Covered I := by
  refine hk.mono (fun q w hw => ?_) fun q w _ hw => tracked_of_page h.frame hw
  refine residents_of_pte ?_ hw
  rw [roots_of_shape h.shape]
  simp only [Kernel.pte, h.leaf]

/-- A page that is taken out loses its mapping and its entry. -/
theorem SwapsOut.covered {p : ProcIdx} {v : ℕ} {root pa : PA} {f : FrameIdx} {s : SlotIdx}
    (h : SwapsOut S p v root pa f s k k') (hk : k.Covered I) : k'.Covered I := by
  have hroots : k'.roots = k.roots := roots_of_shape h.shape
  have hpte : ∀ q w, k'.pte k'.roots q w =
      if k.roots q = some root ∧ w = v then none else k.pte k.roots q w := by
    intro q w
    rw [hroots, Kernel.pte, Kernel.pte, h.pts]
    cases hq : k.roots q with
    | none => simp
    | some r =>
      by_cases hr : r = root
      · by_cases hw : w = v <;> simp [setLeaf, setPt, hr, hw, vpn_mul]
      · simp [setLeaf, setPt, hr]
  refine hk.mono (fun q w hw => ?_) fun q w hw ht => ?_
  · rw [mem_residents, hpte] at hw
    rw [mem_residents]
    split at hw
    · simp at hw
    · exact hw
  · obtain ⟨i, hi⟩ := ht
    refine ⟨i, (Frame.page_congr (h.frame_other i ?_)).trans hi⟩
    rintro rfl
    have hentry := h.entry
    simp only [Frame.entry, Prod.mk.injEq] at hentry
    simp only [Frame.page, hentry, if_true, Option.some.injEq, Prod.mk.injEq, true_and] at hi
    obtain ⟨rfl, hvw⟩ := hi
    obtain rfl := Nat.eq_of_mul_eq_mul_right pgSize_pos hvw
    rw [mem_residents, hpte, if_pos ⟨h.pagetable, rfl⟩] at hw
    simp at hw

/-- A page that is brought in has an entry. -/
theorem PageIn.covered {p : ProcIdx} {v : ℕ} {root pa : PA} {i : FrameIdx}
    (h : PageIn p v root pa i k k') (hinj : ∀ q, k.roots q = some root → q = p)
    (hk : k.Covered I) : k'.Covered I := by
  have hroots : k'.roots = k.roots := roots_of_shape h.shape
  rintro ⟨q, w⟩ hw
  by_cases hnew : q = p ∧ w = v
  · obtain ⟨rfl, rfl⟩ := hnew
    exact .inr ⟨i, h.frame_self⟩
  · have hpte : k'.pte k'.roots q w = k.pte k.roots q w := by
      rw [hroots, Kernel.pte, Kernel.pte]
      cases hq : k.roots q with
      | none => rfl
      | some r =>
        by_cases hr : r = root
        · subst hr
          have hwv : w ≠ v := fun e => hnew ⟨hinj q hq, e⟩
          simp [h.leaf_self, hwv]
        · simp [h.leaf_other r hr]
    refine (hk (residents_of_pte hpte hw)).imp id fun ht => ?_
    obtain ⟨j, hj⟩ := ht
    refine ⟨j, (h.frame_other j ?_).trans hj⟩
    rintro rfl
    rw [Frame.page_of_unused h.unused] at hj
    cases hj

theorem Moves.covered (h : Moves S k k')
    (hinj : ∀ q r root, k.roots q = some root → k.roots r = some root → q = r)
    (hk : k.Covered I) : k'.Covered I := by
  refine (h.keeps (P := fun k₁ => k₁.roots = k.roots ∧ k₁.Covered I) (fun k₁ k₂ hstep hk₁ => ?_)
    ⟨rfl, hk⟩).2
  obtain ⟨hroots, hcov⟩ := hk₁
  refine ⟨(roots_of_shape hstep.moves.shape).trans hroots, ?_⟩
  cases hstep with
  | same h => exact h.covered hcov
  | pageOut h => exact h.covered hcov
  | pageIn h =>
    refine h.covered (fun q hq => ?_) hcov
    rw [hroots] at hq
    exact hinj q _ _ hq (hroots ▸ h.pagetable)

theorem Sound.roots_inj (h : k.Sound) (q r : ProcIdx) (root : PA) (hq : k.roots q = some root)
    (hr : k.roots r = some root) : q = r := by
  obtain ⟨g, hinv, hs⟩ := h
  exact hinv.own_inj q r root ((hs.own q).trans hq) ((hs.own r).trans hr)

theorem Resizes.covered {p : ProcIdx} {n : Int32} {eager : Bool} (h : Resizes p n.toInt eager k k')
    (hmaps : k.MapsTracked (.sbrk p n eager)) (hsound' : k'.Sound) (hk : k.Covered I) :
    k'.Covered I := by
  refine hk.mono (fun q w hw => ?_) fun q w hw ht => ?_
  · obtain hsame | hnone | ⟨rfl, heager, hd, hmax, hle, hlt⟩ :=
      h.pte q w (hsound'.resident_lt hw).2
    · exact residents_of_pte hsame hw
    · rw [mem_residents, hnone] at hw
      simp at hw
    · rcases hmaps heager hd with hfew | hbig <;> omega
  · obtain ⟨i, hi⟩ := ht
    obtain hsame | ⟨-, w', -, hi', -, hnone⟩ := h.frame i
    · exact ⟨i, hsame.trans hi⟩
    · -- the entry that was dropped is for a page that is no longer mapped
      rw [hi'] at hi
      simp only [Option.some.injEq, Prod.mk.injEq, true_and] at hi
      obtain ⟨rfl, hvw⟩ := hi
      obtain rfl := Nat.eq_of_mul_eq_mul_right pgSize_pos hvw
      rw [mem_residents, hnone] at hw
      simp at hw

theorem NoTrace.covered (h : NoTrace L k k') (hclean : k.Clean) (hk : k.Covered I) :
    k'.Covered I := by
  refine hk.mono (fun q w hw => residents_of_pte ?_ hw) fun q w _ ht =>
    tracked_of_page (fun i => by rw [h.frameTable]) ht
  have hroot : k'.roots q = k.roots q := by
    by_cases hq : (k.procs q).state = .unused
    · rw [roots, roots, (h.unused q hq).pagetable, (hclean q hq).pagetable]
    · rw [roots, roots, h.procs q hq]
  rw [Kernel.pte, Kernel.pte, hroot]
  cases hown : k.roots q with
  | none => rfl
  | some root => simp [h.pts q root hown]

theorem Forks.covered {p q : ProcIdx} (h : Forks p q k k') (hsound : k.Sound)
    (hmaps : k.MapsTracked (.fork p)) (hk : k.Covered I) : k'.Covered I := by
  refine hk.mono (fun r w hw => ?_) fun r w _ ht =>
    tracked_of_page (fun i => by rw [h.frameTable]) ht
  by_cases hr : r = q
  · -- the parent has no page to copy
    exfalso
    subst hr
    have hlt := (h.sound.resident_lt hw).2
    obtain ⟨e, he, hu⟩ := mem_residents.1 hw
    have hperm := h.perm w hlt
    rw [he] at hperm
    obtain ⟨e', he', hperm⟩ := Option.map_eq_some_iff.1 hperm.symm
    have hparent : (p, w) ∈ k.residents := mem_residents.2 ⟨e', he', by rw [hperm, hu]⟩
    have hno := hmaps w (hsound.resident_lt hparent).1
    exact Bool.false_ne_true (hno.symm.trans hparent)
  · exact residents_of_pte (h.pte_other r hr w) hw

theorem Frees.covered {q : ProcIdx} (h : Frees q k k') (hk : k.Covered I) : k'.Covered I := by
  have hne : ∀ {r w}, (r, w) ∈ k'.residents → r ≠ q := by
    rintro r w hw rfl
    rw [mem_residents] at hw
    simp [Kernel.pte, roots, h.blank.pagetable] at hw
  refine hk.mono (fun r w hw => residents_of_pte (h.pte r (hne hw) w) hw) fun r w hw ht => ?_
  obtain ⟨i, hi⟩ := ht
  refine ⟨i, (h.frame i).trans ?_⟩
  rw [if_neg fun hproc => ?_, hi]
  unfold Frame.page at hi
  split at hi
  · obtain ⟨-, hr, -⟩ := by simpa only [Option.some.injEq, Prod.mk.injEq] using hi
    exact hne hw (Option.some.inj (hr.symm.trans hproc))
  · cases hi

theorem kexit_covered (p : ProcIdx) (status : BitVec 32) (hk : k.Covered I) :
    (k.kexit p status).Covered I := by
  refine hk.mono (fun q w hw => residents_of_pte ?_ hw) fun q w _ ht => ht
  have hroots : (k.kexit p status).roots = k.roots := by
    funext r
    by_cases hr : r = p <;> simp [roots, kexit, setProc, hr]
  rw [hroots]
  rfl

theorem MemEffect.covered (h : MemEffect L k k' c) (hsound : k.Sound) (hclean : k.Clean)
    (hsound' : k'.Sound) (hmaps : k.MapsTracked c) (hk : k.Covered I) : k'.Covered I := by
  cases h with
  | moves h => exact h.covered hsound.roots_inj hk
  | resizes _ h => exact h.covered hmaps hsound' hk
  | noTrace h => exact h.covered hclean hk
  | forks h => exact h.covered hsound hmaps hk
  | exits _ h =>
    subst h
    exact kexit_covered _ _ hk
  | reaps hmoves _ h => exact h.covered (hmoves.covered hsound.roots_inj hk)

/-! ## Runs -/

/-- There are at most as many pages with an entry as entries. -/
theorem encard_tracked_le (k : Kernel σ) : k.tracked.encard ≤ maxFrames := by
  have hsub : k.tracked ⊆ Set.range fun i : FrameIdx =>
      (((k.tables.frameTable i).proc.getD ⟨0, nProc_pos⟩),
        (k.tables.frameTable i).va / pgSize) := by
    rintro ⟨q, w⟩ ⟨i, hi⟩
    refine ⟨i, ?_⟩
    unfold Frame.page at hi
    split at hi
    · simp only [Option.some.injEq, Prod.mk.injEq] at hi
      obtain ⟨-, hq, hva⟩ := hi
      simp only [hq, hva, Option.getD_some, Nat.mul_div_cancel _ pgSize_pos]
    · cases hi
  calc k.tracked.encard ≤ (Set.range _).encard := Set.encard_le_encard hsub
    _ = (Set.image _ Set.univ).encard := by rw [Set.image_univ]
    _ ≤ (Set.univ : Set FrameIdx).encard := Set.encard_image_le _ _
    _ = maxFrames := by simp

theorem ImageRuns.covered (L : SwapLaws S) {k₀ : Kernel σ} (h : ImageRuns S MapsTracked k₀ I k)
    (hsound : k₀.Sound) (hclean : k₀.Clean) : k.Sound ∧ k.Clean ∧ k.Covered I := by
  induction h with
  | nil =>
    refine ⟨hsound, hclean, fun x hx => ?_⟩
    by_cases ht : x ∈ k₀.tracked
    · exact .inr ht
    · exact .inl ⟨hx, ht⟩
  | snoc _ hcall hmaps heq ih =>
    obtain ⟨hs, hc, hk⟩ := ih
    obtain ⟨hs', heffect⟩ := memCall_spec L hs hc hcall heq
    refine ⟨hs', heffect.clean hc, fun x hx => ?_⟩
    exact (heffect.covered hs hc hs' hmaps hk hx).imp (fun hI => ⟨hI, hx⟩) id

/-- **Resident user memory is capped.** In every run of page faults, evictions, `sbrk`, `fork`,
`exit` and `wait` in which no eager `sbrk` maps a page and no process with a resident page is
forked, at most `MAX_FRAMES` user pages are resident that `exec` has not loaded. -/
theorem residents_capped (L : SwapLaws S) {k₀ : Kernel σ} (hsound : k₀.Sound) (hclean : k₀.Clean)
    (hrun : ImageRuns S MapsTracked k₀ I k) : (k.residents \ I).encard ≤ maxFrames := by
  obtain ⟨-, -, hk⟩ := hrun.covered L hsound hclean
  refine (Set.encard_le_encard fun x hx => ?_).trans (encard_tracked_le k)
  exact (hk hx.1).resolve_left hx.2

/-! ## A process that grows -/

/-- The process of three pages, with memory for 21 more and for its page table. -/
def roomy : Kernel Raid.Dev :=
  { sole with freelist := (List.range 23).map fun i => soleRoot + 0x1000 * (i + 1) }

def roomyGhost : Ghost :=
  { soleGhost with
    use := fun pa =>
      if pa = soleRoot then .root else if pa ∈ roomy.freelist then .free else .kernel }

theorem roomy_pages : PagesOk roomy.freelist roomy.kernEnd roomyGhost.use where
  free_use := by decide
  nodup := by decide
  managed pa hpa := by
    by_cases hroot : pa = soleRoot
    · subst hroot
      decide
    · by_cases hmem : pa ∈ roomy.freelist
      · have hall : ∀ pa ∈ roomy.freelist,
            pa % pgSize = 0 ∧ roomy.kernEnd ≤ pa ∧ pa < phystop := by decide
        exact hall pa hmem
      · simp [roomyGhost, hroot, hmem] at hpa

theorem roomy_sound : roomy.Sound := by
  have hown : ∀ {p root}, roomyGhost.own p = some root → p = soleProc ∧ root = soleRoot := by
    intro p root ho
    simpa [roomyGhost, soleGhost, eq_comm] using ho
  have hroots : ∀ p, roomyGhost.own p = (roomy.procs p).pagetable := by
    intro p
    by_cases hp : p = soleProc <;> simp [roomyGhost, soleGhost, roomy, sole, hp]
  refine ⟨roomyGhost, ⟨roomy_pages, fun root n hn => ?_, fun p root ho => ?_,
    fun p q root hp hq => ?_, fun p pa hpa => ?_, oneSwapped_ok (by decide) rfl⟩, hroots,
    fun p root hp => ?_, rfl⟩
  · obtain ⟨rfl, rfl⟩ : root = soleRoot ∧ 3 = n := by simpa [roomyGhost, soleGhost] using hn
    refine ⟨rfl, ?_, ?_, ?_, ?_, ?_, ?_, by decide⟩ <;> intro _ _ h <;> cases h
  · obtain ⟨-, rfl⟩ := hown ho
    rfl
  · rw [(hown hp).1, (hown hq).1]
  · by_cases hp : p = soleProc <;> simp [roomy, sole, hp] at hpa
  · obtain ⟨rfl, rfl⟩ := hown ((hroots p).trans hp)
    rfl

theorem roomy_clean : roomy.Clean := sole_clean

theorem roomy_residents : roomy.residents = ∅ := by
  ext ⟨q, w⟩
  by_cases hq : q = soleProc <;>
    simp [residents, resident, Kernel.pte, roots, roomy, sole, hq, PageTable.empty]

/-- Two page faults, a lazy growth by 21 pages, and an eager one within the last page. -/
def roomyCalls : List MemCall :=
  [.fault soleProc 0, .fault soleProc 4096, .sbrk soleProc 86016 false, .fault soleProc 86016,
    .sbrk soleProc (-1) false, .sbrk soleProc 1 true]

theorem roomy_capped_run : (memCalls (raidSwap .raid5) MapsTracked roomyCalls roomy).map
    (fun k => (List.range 24).filter (k.resident soleProc)) = some [0, 1, 21] := by
  decide +kernel

theorem residents_capped_roomy : roomy.Sound ∧ roomy.Clean ∧ ∃ I k,
    ImageRuns (raidSwap .raid5) MapsTracked roomy I k ∧
      (List.range 24).filter (k.resident soleProc) = [0, 1, 21] ∧
      (k.residents \ I).encard ≤ maxFrames := by
  obtain ⟨k, hcalls, hk⟩ := Option.map_eq_some_iff.1 roomy_capped_run
  obtain ⟨I, hrun⟩ := imageRuns_of_memCalls .nil hcalls
  exact ⟨roomy_sound, roomy_clean, I, k, hrun, hk,
    residents_capped (raidSwapLaws .raid5) roomy_sound roomy_clean hrun⟩

theorem roomy_eager_run : (memCalls (raidSwap .raid5) (fun _ _ => True)
    [.sbrk soleProc 86016 true] roomy).map
      (fun k => (List.range 21).all fun i => k.resident soleProc (3 + i)) = some true := by
  decide +kernel

/-- An eager growth by 21 pages: all of them are resident. -/
theorem eager_growth_not_capped : roomy.Sound ∧ roomy.Clean ∧ ∃ I k,
    ImageRuns (raidSwap .raid5) (fun _ _ => True) roomy I k ∧
      maxFrames < (k.residents \ I).encard := by
  obtain ⟨k, hcalls, hk⟩ := Option.map_eq_some_iff.1 roomy_eager_run
  obtain ⟨I, hrun⟩ := imageRuns_of_memCalls .nil hcalls
  have hI : I = ∅ := Set.subset_empty_iff.1 (roomy_residents ▸ hrun.subset)
  refine ⟨roomy_sound, roomy_clean, I, k, hrun, ?_⟩
  have hsub : (fun i => (soleProc, 3 + i)) '' ((Finset.range 21 : Finset ℕ) : Set ℕ) ⊆
      k.residents \ I := by
    rintro _ ⟨i, hi, rfl⟩
    have hall := List.all_eq_true.1 hk i (by simpa using hi)
    exact ⟨hall, by simp [hI]⟩
  have hinj : Function.Injective fun i : ℕ => (soleProc, 3 + i) := fun a b h => by
    simpa using h
  calc (maxFrames : ℕ∞) < 21 := by decide
    _ = ((Finset.range 21 : Finset ℕ) : Set ℕ).encard := by
      rw [Set.encard_coe_eq_coe_finsetCard, Finset.card_range]
      rfl
    _ = _ := (hinj.encard_image _).symm
    _ ≤ _ := Set.encard_le_encard hsub

end Kernel

end Xv6Swap.Paging
