import Xv6Swap.Paging.Unmap

/-!
# Growing and shrinking a process

`uvmalloc` adds pages of zeros to the page table of the current process or leaves it as it was
(`uvmalloc_spec`). With `uvmdealloc` this gives `sbrk` in its three forms: eager growth, lazy growth
and shrinking (`sysSbrk_spec`).
-/

namespace Xv6Swap.Paging.Kernel

open Raid (Page pgSize)
open Tables

variable {σ : Type} {S : SwapOps σ} {L : SwapLaws S} {k k' : Kernel σ} {g g' : Ghost}
  {root pa : PA} {n n' v : ℕ} {p : ProcIdx}

/-! ## Eager growth -/

/-- A step that no process can see, except that pages may become mapped or unmapped. -/
structure Unseen (L : SwapLaws S) (k : Kernel σ) (g : Ghost) (k' : Kernel σ) (g' : Ghost) :
    Prop where
  inv : Inv k' g'
  pend : g'.pend = none
  size : g'.size = g.size
  own : g'.own = g.own
  core : ∀ q, (k'.procs q).core = (k.procs q).core
  logical : ∀ q w, w < vpn trapframeVa → k'.logical L g.own q w = k.logical L g.own q w

theorem Unseen.trans {k'' : Kernel σ} {g'' : Ghost} (h : Unseen L k g k' g')
    (h' : Unseen L k' g' k'' g'') : Unseen L k g k'' g'' where
  inv := h'.inv
  pend := h'.pend
  size := h'.size.trans h.size
  own := h'.own.trans h.own
  core q := (h'.core q).trans (h.core q)
  logical q w hw := by
    have := h'.logical q w hw
    rw [h.own] at this
    exact this.trans (h.logical q w hw)

theorem Quiet.unseen (h : Quiet L k g k' g') (hinv : Inv k' g') (hpend : g'.pend = none) :
    Unseen L k g k' g' :=
  ⟨hinv, hpend, h.size, h.own, h.core, h.logical⟩

/-- Pages that read as zeros may be dropped. -/
theorem Unmapped.unseen {D : ℕ → Prop} (h : Unmapped L k g p D k' g')
    (hzero : ∀ w, D w → k.logical L g.own p w = 0) : Unseen L k g k' g' :=
  ⟨h.inv, h.pend, h.size, h.own, h.core, fun q w hw => by
    by_cases hD : q = p ∧ D w
    · rw [hD.1, h.logical_gone hD.2, hzero w hD.2]
    · exact h.logical q w hD hw⟩

/-- Page `w` of `p` has never been touched. -/
def Fresh (k : Kernel σ) (g : Ghost) (p : ProcIdx) (w : ℕ) : Prop :=
  k.pte g.own p w = none ∧ ∀ i, ¬ (k.tables.swapMap i).Holds p (w * pgSize)

theorem Fresh.logical_eq {w : ℕ} (h : Fresh k g p w) : k.logical L g.own p w = 0 := by
  simp [logical, h.1, swapPage_none h.2]

/-- A page that was never touched is mapped, without being registered in the frame table. -/
theorem Inv.map_fresh (h : Inv k g) (hpend : g.pend = none) (ho : g.own p = some root)
    (hv : v < g.np p) (hheld : g.use pa = .held) (hlow : ((k.pts root).low (v / 512)).isSome)
    (hfresh : Fresh k g p v) (perm : Perm) :
    Inv (k.setLeaf root (v * pgSize) (some ⟨pa, perm⟩)) (g.setUse pa (.user root v)) := by
  obtain ⟨n, hn⟩ := Option.isSome_iff_exists.1 (h.own_size p root ho)
  have hother : ∀ q w, (q, w) ≠ (p, v) →
      (k.setLeaf root (v * pgSize) (some ⟨pa, perm⟩)).pte g.own q w = k.pte g.own q w :=
    fun q w hqw => h.pte_setLeaf_other ho hqw
  have ht : TablesOk k.tables g.np ((k.setLeaf root (v * pgSize) (some ⟨pa, perm⟩)).pte g.own)
      g.pend := by
    refine h.tables.congr (fun i q w hi hw => ⟨hw, hother q w ?_⟩)
      fun i q w hi hw => ⟨hw, hother q w ?_⟩
    · rintro ⟨⟩
      obtain ⟨q', w', heq, -, ⟨pa', hpa'⟩ | ⟨hp, -⟩⟩ := h.tables.frame_ok i (congrArg (·.1) hi)
      · rw [hi] at heq
        simp only [Prod.mk.injEq, Option.some.injEq, true_and] at heq
        obtain ⟨rfl, hw'⟩ := heq
        obtain rfl := Nat.eq_of_mul_eq_mul_right pgSize_pos hw'
        simp [hfresh.1] at hpa'
      · simp [hpend] at hp
    · rintro ⟨⟩
      exact hfresh.2 i hi
  refine h.change_pt hn (.user root v) k.tables g.pend hheld ?_ ht
  rw [vpn_mul]
  exact ((h.pt root n hn).update_spare (.inr hheld) _).set_leaf
    (by rw [← Ghost.np_of_own ho hn]; exact hv) hlow (by simp)

/-- A page of zeros is mapped without being registered in the frame table. -/
theorem installZero_spec (h : Inv k g) (hpend : g.pend = none) (ho : g.own p = some root)
    (hv : v < g.np p) (hheld : g.use pa = .held) (hzero : k.mem pa = 0)
    (hlow : ((k.pts root).low (v / 512)).isSome) (hfresh : Fresh k g p v) (perm : Perm) :
    Unseen L k g (k.setLeaf root (v * pgSize) (some ⟨pa, perm⟩)) (g.setUse pa (.user root v)) := by
  refine ⟨h.map_fresh hpend ho hv hheld hlow hfresh perm, hpend, rfl, rfl, fun _ => rfl,
    fun q w hw => ?_⟩
  by_cases hqw : (q, w) = (p, v)
  · obtain ⟨rfl, rfl⟩ := Prod.mk.inj hqw
    rw [hfresh.logical_eq, logical, Inv.pte_setLeaf_self ho]
    exact hzero
  · exact logical_congr (h.pte_setLeaf_other ho hqw) (fun _ _ => rfl) fun _ => rfl

/-- The pages of the range `[n, v)` have been added, and those of `[v, n')` are still to come. -/
structure Growing (L : SwapLaws S) (k : Kernel σ) (g : Ghost) (p : ProcIdx) (root : PA)
    (n v n' : ℕ) : Prop where
  inv : Inv k g
  pend : g.pend = none
  owns : Owns k g
  own : g.own p = some root
  size : g.size root = some n'
  le : n ≤ v
  zero : ∀ w, n ≤ w → w < n' → k.logical L g.own p w = 0
  swap : ∀ w, n ≤ w → w < n' → ∀ i, ¬ (k.tables.swapMap i).Holds p (w * pgSize)
  pte : ∀ w, v ≤ w → w < n' → k.pte g.own p w = none

theorem Growing.bound (h : Growing L k g p root n v n') : n' ≤ vpn trapframeVa :=
  (h.inv.pt root n' h.size).bound

/-- Giving up: `uvmdealloc` removes the pages added so far. -/
theorem Growing.undo (h : Growing L k g p root n v n') (hv : v ≤ n') :
    ∃ k' g', k.uvmdealloc p root (v * pgSize) (n * pgSize) = .ok (n * pgSize, k') ∧
      Unseen L k g k' g' ∧ ∀ w, n ≤ w → w < n' → Fresh k' g p w := by
  have hbound := h.bound
  obtain ⟨k', g', heq, hun⟩ := uvmdealloc_spec L h.inv h.pend h.owns h.own
    (v * pgSize) (n * pgSize) (by rw [npages_mul]; omega)
  rw [npages_mul, npages_mul] at hun
  rw [min_eq_right (Nat.mul_le_mul_right _ h.le)] at heq
  refine ⟨k', g', heq, hun.unseen fun w hw => h.zero w hw.1 (by omega), fun w hnw hwn => ?_⟩
  by_cases hwv : w < v
  · exact ⟨hun.gone_pte w ⟨hnw, hwv⟩, hun.gone_swap w ⟨hnw, hwv⟩⟩
  · refine ⟨?_, fun i hi => h.swap w hnw hwn i ((hun.swap i p w (by omega)).1 hi)⟩
    rw [hun.pte p w (by omega)]
    exact h.pte w (by omega) hwn

theorem Growing.step (h : Growing L k g p root n v n') (hu : Unseen L k g k' g')
    (hmap : k'.tables.swapMap = k.tables.swapMap) {v' : ℕ} (hv : v ≤ v')
    (hpte : ∀ w, v' ≤ w → w < n' → k'.pte g.own p w = none) :
    Growing L k' g' p root n v' n' := by
  have hbound := h.bound
  refine ⟨hu.inv, hu.pend, fun q => ?_, hu.own ▸ h.own, hu.size ▸ h.size, h.le.trans hv,
    fun w hnw hwn => ?_, fun w hnw hwn => ?_, hu.own ▸ hpte⟩
  · have := hu.core q
    simp only [Proc.core, ProcCore.mk.injEq] at this
    rw [hu.own, h.owns q, this.2.2.1]
  · rw [hu.own, hu.logical p w (by omega), h.zero w hnw hwn]
  · rw [hmap]
    exact h.swap w hnw hwn

theorem Unseen.refl (h : Inv k g) (hpend : g.pend = none) : Unseen L k g k g :=
  ⟨h, hpend, rfl, rfl, fun _ => rfl, fun _ _ _ => rfl⟩

/-- The loop of `uvmalloc`: all pages of the range are added, or none. -/
theorem uvmallocLoop_spec (m : ℕ) (perm : Perm) (h : Growing L k g p root n v n')
    (hm : v + m = n') :
    ∃ b k' g', uvmallocLoop p root (n * pgSize) perm m (v * pgSize) k = .ok (b, k') ∧
      Unseen L k g k' g' ∧ (b = false → ∀ w, n ≤ w → w < n' → Fresh k' g p w) := by
  induction m generalizing k g v with
  | zero => exact ⟨true, k, g, rfl, .refl h.inv h.pend, by simp⟩
  | succ m ih =>
    unfold uvmallocLoop
    cases hk : k.kalloc with
    | mk r k₁ =>
      cases r with
      | none =>
        obtain rfl := kalloc_none hk
        obtain ⟨k', g', heq, hu, hfresh⟩ := h.undo (by omega)
        simp only [heq, ok_bind]
        exact ⟨false, k', g', rfl, hu, fun _ => hfresh⟩
      | some pa =>
        obtain ⟨hfree, hinv₁, hq₁, hpts₁, htab₁⟩ := kalloc_spec (L := L) h.inv hk 0
        have hsize : (g.setUse pa .held).size root = some n' := h.size
        have hleaf : ((k₁.fill pa 0).pts root).leaf v = none := by
          have := h.pte v le_rfl (by omega)
          rw [pte_of_own h.own] at this
          simpa [fill, hpts₁] using this
        obtain ⟨k₂, g₂, hinv₂, hq₂, hpend₂, htab₂, hleaf₂, hres⟩ :=
          mappages_spec (L := L) hinv₁ hsize (by omega) hleaf pa perm
        obtain ⟨hheld, hmem⟩ := hq₂.held pa (by simp)
        have hq := hq₁.trans hq₂
        have hmap : k₂.tables.swapMap = k.tables.swapMap := by
          rw [htab₂]
          simp [fill, htab₁]
        have hpte₂ : ∀ w, v ≤ w → w < n' → k₂.pte g.own p w = none := by
          intro w hvw hwn
          rw [← h.pte w hvw hwn]
          simp [pte, hleaf₂, fill, hpts₁]
        simp only
        rcases hres with heq | ⟨hlow, heq⟩
        · -- no memory for the page table
          obtain ⟨k₃, heq₃, hinv₃, hq₃, hpts₃, htab₃, -⟩ := kfree_spec (L := L) hinv₂ hheld
          have hu : Unseen L k g k₃ (g₂.setUse pa .free) :=
            ((hq.setUse pa (by simp [hfree]) .free).trans hq₃).unseen hinv₃ (hpend₂.trans h.pend)
          have hgrow := h.step hu (by rw [htab₃, hmap]) le_rfl fun w hvw hwn => by
            rw [← hpte₂ w hvw hwn]
            simp [pte, hpts₃]
          obtain ⟨k', g', heq', hu', hfresh⟩ := hgrow.undo (by omega)
          simp only [heq, ok_bind, if_true, heq₃, heq']
          exact ⟨false, k', g', rfl, hu.trans hu', fun _ w hnw hwn =>
            ⟨hq.own ▸ (hfresh w hnw hwn).1, (hfresh w hnw hwn).2⟩⟩
        · have hfreshv : Fresh k₂ g₂ p v := by
            refine ⟨hq.own ▸ hpte₂ v le_rfl (by omega), ?_⟩
            rw [hmap]
            exact h.swap v h.le (by omega)
          have hzero : k₂.mem pa = 0 := by
            rw [hmem]
            simp [fill]
            rfl
          have hu₃ := installZero_spec (L := L) hinv₂ (hpend₂.trans h.pend) (hq.own ▸ h.own)
            (by rw [hq.np, Ghost.np_of_own h.own h.size]; omega) hheld hzero hlow hfreshv perm
          have hu := (hq.unseen hinv₂ (hpend₂.trans h.pend)).trans hu₃
          have hgrow : Growing L _ _ p root n (v + 1) n' := h.step hu hmap (by omega)
            fun w hvw hwn => by
              have hne : (p, w) ≠ (p, v) := fun e => by
                have := (Prod.mk.inj e).2
                omega
              have := hinv₂.pte_setLeaf_other (e := some ⟨pa, perm⟩) (hq.own ▸ h.own) hne
              rw [hq.own] at this
              rw [this]
              exact hpte₂ w (by omega) hwn
          obtain ⟨b, k', g', heq', hu', hfresh⟩ := ih hgrow (by omega)
          have hnext : v * pgSize + pgSize = (v + 1) * pgSize := by ring
          simp only [heq, ok_bind, Bool.true_eq_false, if_false, hnext]
          exact ⟨b, k', g', heq', hu.trans hu', fun hb w hnw hwn =>
            ⟨hq.own ▸ (hfresh hb w hnw hwn).1, (hfresh hb w hnw hwn).2⟩⟩

/-! ## `sbrk` -/

/-- Process `p` has size `sz'`. Pages that are not in both sizes are dropped, or are new and read as
zeros, and all others are as they were. -/
structure Resized (L : SwapLaws S) (k : Kernel σ) (p : ProcIdx) (sz' : ℕ) (k' : Kernel σ) :
    Prop where
  core : ∀ q, (k'.procs q).core =
    (if q = p then { k.procs p with sz := sz' } else k.procs q).core
  logical : ∀ q w, w < vpn trapframeVa → (q = p → w < npages sz') →
    k'.logical L k'.roots q w =
      if q = p ∧ npages (k.procs p).sz ≤ w then 0 else k.logical L k.roots q w

theorem Synced.roots_eq (h : Synced k g) : k.roots = g.own := funext fun p => (h.own p).symm

theorem Synced.resized (hs : Synced k g) (h : Inv k g) (hroot : (k.procs p).pagetable = some root)
    {sz' : ℕ} (hown : g'.own = g.own) (hpend : g'.pend = none)
    (hsize : g'.size = Function.update g.size root (some (npages sz')))
    (hcore : ∀ q, (k'.procs q).core =
      (if q = p then { k.procs p with sz := sz' } else k.procs q).core) : Synced k' g' := by
  have hpt : ∀ q, (k'.procs q).pagetable = (k.procs q).pagetable := by
    intro q
    have := congrArg ProcCore.pagetable (hcore q)
    simp only [Proc.core] at this
    rw [this]
    split
    · rename_i hq
      rw [hq]
    · rfl
  refine ⟨fun q => by rw [hown, hs.own, hpt], fun q r hq => ?_, hpend⟩
  rw [hpt] at hq
  have hszq := congrArg ProcCore.sz (hcore q)
  simp only [Proc.core] at hszq
  rw [hsize, hszq]
  by_cases hqp : q = p
  · subst hqp
    obtain rfl : root = r := Option.some.inj (hroot.symm.trans hq)
    simp
  · have hr : r ≠ root := by
      rintro rfl
      exact hqp (h.own_inj q p r ((hs.own q).trans hq) ((hs.own p).trans hroot))
    rw [Function.update_of_ne hr, if_neg hqp]
    exact hs.size q r hq

/-- Page numbers beyond the size of the process are fresh. -/
theorem Inv.fresh_of_le (h : Inv k g) {w : ℕ} (hle : g.np p ≤ w) (hw : w < vpn trapframeVa) :
    Fresh k g p w := by
  refine ⟨?_, fun i hi => ?_⟩
  · cases he : k.pte g.own p w with
    | none => rfl
    | some e =>
      obtain ⟨-, -, -, hlt, -⟩ := h.pte_user he hw
      omega
  · have := (h.tables.swap_pte hi).1
    omega

theorem setSize_core (k : Kernel σ) (p : ProcIdx) (sz : ℕ) (q : ProcIdx) :
    ((k.setProc p fun proc => { proc with sz := sz }).procs q).core =
      (if q = p then { k.procs p with sz := sz } else k.procs q).core := by
  by_cases hq : q = p
  · simp [setProc, hq]
  · simp [setProc, hq]

theorem setSize_roots (k : Kernel σ) (p : ProcIdx) (sz : ℕ) :
    (k.setProc p fun proc => { proc with sz := sz }).roots = k.roots := by
  funext q
  by_cases hq : q = p <;> simp [roots, setProc, hq]

theorem Inv.setSize (h : Inv k g) (p : ProcIdx) (sz : ℕ) :
    Inv (k.setProc p fun proc => { proc with sz := sz }) g :=
  h.congr rfl rfl rfl (fun q => by by_cases hq : q = p <;> simp [setProc, hq]) (.refl _)

theorem npages_le_of_le {sz : ℕ} (h : sz ≤ trapframeVa) : npages sz ≤ vpn trapframeVa := by
  simp only [npages_eq, vpn, trapframeVa, trampolineVa, maxVa, pgSize] at h ⊢
  omega

/-- Growing lazily: only the size changes. -/
theorem growLazy_spec (L : SwapLaws S) (h : Inv k g) (hs : Synced k g)
    (hroot : (k.procs p).pagetable = some root) {sz' : ℕ} (hle : (k.procs p).sz ≤ sz')
    (hmax : sz' ≤ trapframeVa) :
    ∃ g', Inv (k.setProc p fun proc => { proc with sz := sz' }) g' ∧
      Synced (k.setProc p fun proc => { proc with sz := sz' }) g' ∧
      Resized L k p sz' (k.setProc p fun proc => { proc with sz := sz' }) := by
  have ho : g.own p = some root := (hs.own p).trans hroot
  have hn := hs.size p root hroot
  have hcore := k.setSize_core p sz'
  have hinv := (h.resize hs.pend ho hn _ (npages_le_of_le hmax) fun w hle' hlt => by
    have := npages_mono hle
    omega).setSize p sz'
  refine ⟨_, hinv, hs.resized h hroot rfl hs.pend rfl hcore, hcore, fun q w hw _ => ?_⟩
  rw [setSize_roots]
  change k.logical L k.roots q w = _
  split
  · rename_i hnew
    rw [hs.roots_eq, hnew.1]
    exact (h.fresh_of_le (by rw [Ghost.np_of_own ho hn]; exact hnew.2) hw).logical_eq
  · rfl

/-- `uvmalloc` from the size of the process to a larger one. -/
theorem uvmalloc_spec (L : SwapLaws S) (h : Inv k g) (hs : Synced k g)
    (hroot : (k.procs p).pagetable = some root) {sz' : ℕ} (hle : (k.procs p).sz ≤ sz')
    (hmax : sz' ≤ trapframeVa) (perm : Perm) :
    ∃ (b : Bool) (k' : Kernel σ) (g' : Ghost),
      k.uvmalloc p root (k.procs p).sz sz' perm = .ok (if b then some sz' else none, k') ∧
      Inv k' g' ∧ g'.own = g.own ∧ g'.pend = none ∧
      g'.size = Function.update g.size root (some (npages (if b then sz' else (k.procs p).sz))) ∧
      (∀ q, (k'.procs q).core = (k.procs q).core) ∧
      ∀ q w, w < vpn trapframeVa → k'.logical L g.own q w = k.logical L g.own q w := by
  have ho : g.own p = some root := (hs.own p).trans hroot
  have hn := hs.size p root hroot
  generalize hsz : (k.procs p).sz = sz at hn hle
  have hmono := npages_mono hle
  have hbound := npages_le_of_le hmax
  have hinv := h.resize hs.pend ho hn _ hbound fun w hle' hlt => by omega
  have hfresh : ∀ w, npages sz ≤ w → w < npages sz' → Fresh k g p w := fun w hnw hwn =>
    h.fresh_of_le (by rw [Ghost.np_of_own ho hn]; exact hnw) (by omega)
  have hgrow : Growing L k { g with size := Function.update g.size root (some (npages sz')) } p root
      (npages sz) (npages sz) (npages sz') :=
    ⟨hinv, hs.pend, hs.own, ho, by simp, le_rfl, fun w hnw hwn => (hfresh w hnw hwn).logical_eq,
      fun w hnw hwn => (hfresh w hnw hwn).2, fun w hnw hwn => (hfresh w hnw hwn).1⟩
  obtain ⟨b, k', g', heq, hu, hundo⟩ :=
    uvmallocLoop_spec (npages sz' - npages sz) perm hgrow (by omega)
  have hcount : (npages sz' * pgSize - npages sz * pgSize) / pgSize = npages sz' - npages sz := by
    rw [← Nat.sub_mul, Nat.mul_div_cancel _ pgSize_pos]
  have hres : k.uvmalloc p root sz sz' perm = .ok (if b then some sz' else none, k') := by
    rw [uvmalloc, if_neg (Nat.not_lt.2 hle)]
    simp only [pgRoundUp_eq, hcount, heq, ok_bind]
    rfl
  cases b with
  | true => exact ⟨true, k', g', hres, hu.inv, hu.own, hu.pend, hu.size, hu.core, hu.logical⟩
  | false =>
    have hsize' : g'.size root = some (npages sz') := by simp [hu.size]
    have hinv' := hu.inv.resize hu.pend (hu.own ▸ ho) hsize' _ (hmono.trans hbound)
      fun w hnw hwn => by
        obtain ⟨hpte, hno⟩ := hundo rfl w hnw hwn
        exact ⟨hu.own ▸ hpte, hno⟩
    exact ⟨false, k', _, hres, hinv', hu.own, hu.pend, by simp [hu.size], hu.core, hu.logical⟩

/-- `growproc` with a positive argument, to the size `sz'`. -/
theorem growEager_spec (L : SwapLaws S) (h : Inv k g) (hs : Synced k g)
    (hroot : (k.procs p).pagetable = some root) {sz' : ℕ} (hle : (k.procs p).sz ≤ sz')
    (hmax : sz' ≤ trapframeVa) (perm : Perm) :
    ∃ (b : Bool) (k' : Kernel σ) (g' : Ghost),
      k.uvmalloc p root (k.procs p).sz sz' perm = .ok (if b then some sz' else none, k') ∧
      (b = false → Inv k' g' ∧ Synced k' g' ∧ Resized L k p (k.procs p).sz k') ∧
      (b = true → Inv (k'.setProc p fun proc => { proc with sz := sz' }) g' ∧
        Synced (k'.setProc p fun proc => { proc with sz := sz' }) g' ∧
        Resized L k p sz' (k'.setProc p fun proc => { proc with sz := sz' })) := by
  have ho : g.own p = some root := (hs.own p).trans hroot
  have hn := hs.size p root hroot
  obtain ⟨b, k', g', heq, hinv, hown, hpend, hsize, hcore, hlog⟩ :=
    uvmalloc_spec L h hs hroot hle hmax perm
  have hroots : k'.roots = g.own := by
    funext q
    have := congrArg ProcCore.pagetable (hcore q)
    simp only [Proc.core] at this
    rw [roots, this, hs.own]
  -- a new page reads as zeros, before and after
  have hlog' : ∀ q w, w < vpn trapframeVa → k'.logical L g.own q w =
      if q = p ∧ npages (k.procs p).sz ≤ w then 0 else k.logical L k.roots q w := by
    intro q w hw
    rw [hlog q w hw, hs.roots_eq]
    split
    · rename_i hnew
      rw [hnew.1]
      exact (h.fresh_of_le (by rw [Ghost.np_of_own ho hn]; exact hnew.2) hw).logical_eq
    · rfl
  refine ⟨b, k', g', heq, ?_, ?_⟩
  · rintro rfl
    have hcore' : ∀ q, (k'.procs q).core =
        (if q = p then { k.procs p with sz := (k.procs p).sz } else k.procs q).core := by
      intro q
      rw [hcore q]
      split
      · rename_i hq
        rw [hq]
      · rfl
    exact ⟨hinv, hs.resized h hroot hown hpend hsize hcore', hcore', fun q w hw _ => by
      rw [hroots]
      exact hlog' q w hw⟩
  · rintro rfl
    have hcore' : ∀ q, ((k'.setProc p fun proc => { proc with sz := sz' }).procs q).core =
        (if q = p then { k.procs p with sz := sz' } else k.procs q).core := by
      intro q
      rw [setSize_core]
      have hq := hcore q
      have hp := hcore p
      simp only [Proc.core, ProcCore.mk.injEq] at hq hp
      split
      · simp [Proc.core, hp]
      · simp [Proc.core, hq]
    refine ⟨hinv.setSize p sz', hs.resized h hroot hown hpend hsize hcore', hcore',
      fun q w hw _ => ?_⟩
    rw [setSize_roots, hroots]
    exact hlog' q w hw

/-- `growproc` with a negative argument, to the size `sz'`. -/
theorem shrink_spec (L : SwapLaws S) (h : Inv k g) (hs : Synced k g)
    (hroot : (k.procs p).pagetable = some root) (sz' : ℕ) :
    ∃ k' g', k.uvmdealloc p root (k.procs p).sz sz' = .ok (min (k.procs p).sz sz', k') ∧
      Inv (k'.setProc p fun proc => { proc with sz := min (k.procs p).sz sz' }) g' ∧
      Synced (k'.setProc p fun proc => { proc with sz := min (k.procs p).sz sz' }) g' ∧
      Resized L k p (min (k.procs p).sz sz')
        (k'.setProc p fun proc => { proc with sz := min (k.procs p).sz sz' }) := by
  have ho : g.own p = some root := (hs.own p).trans hroot
  have hn := hs.size p root hroot
  have hbound := (h.pt root _ hn).bound
  generalize hsz : (k.procs p).sz = sz at hn hbound
  obtain ⟨k', g', heq, hun⟩ := uvmdealloc_spec L h hs.pend hs.own ho sz sz' hbound
  have hmin : npages (min sz sz') = min (npages sz) (npages sz') := by
    rcases Nat.le_total sz sz' with hle | hle
    · rw [min_eq_left hle, min_eq_left (npages_mono hle)]
    · rw [min_eq_right hle, min_eq_right (npages_mono hle)]
  have hsize' : g'.size root = some (npages sz) := by rw [hun.size, hn]
  have hinv := (hun.inv.resize hun.pend (hun.own ▸ ho) hsize' (npages (min sz sz'))
    ((npages_mono (min_le_left _ _)).trans hbound) fun w hnw hwn => by
      have hD : npages sz' ≤ w ∧ w < npages sz := by omega
      exact ⟨hun.own ▸ hun.gone_pte w hD, hun.gone_swap w hD⟩).setSize p (min sz sz')
  have hcore : ∀ q, ((k'.setProc p fun proc => { proc with sz := min sz sz' }).procs q).core =
      (if q = p then { k.procs p with sz := min sz sz' } else k.procs q).core := by
    intro q
    rw [setSize_core]
    have hq := hun.core q
    have hp := hun.core p
    simp only [Proc.core, ProcCore.mk.injEq] at hq hp
    split
    · simp [Proc.core, hp]
    · simp [Proc.core, hq]
  refine ⟨k', _, heq, hinv, hs.resized h hroot hun.own hun.pend (by simp [hun.size]) hcore, hcore,
    fun q w hw hlt => ?_⟩
  have hroots : k'.roots = g.own := by
    funext q
    have := congrArg ProcCore.pagetable (hun.core q)
    simp only [Proc.core] at this
    rw [roots, this, hs.own]
  rw [setSize_roots, hroots, hs.roots_eq, hsz]
  change k'.logical L g.own q w = _
  rw [hun.logical q w (by rintro ⟨rfl, hD⟩; have := hlt rfl; omega) hw, if_neg]
  rintro ⟨rfl, hle⟩
  have := hlt rfl
  omega

theorem Resized.refl (L : SwapLaws S) (k : Kernel σ) (p : ProcIdx) :
    Resized L k p (k.procs p).sz k := by
  refine ⟨fun q => ?_, fun q w _ hlt => ?_⟩
  · split
    · rename_i hq
      rw [hq]
    · rfl
  · rw [if_neg]
    rintro ⟨rfl, hle⟩
    have := hlt rfl
    omega

/-- The size that `sbrk` is asked for. A request to shrink by more than the size changes nothing. -/
def sbrkSize (sz : ℕ) (n : ℤ) : ℕ := if 0 ≤ (sz : ℤ) + n then (sz + n).toNat else sz

theorem addSize_of_nonneg {sz : ℕ} {n : ℤ} (h : 0 ≤ (sz : ℤ) + n) (hlt : (sz : ℤ) + n < 2 ^ 64) :
    addSize sz n = sbrkSize sz n := by
  rw [addSize, sbrkSize, if_pos h, Int.emod_eq_of_lt h hlt]

theorem min_addSize {sz : ℕ} (hsz : sz ≤ trapframeVa) {n : ℤ} (hlo : -2 ^ 31 ≤ n) (hneg : n < 0) :
    min sz (addSize sz n) = sbrkSize sz n := by
  simp only [addSize, sbrkSize, trapframeVa, trampolineVa, maxVa, pgSize] at hsz ⊢
  split <;> omega

/-- **`sbrk`** resizes the process as asked, or fails and leaves it as it was. -/
theorem sysSbrk_spec (L : SwapLaws S) (h : Inv k g) (hs : Synced k g)
    (hroot : (k.procs p).pagetable = some root) {n : ℤ} (hlo : -2 ^ 31 ≤ n) (hhi : n < 2 ^ 31)
    (eager : Bool) :
    ∃ r k' g', k.sysSbrk p n eager = .ok (r, k') ∧ Inv k' g' ∧ Synced k' g' ∧
      (r = none → Resized L k p (k.procs p).sz k') ∧
      (r.isSome → Resized L k p (sbrkSize (k.procs p).sz n) k') := by
  have hsz : (k.procs p).sz ≤ trapframeVa := by
    have := (h.pt root _ (hs.size p root hroot)).bound
    simp only [npages_eq, vpn, trapframeVa, trampolineVa, maxVa, pgSize] at this ⊢
    omega
  have hfail : ∃ r k' g', (Except.ok (none, k) : Result (Option ℕ × Kernel σ)) = .ok (r, k') ∧
      Inv k' g' ∧ Synced k' g' ∧ (r = none → Resized L k p (k.procs p).sz k') ∧
      (r.isSome → Resized L k p (sbrkSize (k.procs p).sz n) k') :=
    ⟨none, k, g, rfl, h, hs, fun _ => .refl L k p, by simp⟩
  have hbig : (trapframeVa : ℤ) < 2 ^ 38 := by decide
  have hszZ : ((k.procs p).sz : ℤ) ≤ trapframeVa := by exact_mod_cast hsz
  -- growing: the sum does not wrap
  have hgrow : 0 ≤ n → addSize (k.procs p).sz n = sbrkSize (k.procs p).sz n ∧
      (k.procs p).sz ≤ sbrkSize (k.procs p).sz n := fun hn => by
    refine ⟨addSize_of_nonneg (by omega) (by omega), ?_⟩
    rw [sbrkSize, if_pos (by omega)]
    omega
  unfold sysSbrk
  by_cases hneg : n < 0
  · obtain ⟨k', g', heq, hinv, hsync, hres⟩ := shrink_spec L h hs hroot (addSize (k.procs p).sz n)
    simp only [growproc, hroot, if_neg (show ¬ 0 < n by omega), heq, ok_bind, hneg,
      decide_true, Bool.or_true, if_true]
    rw [min_addSize hsz hlo hneg] at hinv hsync hres ⊢
    exact ⟨_, _, g', rfl, hinv, hsync, by simp, fun _ => hres⟩
  · obtain ⟨hadd, hle⟩ := hgrow (by omega)
    cases eager with
    | false =>
      simp only [hadd, decide_eq_false hneg, Bool.or_self, Bool.false_eq_true, if_false,
        if_neg (Nat.not_lt.2 hle)]
      split
      · exact hfail
      · rename_i hmax
        obtain ⟨g', hinv, hsync, hres⟩ := growLazy_spec L h hs hroot hle (Nat.le_of_not_lt hmax)
        exact ⟨_, _, g', rfl, hinv, hsync, by simp, fun _ => hres⟩
    | true =>
      simp only [Bool.true_or, if_true, growproc, hroot, hadd]
      by_cases hpos : 0 < n
      · simp only [if_pos hpos]
        by_cases hmax : trapframeVa < sbrkSize (k.procs p).sz n
        · simp only [if_pos hmax, ok_bind]
          exact hfail
        · obtain ⟨b, k', g', heq, hno, hyes⟩ :=
            growEager_spec L h hs hroot hle (Nat.le_of_not_lt hmax) .userRw
          simp only [if_neg hmax, heq, ok_bind]
          cases b with
          | false =>
            obtain ⟨hinv, hsync, hres⟩ := hno rfl
            exact ⟨none, k', g', rfl, hinv, hsync, fun _ => hres, by simp⟩
          | true =>
            obtain ⟨hinv, hsync, hres⟩ := hyes rfl
            exact ⟨_, _, g', rfl, hinv, hsync, by simp, fun _ => hres⟩
      · obtain rfl : n = 0 := by omega
        have hzero : sbrkSize (k.procs p).sz 0 = (k.procs p).sz := by simp [sbrkSize]
        simp only [lt_irrefl, if_false, ok_bind, hzero]
        exact ⟨_, k, g, rfl, h, hs, by simp, fun _ => .refl L k p⟩

end Xv6Swap.Paging.Kernel
