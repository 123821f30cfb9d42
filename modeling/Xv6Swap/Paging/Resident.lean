import Xv6Swap.Paging.Evict

/-!
# Page faults keep the pages

An allocation for a user page may need evictions, but no process sees a difference
(`kallocUser_spec`). A page fault below the size of the process makes the page resident, with the
contents it had, or leaves it as it was (`vmfault_spec`).
-/

namespace Xv6Swap.Paging.Kernel

open Raid (Page pgSize)
open Tables

variable {σ : Type} {S : SwapOps σ} {L : SwapLaws S} {k k' : Kernel σ} {g g' : Ghost}
  {root pa : PA} {n v : ℕ} {p : ProcIdx}

/-! ## Allocation of a user page -/

/-- The result of an allocation for page `v` of `p`: a cleared page that is registered in the frame
table and held, or nothing. -/
structure Allocated (L : SwapLaws S) (k : Kernel σ) (g : Ghost) (p : ProcIdx) (v : ℕ)
    (r : Option PA) (k' : Kernel σ) (g' : Ghost) : Prop where
  inv : Inv k' g'
  quiet : Quiet L k g k' g'
  none_pend : r = none → g'.pend = none
  some_pend : ∀ pa, r = some pa → g'.pend = some (p, v)
  held : ∀ pa, r = some pa → g'.use pa = .held ∧ g.use pa ≠ .held ∧ k'.mem pa = 0

theorem Quiet.allocated {k₁ : Kernel σ} {g₁ : Ghost} {r : Option PA} (hq : Quiet L k g k₁ g₁)
    (h : Allocated L k₁ g₁ p v r k' g') : Allocated L k g p v r k' g' :=
  { h with
    quiet := hq.trans h.quiet
    held := fun pa hr => ⟨(h.held pa hr).1, fun hheld => (h.held pa hr).2.1 (hq.held pa hheld).1,
      (h.held pa hr).2.2⟩ }

theorem Quiet.np (hq : Quiet L k g k' g') : g'.np = g.np := by
  funext p
  simp [Ghost.np, hq.size, hq.own]

/-- The state after `kalloc_user` has taken the page `pa` off the free list and registered it. -/
def taken (k : Kernel σ) (pa : PA) (l : List PA) (t : Tables) : Kernel σ :=
  { ({ k with freelist := l } : Kernel σ).fill pa 0 with tables := t }

/-- What `kalloc_user` may have done: evictions only, or evictions and the allocation of a page. -/
inductive UserAlloc (S : SwapOps σ) (p : ProcIdx) (va : ℕ) (k : Kernel σ) :
    Option PA → Kernel σ → Prop
  | full {k' : Kernel σ} (hev : Evicts S k k') : UserAlloc S p va k none k'
  | page {k₁ : Kernel σ} {pa : PA} {l : List PA} {t : Tables} (hev : Evicts S k k₁)
      (hfree : k₁.freelist = pa :: l) (hreg : k₁.tables.registerUserFrame p va = some t) :
      UserAlloc S p va k (some pa) (k₁.taken pa l t)

theorem Evicts.userAlloc {k₁ : Kernel σ} {va : ℕ} {r : Option PA} (h : Evicts S k k₁)
    (h' : UserAlloc S p va k₁ r k') : UserAlloc S p va k r k' := by
  cases h' with
  | full hev => exact .full (h.trans hev)
  | page hev hfree hreg => exact .page (h.trans hev) hfree hreg

/-- One round of `kalloc_user` returns a page or nothing, or can be followed by another one. -/
theorem kallocUserRound_cases (L : SwapLaws S) (h : Inv k g) (ho : Owns k g)
    (hpend : g.pend = none) (p : ProcIdx) (va : ℕ) :
    ∃ r k', k.kallocUserRound S p va = .ok (r, k') ∧ UserAlloc S p va k (r.getD none) k' := by
  have hfirst : ∃ b k₁, k.evictIfNeeded S = .ok (b, k₁) ∧ Evicts S k k₁ := by
    unfold evictIfNeeded
    split
    · exact evictOneUserFrame_evicts L h ho hpend
    · exact ⟨true, k, rfl, .refl k⟩
  -- whether or not the last eviction succeeds, no page has been allocated
  have hretry : ∀ (b : Bool), (if b then none else some none : Option (Option PA)).getD none =
      none := by decide
  obtain ⟨b, k₁, heq, hev⟩ := hfirst
  obtain ⟨g₁, hinv, hq, hp⟩ := hev.spec L h ho hpend
  simp only [kallocUserRound, heq, ok_bind]
  cases b with
  | false => exact ⟨some none, k₁, rfl, .full hev⟩
  | true =>
    rw [if_neg (by simp)]
    cases hf : k₁.freelist with
    | nil =>
      simp only [popFree, hf]
      split
      · exact ⟨some none, k₁, rfl, .full hev⟩
      · obtain ⟨b, k₂, heq₂, hev₂⟩ := evictOneUserFrame_evicts L hinv (hq.owns ho) hp
        simp only [heq₂, ok_bind]
        refine ⟨_, k₂, rfl, ?_⟩
        rw [hretry b]
        exact .full (hev.trans hev₂)
    | cons pa l =>
      simp only [popFree, hf]
      have htables : (({ k₁ with freelist := l } : Kernel σ).fill pa 0).tables = k₁.tables := rfl
      rw [htables]
      cases hreg : k₁.tables.registerUserFrame p va with
      | some t => exact ⟨some (some pa), _, rfl, .page hev hf hreg⟩
      | none =>
        -- the page goes back, filled with junk
        have hkfree : (({ k₁ with freelist := l } : Kernel σ).fill pa 0).kfree pa =
            .ok { k₁ with mem := Function.update k₁.mem pa fun _ => 1 } := by
          obtain ⟨halign, hlo, hhi⟩ := hinv.pages.managed pa (by
            rw [hinv.pages.free_use pa (by simp [hf])]
            simp)
          have hok : ¬ (pa % pgSize ≠ 0 ∨ pa < (({ k₁ with freelist := l } : Kernel σ).fill pa
              0).kernEnd ∨ phystop ≤ pa) := by
            rintro (h1 | h2 | h3)
            · exact h1 halign
            · exact absurd hlo (Nat.not_le.2 h2)
            · exact absurd hhi (Nat.not_lt.2 h3)
          rw [kfree, if_neg hok, fill_fill]
          simp [fill, ← hf]
        have hmem : pa ∈ k₁.freelist := by simp [hf]
        have hscratch : Evicts S k { k₁ with mem := Function.update k₁.mem pa fun _ => 1 } :=
          hev.trans (.scratch hmem _ (.refl _))
        obtain ⟨g₂, hinv₂, hq₂, hp₂⟩ := hscratch.spec L h ho hpend
        obtain ⟨b, k₃, heq₃, hev₃⟩ := evictOneUserFrame_evicts L hinv₂ (hq₂.owns ho) hp₂
        simp only [hkfree, heq₃, ok_bind]
        refine ⟨_, k₃, rfl, ?_⟩
        rw [hretry b]
        exact .full (hscratch.trans hev₃)

theorem kallocUserLoop_cases (L : SwapLaws S) (a : ℕ) (h : Inv k g) (ho : Owns k g)
    (hpend : g.pend = none) (p : ProcIdx) (va : ℕ) :
    ∃ r k', kallocUserLoop S p va a k = .ok (r, k') ∧ UserAlloc S p va k r k' := by
  induction a generalizing k g with
  | zero => exact ⟨none, k, rfl, .full (.refl k)⟩
  | succ a ih =>
    obtain ⟨r, k₁, heq, hall⟩ := kallocUserRound_cases L h ho hpend p va
    simp only [kallocUserLoop, heq, ok_bind]
    cases r with
    | some r => exact ⟨r, k₁, rfl, hall⟩
    | none =>
      cases hall with
      | full hev =>
        obtain ⟨g₁, hinv, hq, hp⟩ := hev.spec L h ho hpend
        obtain ⟨r, k', heq', hall'⟩ := ih hinv (hq.owns ho) hp
        exact ⟨r, k', heq', hev.userAlloc hall'⟩

/-- `kalloc_user` returns, having done one of the two. -/
theorem kallocUser_cases (L : SwapLaws S) (h : Inv k g) (ho : Owns k g) (hpend : g.pend = none)
    (p : ProcIdx) (va : ℕ) :
    ∃ r k', k.kallocUser S p va = .ok (r, k') ∧ UserAlloc S p va k r k' :=
  kallocUserLoop_cases L 2 h ho hpend p va

/-- The page is registered in the frame table and held. -/
theorem taken_spec (h : Inv k g) (hpend : g.pend = none) (hv : v < g.np p)
    (hpte : k.pte g.own p v = none) {l : List PA} {t : Tables} (hfree : k.freelist = pa :: l)
    (hreg : k.tables.registerUserFrame p (v * pgSize) = some t) :
    Allocated L k g p v (some pa) (k.taken pa l t)
      { g.setUse pa .held with pend := some (p, v) } := by
  obtain ⟨huse, hinv, hq⟩ := h.take_fill (L := L) hfree 0
  have ht := h.tables
  rw [hpend] at ht
  refine ⟨{ hinv with tables := ht.register hv hpte hreg }, ?_, by simp, by simp, ?_⟩
  · obtain ⟨i, -, rfl⟩ := registerUserFrame_eq_some hreg
    exact { hq with }
  · rintro pa' hpa'
    obtain rfl : pa = pa' := by simpa using hpa'
    exact ⟨by simp, by simp [huse], by simp [taken, fill]; rfl⟩

theorem UserAlloc.spec {r : Option PA} (L : SwapLaws S) (hall : UserAlloc S p (v * pgSize) k r k')
    (h : Inv k g) (ho : Owns k g) (hpend : g.pend = none) (hv : v < g.np p)
    (hpte : k.pte g.own p v = none) : ∃ g', Allocated L k g p v r k' g' := by
  cases hall with
  | full hev =>
    obtain ⟨g', hinv, hq, hp⟩ := hev.spec L h ho hpend
    exact ⟨g', hinv, hq, fun _ => hp, by simp, by simp⟩
  | page hev hfree hreg =>
    obtain ⟨g₁, hinv, hq, hp⟩ := hev.spec L h ho hpend
    exact ⟨_, hq.allocated (taken_spec hinv hp (hq.np ▸ hv) (hq.own ▸ hq.pte p v hpte) hfree hreg)⟩

theorem kallocUser_spec (L : SwapLaws S) (h : Inv k g) (ho : Owns k g) (hpend : g.pend = none)
    (hv : v < g.np p) (hpte : k.pte g.own p v = none) :
    ∃ r k' g', k.kallocUser S p (v * pgSize) = .ok (r, k') ∧ Allocated L k g p v r k' g' := by
  obtain ⟨r, k', heq, hall⟩ := kallocUser_cases L h ho hpend p (v * pgSize)
  obtain ⟨g', hspec⟩ := hall.spec L h ho hpend hv hpte
  exact ⟨r, k', g', heq, hspec⟩

/-! ## Page faults -/

/-- Changes to the counters of a process. -/
theorem Inv.setProc_quiet (L : SwapLaws S) (h : Inv k g) (p : ProcIdx) {f : Proc → Proc}
    (hf : ∀ proc, (f proc).core = proc.core) :
    Inv (k.setProc p f) g ∧ Quiet L k g (k.setProc p f) g := by
  have hcore : ∀ q, ((k.setProc p f).procs q).core = (k.procs q).core := by
    intro q
    by_cases hq : q = p
    · simp [setProc, hq, hf]
    · simp [setProc, hq]
  exact ⟨h.congr rfl rfl rfl (fun q => congrArg ProcCore.trapframe (hcore q)) (.refl _),
    h.quiet rfl rfl hcore (fun _ => rfl) rfl rfl (fun _ _ _ _ => rfl) fun _ hpa => ⟨hpa, rfl⟩⟩

/-- What a page fault on page `v` of `p` leads to: nothing that a process can see, and if it returns
an address, the page is mapped there. -/
structure Faulted (L : SwapLaws S) (k : Kernel σ) (g : Ghost) (p : ProcIdx) (v : ℕ)
    (r : Option PA) (k' : Kernel σ) (g' : Ghost) : Prop where
  inv : Inv k' g'
  pend : g'.pend = none
  size : g'.size = g.size
  own : g'.own = g.own
  core : ∀ q, (k'.procs q).core = (k.procs q).core
  logical : ∀ q w, w < vpn trapframeVa → k'.logical L g.own q w = k.logical L g.own q w
  mapped : ∀ pa, r = some pa → ∃ perm, k'.pte g.own p v = some ⟨pa, perm⟩ ∧ perm.u = true

theorem Quiet.faulted {k₁ : Kernel σ} {g₁ : Ghost} {r : Option PA} (hq : Quiet L k g k₁ g₁)
    (h : Faulted L k₁ g₁ p v r k' g') : Faulted L k g p v r k' g' where
  inv := h.inv
  pend := h.pend
  size := h.size.trans hq.size
  own := h.own.trans hq.own
  core q := (h.core q).trans (hq.core q)
  logical q w hw := by
    have := h.logical q w hw
    rw [hq.own] at this
    exact this.trans (hq.logical q w hw)
  mapped pa hr := by
    have := h.mapped pa hr
    rwa [hq.own] at this

theorem Quiet.faulted_none (hq : Quiet L k g k' g') (hinv : Inv k' g') (hp : g'.pend = none) :
    Faulted L k g p v none k' g' :=
  ⟨hinv, hp, hq.size, hq.own, hq.core, hq.logical, by simp⟩

theorem Faulted.trans_quiet {k'' : Kernel σ} {r : Option PA} (h : Faulted L k g p v r k' g')
    (hinv : Inv k'' g') (hcore : ∀ q, (k''.procs q).core = (k'.procs q).core)
    (hlog : ∀ q w, w < vpn trapframeVa → k''.logical L g.own q w = k'.logical L g.own q w)
    (hpte : k''.pte g.own = k'.pte g.own) : Faulted L k g p v r k'' g' :=
  { h with
    inv := hinv
    core := fun q => (hcore q).trans (h.core q)
    logical := fun q w hw => (hlog q w hw).trans (h.logical q w hw)
    mapped := fun pa hr => by
      rw [hpte]
      exact h.mapped pa hr }

/-- The registered page is given back. -/
theorem freeUserFrame_spec (L : SwapLaws S) (h : Inv k g) (hpend : g.pend = some (p, v))
    (hheld : g.use pa = .held) (hpte : k.pte g.own p v = none) :
    ∃ k', k.freeUserFrame p (v * pgSize) pa = .ok k' ∧
      Inv k' { g.setUse pa .free with pend := none } ∧
      Quiet L k (g.setUse pa .free) k' { g.setUse pa .free with pend := none } := by
  have hfree : Inv { k with tables := k.tables.freeFrameEntry (some p) (v * pgSize) }
      { g with pend := none } :=
    { h with tables := h.tables.freeFrame (.inr hpend) hpte fun _ _ _ => rfl }
  obtain ⟨k', heq, hinv, hq, -⟩ := kfree_spec (L := L) hfree hheld
  refine ⟨k', heq, hinv, ?_⟩
  have hmap : (k.tables.freeFrameEntry (some p) (v * pgSize)).swapMap = k.tables.swapMap := by
    unfold freeFrameEntry
    split <;> rfl
  have hq₁ : Quiet L k (g.setUse pa .free)
      { k with tables := k.tables.freeFrameEntry (some p) (v * pgSize) }
      (g.setUse pa .free) :=
    ⟨rfl, rfl, fun _ => rfl, fun _ hpa => ⟨hpa, rfl⟩, fun _ _ hv => hv, fun _ _ => by rw [hmap],
      fun _ _ _ hi => .inl (by simpa only [hmap] using hi), fun q w _ => logical_congr rfl
        (fun _ _ => rfl) fun _ => by simp [swapPage, findSwap, hmap]⟩
  exact { hq₁.trans { hq with } with }

/-- The registered page is mapped, with the contents that the page of the process has. -/
theorem install_spec (h : Inv k g) (ho : g.own p = some root) (hv : v < g.np p)
    (hheld : g.use pa = .held) (hlow : ((k.pts root).low (v / 512)).isSome)
    (hnone : (k.pts root).leaf v = none) {t : Tables}
    (ht : TablesOk t g.np (k.pte g.own) (some (p, v)))
    (hno : ∀ i, ¬ (t.swapMap i).Holds p (v * pgSize))
    (hswap : ∀ i q w, (q, w) ≠ (p, v) →
      ((t.swapMap i).Holds q (w * pgSize) ↔ (k.tables.swapMap i).Holds q (w * pgSize)))
    (hlog : k.logical L g.own p v = k.mem pa) :
    Faulted L k g p v (some pa)
      { k.setLeaf root (v * pgSize) (some ⟨pa, .userRw⟩) with tables := t }
      { g.setUse pa (.user root v) with pend := none } := by
  obtain ⟨n, hn⟩ := Option.isSome_iff_exists.1 (h.own_size p root ho)
  have hself : (k.setLeaf root (v * pgSize) (some ⟨pa, .userRw⟩)).pte g.own p v =
      some ⟨pa, .userRw⟩ := Inv.pte_setLeaf_self ho
  have hother : ∀ q w, (q, w) ≠ (p, v) →
      (k.setLeaf root (v * pgSize) (some ⟨pa, .userRw⟩)).pte g.own q w = k.pte g.own q w :=
    fun q w hqw => h.pte_setLeaf_other ho hqw
  have hinv : Inv { k.setLeaf root (v * pgSize) (some ⟨pa, .userRw⟩) with tables := t }
      { g.setUse pa (.user root v) with pend := none } := by
    refine h.change_pt hn (.user root v) t none hheld ?_ (ht.map hno hself hother)
    rw [vpn_mul]
    exact ((h.pt root n hn).update_spare (.inr hheld) _).set_leaf
      (by rw [← Ghost.np_of_own ho hn]; exact hv) hlow (by simp)
  refine ⟨hinv, rfl, rfl, rfl, fun _ => rfl, fun q w hw => ?_, ?_⟩
  · by_cases hqw : (q, w) = (p, v)
    · obtain ⟨rfl, rfl⟩ := Prod.mk.inj hqw
      have hmapped : ({ k.setLeaf root (w * pgSize) (some ⟨pa, .userRw⟩) with
          tables := t } : Kernel σ).pte g.own q w = some ⟨pa, .userRw⟩ := hself
      rw [hlog, logical, hmapped]
      rfl
    · exact logical_congr (hother q w hqw) (fun _ _ => rfl) fun _ =>
        h.swapPage_congr hinv (fun i => hswap i q w hqw) fun _ _ => rfl
  · rintro pa' ⟨⟩
    exact ⟨.userRw, hself, rfl⟩

/-- A held page is written, and swap is read. -/
theorem Quiet.write {k₁ : Kernel σ} {g₁ : Ghost} (hq : Quiet L k g k₁ g₁) (h : Inv k₁ g₁)
    (hpa : g.use pa ≠ .held) (hheld : g₁.use pa = .held) (page : Page) {dev : σ}
    (hdev : L.view dev = L.view k₁.swap) :
    Inv { k₁ with swap := dev, mem := Function.update k₁.mem pa page } g₁ ∧
      Quiet L k g { k₁ with swap := dev, mem := Function.update k₁.mem pa page } g₁ := by
  refine ⟨h.congr rfl rfl rfl (fun _ => rfl) (.refl _), { hq with
    held := fun pa' hpa' => ?_
    logical := fun q w hw => ?_ }⟩
  · have hne : pa' ≠ pa := by
      rintro rfl
      exact hpa hpa'
    simpa [hne] using hq.held pa' hpa'
  · rw [← hq.logical q w hw]
    refine logical_congr rfl (fun e he => ?_) fun _ => by simp [swapPage, hdev]
    obtain ⟨root, -, -, -, hu⟩ := h.pte_user (hq.own ▸ he) hw
    have hne : e.pa ≠ pa := fun e' => by simp [e', hheld] at hu
    simp [hne]

/-- Reading a slot does not fail, and gives the page that was last written to it. -/
theorem readSwap_eq (L : SwapLaws S) (k : Kernel σ) (s : SlotIdx) (pa : PA) :
    k.readSwap S (some s) pa = (true, { k with
      swap := (S.read s (k.mem pa) k.swap).2.1
      mem := Function.update k.mem pa (L.view k.swap s) }) := by
  simp only [readSwap, decide_eq_true (L.read_ok s (k.mem pa) k.swap), L.read_eq]

theorem readSwap_spec {k₁ : Kernel σ} {g₁ : Ghost} (hq : Quiet L k g k₁ g₁) (h : Inv k₁ g₁)
    (hpa : g.use pa ≠ .held) (hheld : g₁.use pa = .held) (i : SlotIdx) :
    ∃ k₂, k₁.readSwap S (some i) pa = (true, k₂) ∧ Inv k₂ g₁ ∧ Quiet L k g k₂ g₁ ∧
      k₂.mem pa = L.view k₂.swap i := by
  obtain ⟨hinv, hq'⟩ := hq.write h hpa hheld (L.view k₁.swap i)
    (L.view_read i (k₁.mem pa) k₁.swap)
  exact ⟨_, readSwap_eq L k₁ i pa, hinv, hq', by simp [L.view_read]⟩

/-- The end of a page fault: the page is mapped, or given back if there is no memory for the page
table. -/
theorem mapRegistered_spec (h : Inv k g) (hpend : g.pend = some (p, v)) (ho : g.own p = some root)
    (hv : v < g.np p) (hheld : g.use pa = .held) (hpte : k.pte g.own p v = none) {t : Tables}
    (ht : TablesOk t g.np (k.pte g.own) (some (p, v)))
    (hno : ∀ i, ¬ (t.swapMap i).Holds p (v * pgSize))
    (hswap : ∀ i q w, (q, w) ≠ (p, v) →
      ((t.swapMap i).Holds q (w * pgSize) ↔ (k.tables.swapMap i).Holds q (w * pgSize)))
    (hlog : k.logical L g.own p v = k.mem pa) :
    (∃ k₁ k' g', k.mappages root (v * pgSize) pa .userRw = .ok (false, k₁) ∧
      k₁.freeUserFrame p (v * pgSize) pa = .ok k' ∧ Faulted L k g p v none k' g') ∨
    ∃ k₁ g', k.mappages root (v * pgSize) pa .userRw = .ok (true, k₁) ∧
      k₁.tables = k.tables ∧ Faulted L k g p v (some pa) { k₁ with tables := t } g' := by
  obtain ⟨n, hn⟩ := Option.isSome_iff_exists.1 (h.own_size p root ho)
  have hnone : (k.pts root).leaf v = none := (pte_of_own ho).symm.trans hpte
  have hvn : v < n := by rw [← Ghost.np_of_own ho hn]; exact hv
  obtain ⟨k₁, g₁, hinv, hq, hpend₁, htab, hleaf, hres⟩ :=
    mappages_spec (L := L) h hn hvn hnone pa .userRw
  obtain ⟨hheld₁, hmem₁⟩ := hq.held pa hheld
  have hpte₁ : k₁.pte g₁.own = k.pte g.own := by
    funext q w
    simp [pte, hleaf, hq.own]
  rcases hres with heq | ⟨hlow, heq⟩
  · obtain ⟨k', hfree, hinv', hq'⟩ := freeUserFrame_spec L hinv (hpend₁.trans hpend) hheld₁
      (by rw [hpte₁]; exact hpte)
    refine .inl ⟨k₁, k', _, heq, hfree, hinv', rfl, hq.size, hq.own, fun q => ?_, fun q w hw => ?_,
      by simp⟩
    · exact (hq'.core q).trans (hq.core q)
    · have := hq'.logical q w hw
      have hown : (g₁.setUse pa .free).own = g.own := hq.own
      rw [hown] at this
      exact this.trans (hq.logical q w hw)
  · refine .inr ⟨_, _, heq, htab, hq.faulted (install_spec hinv (hq.own ▸ ho) (hq.np ▸ hv) hheld₁
      hlow ?_ ?_ hno ?_ ?_)⟩
    · rw [hleaf]
      exact hnone
    · rw [hpte₁, hq.np]
      exact ht
    · rw [htab]
      exact hswap
    · rw [hq.own, hq.logical p v (hv.trans_le (h.np_le p)), hlog, hmem₁]

theorem zeroFill_spec (L : SwapLaws S) (h : Inv k g) (ho : Owns k g) (hpend : g.pend = none)
    (hroot : g.own p = some root) (hv : v < g.np p) (hpte : k.pte g.own p v = none)
    (hno : ∀ i, ¬ (k.tables.swapMap i).Holds p (v * pgSize)) :
    ∃ r k' g', k.zeroFill S p root (v * pgSize) = .ok (r, k') ∧ Faulted L k g p v r k' g' := by
  obtain ⟨r, k₁, g₁, heq, hall⟩ := kallocUser_spec L h ho hpend hv hpte
  simp only [zeroFill, heq, ok_bind]
  cases r with
  | none => exact ⟨none, k₁, g₁, rfl, hall.quiet.faulted_none hall.inv (hall.none_pend rfl)⟩
  | some pa =>
    obtain ⟨hheld, hpa, hmem⟩ := hall.held pa rfl
    obtain ⟨hinv₂, hq₂⟩ := hall.quiet.write hall.inv hpa hheld (fun _ => 0) rfl
    have hq₂ : Quiet L k g (k₁.fill pa 0) g₁ := hq₂
    have hinv₂ : Inv (k₁.fill pa 0) g₁ := hinv₂
    have hpend₂ := hall.some_pend pa rfl
    have hno₂ : ∀ i, ¬ ((k₁.fill pa 0).tables.swapMap i).Holds p (v * pgSize) := by
      intro i hi
      rcases hq₂.swap_new i p v hi with hi | hne
      · exact hno i hi
      · exact hne hpte
    have hsame := sameEntries_setRefBit k₁.tables p (v * pgSize)
    have hlog : (k₁.fill pa 0).logical L g₁.own p v = (k₁.fill pa 0).mem pa := by
      have hnone : (k₁.fill pa 0).pte g₁.own p v = none := hq₂.own ▸ hq₂.pte p v hpte
      simp only [logical, hnone, swapPage_none hno₂]
      simp [fill]
      rfl
    have ht := hinv₂.tables.same hsame
    rw [hpend₂] at ht
    rcases mapRegistered_spec hinv₂ hpend₂ (hq₂.own ▸ hroot) (hq₂.np ▸ hv) hheld
      (hq₂.own ▸ hq₂.pte p v hpte) ht (by rw [hsame.swapMap]; exact hno₂)
      (by rw [hsame.swapMap]; exact fun _ _ _ _ => Iff.rfl) hlog
      with ⟨k₃, k', g', heq₃, hfree, hf⟩ | ⟨k₃, g', heq₃, htab, hf⟩
    · simp only [heq₃, ok_bind, if_true, hfree]
      exact ⟨none, k', g', rfl, hq₂.faulted hf⟩
    · simp only [heq₃, ok_bind, Bool.true_eq_false, if_false]
      obtain ⟨hinv₄, hq₄⟩ := hf.inv.setProc_quiet L p (f := fun proc =>
        { proc with residentPages := proc.residentPages + 1 }) fun _ => rfl
      have hown : g'.own = g₁.own := hf.own
      have htab' : k₃.tables = k₁.tables := htab
      rw [htab']
      exact ⟨some pa, _, g', rfl, hq₂.faulted (hf.trans_quiet hinv₄ hq₄.core
        (hown ▸ hq₄.logical) rfl)⟩

theorem swapIn_spec (L : SwapLaws S) (h : Inv k g) (ho : Owns k g) (hpend : g.pend = none)
    (hroot : g.own p = some root) (hv : v < g.np p) (hpte : k.pte g.own p v = none) {i : SlotIdx}
    (hi : (k.tables.swapMap i).Holds p (v * pgSize)) :
    ∃ r k' g', k.swapIn S p root (v * pgSize) i (some i) = .ok (r, k') ∧
      Faulted L k g p v r k' g' := by
  obtain ⟨r, k₁, g₁, heq, hall⟩ := kallocUser_spec L h ho hpend hv hpte
  simp only [swapIn, heq, ok_bind]
  cases r with
  | none => exact ⟨none, k₁, g₁, rfl, hall.quiet.faulted_none hall.inv (hall.none_pend rfl)⟩
  | some pa =>
    obtain ⟨hheld, hpa, -⟩ := hall.held pa rfl
    obtain ⟨k₂, heq₂, hinv₂, hq₂, hmem⟩ := readSwap_spec hall.quiet hall.inv hpa hheld i
    simp only [heq₂, Bool.true_eq_false, if_false]
    have hpend₂ := hall.some_pend pa rfl
    -- the entry is still there after the evictions of the allocation
    have hi₂ : (k₂.tables.swapMap i).Holds p (v * pgSize) := by
      rw [hq₂.swap_keep i hi.1]
      exact hi
    have hnone : k₂.pte g₁.own p v = none := hq₂.own ▸ hq₂.pte p v hpte
    have hlog : k₂.logical L g₁.own p v = k₂.mem pa := by
      simp only [logical, hnone, hinv₂.swapPage_eq hi₂, Option.getD_some, hmem]
    have hsame := sameEntries_setRefBit k₂.tables p (v * pgSize)
    have ht := hinv₂.tables.same hsame
    rw [hpend₂] at ht
    rw [← hsame.swapMap] at hi₂
    obtain ⟨hno, hkeep⟩ := ht.releaseSwap_holds hi₂
    rw [hsame.swapMap] at hkeep
    rcases mapRegistered_spec hinv₂ hpend₂ (hq₂.own ▸ hroot) (hq₂.np ▸ hv) hheld hnone
      (ht.releaseSwap hi₂.1) hno hkeep hlog
      with ⟨k₃, k', g', heq₃, hfree, hf⟩ | ⟨k₃, g', heq₃, htab, hf⟩
    · simp only [heq₃, ok_bind, if_true, hfree]
      exact ⟨none, k', g', rfl, hq₂.faulted hf⟩
    · simp only [heq₃, ok_bind, Bool.true_eq_false, if_false]
      obtain ⟨hinv₄, hq₄⟩ := hf.inv.setProc_quiet L p (f := fun proc =>
        { proc with
          pagesSwappedIn := proc.pagesSwappedIn + 1
          residentPages := proc.residentPages + 1 }) fun _ => rfl
      have hown : g'.own = g₁.own := hf.own
      rw [htab]
      exact ⟨some pa, _, g', rfl, hq₂.faulted (hf.trans_quiet hinv₄ hq₄.core
        (hown ▸ hq₄.logical) rfl)⟩

theorem npages_eq (sz : ℕ) : npages sz = (sz + (pgSize - 1)) / pgSize := by
  simp only [npages, pgRoundUp, pgSize]
  omega

theorem div_lt_npages {va sz : ℕ} (h : va < sz) : va / pgSize < npages sz := by
  simp only [npages_eq, pgSize]
  omega

/-- **A page fault below the size of the process** leaves all pages as they were, and if it returns
an address, the page is mapped there. -/
theorem vmfault_spec (L : SwapLaws S) (h : Inv k g) (hs : Synced k g)
    (hroot : (k.procs p).pagetable = some root) {va : ℕ} (hva : va < (k.procs p).sz) :
    ∃ r k' g', k.vmfault S p va = .ok (r, k') ∧ Faulted L k g p (va / pgSize) r k' g' := by
  have ho : g.own p = some root := (hs.own p).trans hroot
  have hn := hs.size p root hroot
  obtain ⟨v, hva'⟩ : ∃ v, va / pgSize = v := ⟨_, rfl⟩
  have hv : v < g.np p := by
    rw [Ghost.np_of_own ho hn, ← hva']
    exact div_lt_npages hva
  have hmax : ¬ maxVa ≤ v * pgSize := by
    have := hv.trans_le (h.np_le p)
    simp only [vpn, trapframeVa, trampolineVa, maxVa, pgSize] at this ⊢
    omega
  have hat := h.pteAt_eq hn v
  rw [← pte_of_own ho] at hat
  have hmapped : k.ismapped root (v * pgSize) = .ok (k.pte g.own p v).isSome := by
    rw [ismapped, if_neg hmax, hat]
  simp only [vmfault, hroot, if_neg (Nat.not_le.2 hva), pgRoundDown, hva', hmapped, ok_bind]
  cases he : k.pte g.own p v with
  | some e =>
    rw [he] at hat
    simp only [Option.isSome_some, if_true]
    have hsame := sameEntries_setRefBit k.tables p (v * pgSize)
    have hinv : Inv { k with tables := k.tables.setRefBit p (v * pgSize) } g :=
      h.congr rfl rfl rfl (fun _ => rfl) hsame
    have hq : Quiet L k g { k with tables := k.tables.setRefBit p (v * pgSize) } g :=
      h.quiet rfl rfl (fun _ => rfl) (fun _ => rfl) hsame.swapMap rfl (fun _ _ _ _ => rfl)
        fun _ hpa => ⟨hpa, rfl⟩
    refine ⟨_, _, g, rfl, hinv, hs.pend, rfl, rfl, hq.core, hq.logical, fun pa hpa => ?_⟩
    have hat' : ({ k with tables := k.tables.setRefBit p (v * pgSize) } : Kernel σ).pteAt root
        (v * pgSize) = some e := hat
    rw [walkaddr, if_neg hmax, hat'] at hpa
    simp only [Option.ite_none_right_eq_some, Option.some.injEq] at hpa
    obtain ⟨hu, rfl⟩ := hpa
    exact ⟨e.perm, he, hu⟩
  | none =>
    simp only [Option.isSome_none, Bool.false_eq_true, if_false]
    obtain ⟨hinv, hq⟩ := h.setProc_quiet L p (f := fun proc =>
      { proc with pageFaults := proc.pageFaults + 1 }) fun _ => rfl
    have howns := hq.owns hs.own
    generalize k.setProc p (fun proc => { proc with pageFaults := proc.pageFaults + 1 }) = k₁
      at hinv hq howns
    have hpte := hq.pte p v he
    cases hf : k₁.tables.findSwap p (v * pgSize) with
    | some i =>
      have hi := findSwap_eq_some hf
      simp only [hinv.tables.swapMap_eq hi]
      obtain ⟨r, k', g', heq, hfault⟩ := swapIn_spec L hinv howns hs.pend ho hv hpte hi
      exact ⟨r, k', g', heq, hq.faulted hfault⟩
    | none =>
      obtain ⟨r, k', g', heq, hfault⟩ := zeroFill_spec L hinv howns hs.pend ho hv hpte
        (findSwap_eq_none hf)
      exact ⟨r, k', g', heq, hq.faulted hfault⟩

end Xv6Swap.Paging.Kernel
