import Xv6Swap.Paging.Rollback

/-!
# `sbrk` changes the size by what was asked, or nothing

A failing growth has added pages to the page table of the process and removed them again. `Grown`
is what is left of it: the free pages that became part of the page table. With the invariant, a
failed `sbrk` has changed nothing else (`uvmalloc_undone`). A call that succeeds leaves the size
that was asked for, with no page beyond it, unless it was asked to shrink by more than the size
(`sysSbrk_exact_iff`): then `uvmdealloc` sees a larger size and does nothing, and the call succeeds.
-/

namespace Xv6Swap.Paging.Kernel

open Raid (Page pgSize)
open Tables

variable {σ : Type} {S : SwapOps σ} {L : SwapLaws S} {k k' k'' : Kernel σ} {g g' : Ghost}
  {root pa : PA} {m n v : ℕ} {p : ProcIdx}

/-! ## Growing a page table, and undoing it -/

/-- Page-table pages were added to `root`, and leaf entries changed for the pages from `m` to `n`
only. -/
structure Grown (root : PA) (m n : ℕ) (k k' : Kernel σ) : Prop where
  tables : k'.tables = k.tables
  confined : Confined root k k'
  mid : ∀ i pg, (k.pts root).mid i = some pg → (k'.pts root).mid i = some pg
  low : ∀ j pg, (k.pts root).low j = some pg → (k'.pts root).low j = some pg
  leaf : ∀ w, ¬ (m ≤ w ∧ w < n) → (k'.pts root).leaf w = (k.pts root).leaf w

theorem Grown.refl (root : PA) (m n : ℕ) (k : Kernel σ) : Grown root m n k k :=
  ⟨rfl, .refl root k, fun _ _ h => h, fun _ _ h => h, fun _ _ => rfl⟩

theorem Grown.trans (h : Grown root m n k k') (h' : Grown root m n k' k'') :
    Grown root m n k k'' where
  tables := h'.tables.trans h.tables
  confined := h.confined.trans h'.confined
  mid i pg hi := h'.mid i pg (h.mid i pg hi)
  low j pg hj := h'.low j pg (h.low j pg hj)
  leaf w hw := (h'.leaf w hw).trans (h.leaf w hw)

/-- No entry is for a page of process `p` from `m` to `n`. -/
def Unlisted (t : Tables) (p : ProcIdx) (m n : ℕ) : Prop :=
  ∀ w, m ≤ w → w < n → t.findSwap p (w * pgSize) = none ∧ t.findFrame (some p) (w * pgSize) = none

theorem Unlisted.freeSwapEntry {t : Tables} (ht : Unlisted t p m n) (hmv : m ≤ v) (hvn : v < n) :
    t.freeSwapEntry p (v * pgSize) = t := by
  unfold Tables.freeSwapEntry
  split
  · rename_i i hi
    exact absurd ((ht v hmv hvn).1.symm.trans hi) (by simp)
  · rfl

theorem Unlisted.freeFrameEntry {t : Tables} (ht : Unlisted t p m n) (hmv : m ≤ v)
    (hvn : v < n) : t.freeFrameEntry (some p) (v * pgSize) = t := by
  unfold Tables.freeFrameEntry
  split
  · rename_i i hi
    exact absurd ((ht v hmv hvn).2.symm.trans hi) (by simp)
  · rfl

theorem unmapPage_grown (ht : Unlisted k.tables p m n) (hmv : m ≤ v) (hvn : v < n)
    (hn : n ≤ vpn trapframeVa) (h : k.unmapPage (some p) root true (v * pgSize) = .ok k') :
    Grown root m n k k' := by
  have hlt : v < vpn trapframeVa := by omega
  have hconf : Confined root k k' := unmapPage_confined (by simp [hlt]) h
  simp only [unmapPage, ht.freeSwapEntry hmv hvn] at h
  split at h
  · cases h
  split at h
  · obtain rfl := Except.ok.inj h
    exact .refl root m n k
  · simp only [ht.freeFrameEntry hmv hvn, if_true] at h
    obtain ⟨k₁, hfree, h⟩ := bind_eq_ok.1 h
    obtain rfl := Except.ok.inj h
    obtain rfl := kfree_eq_ok hfree
    refine ⟨rfl, hconf, ?_, ?_, fun w hw => ?_⟩
    · simp [setLeaf, setPt, fill]
    · simp [setLeaf, setPt, fill]
    · have hne : w ≠ v := by
        rintro rfl
        exact hw ⟨hmv, hvn⟩
      simp [setLeaf, setPt, fill, vpn_mul, hne]

theorem unmapLoop_grown (c : ℕ) (ht : Unlisted k.tables p m n) (hmv : m ≤ v) (hvn : v + c ≤ n)
    (hn : n ≤ vpn trapframeVa) (h : unmapLoop (some p) root true c (v * pgSize) k = .ok k') :
    Grown root m n k k' := by
  induction c generalizing v k with
  | zero =>
    obtain rfl := Except.ok.inj h
    exact .refl root m n k
  | succ c ih =>
    obtain ⟨k₁, h₁, h⟩ := bind_eq_ok.1 h
    have hnext : v * pgSize + pgSize = (v + 1) * pgSize := by ring
    rw [hnext] at h
    have hg := unmapPage_grown ht hmv (by omega) hn h₁
    exact hg.trans (ih (hg.tables ▸ ht) (by omega) (by omega) h)

/-- The undo of a growth that got from `m` to `v`. -/
theorem uvmdealloc_grown {r : ℕ} (hroot : (k.procs p).pagetable = some root)
    (ht : Unlisted k.tables p m n) (hvn : v ≤ n) (hn : n ≤ vpn trapframeVa)
    (h : k.uvmdealloc p root (v * pgSize) (m * pgSize) = .ok (r, k')) : Grown root m n k k' := by
  unfold uvmdealloc at h
  split at h
  · obtain ⟨-, rfl⟩ := Prod.mk.inj (Except.ok.inj h)
    exact .refl root m n k
  split at h
  · rename_i hlt
    simp only [pgRoundUp_eq, npages_mul] at h hlt
    have hmv : m < v := lt_of_mul_lt_mul_right hlt (Nat.zero_le _)
    have howner : k.unmapOwner p root = some p := by rw [unmapOwner, if_pos hroot]
    rw [← Nat.sub_mul, Nat.mul_div_cancel _ pgSize_pos, uvmunmap, if_neg (by simp), howner] at h
    obtain ⟨k₁, hloop, h⟩ := bind_eq_ok.1 h
    obtain ⟨-, rfl⟩ := Prod.mk.inj (Except.ok.inj h)
    exact unmapLoop_grown (v - m) ht le_rfl (by omega) hn hloop
  · obtain ⟨-, rfl⟩ := Prod.mk.inj (Except.ok.inj h)
    exact .refl root m n k

/-- A new page is mapped, or given back if there is no memory for the page table. -/
theorem mapNew_grown {k₁ k₂ : Kernel σ} {perm : Perm} {b : Bool}
    (hk : k.kalloc = (some pa, k₁)) (hmv : m ≤ v) (hvn : v < n) (hn : n ≤ vpn trapframeVa)
    (hmap : (k₁.fill pa 0).mappages root (v * pgSize) pa perm = .ok (b, k₂))
    (k₃ : Kernel σ) (hres : if b then k₃ = k₂ else k₂.kfree pa = .ok k₃) :
    Grown root m n k k₃ := by
  obtain ⟨k₄, hw, hb⟩ := mappages_walked hmap
  have hacc : ∀ R, root ∈ R → k₄.accounted R = k₁.accounted R := fun R hR =>
    (hw.accounted R hR).trans (accounted_congr rfl (fun _ => rfl) fun _ _ => rfl)
  have htab₄ : k₄.tables = k₁.tables := by
    rw [hw.rest]
    rfl
  have hsame : k₁.tables = k.tables ∧ k₁.pts = k.pts := by
    obtain ⟨l, -, rfl⟩ := kalloc_some hk
    exact ⟨rfl, rfl⟩
  have hmid : ∀ i pg, (k.pts root).mid i = some pg → (k₄.pts root).mid i = some pg := fun i pg hi =>
    hw.mid i pg (by simpa [fill, hsame.2] using hi)
  have hlow : ∀ j pg, (k.pts root).low j = some pg → (k₄.pts root).low j = some pg := fun j pg hj =>
    hw.low j pg (by simpa [fill, hsame.2] using hj)
  have hleaf : (k₄.pts root).leaf = (k.pts root).leaf := by
    rw [hw.leaf]
    simp [fill, hsame.2]
  rcases hb with ⟨rfl, rfl⟩ | ⟨rfl, hnone, rfl⟩
  · simp only [Bool.false_eq_true, if_false] at hres
    have hfreed := kfree_accounted hres
    obtain rfl := kfree_eq_ok hres
    exact ⟨htab₄.trans hsame.1, kalloc_confined hk hw.procs hw.other fun R hR => by
      rw [hfreed, hacc R hR], hmid, hlow, fun w _ => congrFun hleaf w⟩
  · obtain rfl : k₃ = _ := hres
    rw [vpn_mul] at hnone
    refine ⟨htab₄.trans hsame.1, kalloc_confined hk hw.procs (fun r hr => ?_) fun R hR => ?_,
      ?_, ?_, fun w hw' => ?_⟩
    · exact (Function.update_of_ne hr _ _).trans (hw.other r hr)
    · rw [setLeaf_accounted hR (by omega) hnone, hacc R hR]
    · simpa [setLeaf, setPt] using hmid
    · simpa [setLeaf, setPt] using hlow
    · have hne : w ≠ v := by
        rintro rfl
        exact hw' ⟨hmv, hvn⟩
      simp [setLeaf, setPt, vpn_mul, hne, hleaf]

/-- The loop of `uvmalloc`, also when it fails and is undone. -/
theorem uvmallocLoop_grown {perm : Perm} {b : Bool} (c : ℕ)
    (hroot : (k.procs p).pagetable = some root) (ht : Unlisted k.tables p m n) (hmv : m ≤ v)
    (hvn : v + c = n) (hn : n ≤ vpn trapframeVa)
    (h : uvmallocLoop p root (m * pgSize) perm c (v * pgSize) k = .ok (b, k')) :
    Grown root m n k k' := by
  induction c generalizing v k with
  | zero =>
    obtain ⟨-, rfl⟩ := Prod.mk.inj (Except.ok.inj h)
    exact .refl root m n k
  | succ c ih =>
    unfold uvmallocLoop at h
    split at h
    · rename_i k₁ hk
      obtain rfl := kalloc_none hk
      obtain ⟨⟨r, k₂⟩, hundo, h⟩ := bind_eq_ok.1 h
      obtain ⟨-, rfl⟩ := Prod.mk.inj (Except.ok.inj h)
      exact uvmdealloc_grown hroot ht (by omega) hn hundo
    · rename_i pa k₁ hk
      obtain ⟨⟨ok, k₂⟩, hmap, h⟩ := bind_eq_ok.1 h
      have hnew := mapNew_grown hk hmv (by omega) hn hmap
      cases ok with
      | false =>
        obtain ⟨k₃, hfree, h⟩ := bind_eq_ok.1 h
        obtain ⟨⟨r, k₄⟩, hundo, h⟩ := bind_eq_ok.1 h
        obtain ⟨-, rfl⟩ := Prod.mk.inj (Except.ok.inj h)
        have hg := hnew k₃ hfree
        exact hg.trans (uvmdealloc_grown (by rw [hg.confined.procs, hroot]) (hg.tables ▸ ht)
          (by omega) hn hundo)
      | true =>
        have hg := hnew k₂ rfl
        have hnext : v * pgSize + pgSize = (v + 1) * pgSize := by ring
        simp only [Bool.true_eq_false, if_false, hnext] at h
        exact hg.trans (ih (by rw [hg.confined.procs, hroot]) (hg.tables ▸ ht) (by omega)
          (by omega) h)

theorem uvmalloc_grown {sz sz' : ℕ} {perm : Perm} {r : Option ℕ}
    (hroot : (k.procs p).pagetable = some root) (ht : Unlisted k.tables p (npages sz) (npages sz'))
    (hmax : sz' ≤ trapframeVa) (h : k.uvmalloc p root sz sz' perm = .ok (r, k')) :
    Grown root (npages sz) (npages sz') k k' := by
  unfold uvmalloc at h
  split at h
  · obtain ⟨-, rfl⟩ := Prod.mk.inj (Except.ok.inj h)
    exact .refl root _ _ k
  · rename_i hle
    simp only [pgRoundUp_eq] at h
    rw [← Nat.sub_mul, Nat.mul_div_cancel _ pgSize_pos] at h
    obtain ⟨⟨b, k₁⟩, hloop, h⟩ := bind_eq_ok.1 h
    obtain ⟨-, rfl⟩ := Prod.mk.inj (Except.ok.inj h)
    have hmono := npages_mono (Nat.not_lt.1 hle)
    exact uvmallocLoop_grown _ hroot ht le_rfl (by omega) (npages_le_of_le hmax) hloop

/-! ## What a failed call leaves -/

/-- A page of the second or third level of a page table. -/
def TablePage (k : Kernel σ) (root pa : PA) : Prop :=
  (∃ i, (k.pts root).mid i = some pa) ∨ ∃ j, (k.pts root).low j = some pa

/-- Nothing has changed but that free pages may have become part of the page table `root`. -/
structure Unchanged (root : PA) (k k' : Kernel σ) : Prop where
  procs : k'.procs = k.procs
  leaf : ∀ r, (k'.pts r).leaf = (k.pts r).leaf
  tables : k'.tables = k.tables
  free : ∀ pa, pa ∈ k'.freelist ↔ pa ∈ k.freelist ∧ ¬ k'.TablePage root pa

theorem TablePage.mem_pages (h : k.TablePage root pa) : pa ∈ (k.pts root).pages :=
  h.elim .inl fun hlow => .inr (.inl hlow)

theorem Unchanged.refl (h : FreeOnce k) (hroot : root ∈ k.tableRoots) : Unchanged root k k :=
  ⟨rfl, fun _ => rfl, rfl, fun pa => ⟨fun hpa => ⟨hpa, fun htab =>
    (h.table pa hpa root hroot).2 htab.mem_pages⟩, fun hpa => hpa.1⟩⟩

/-- A growth that was undone: a page is accounted for in both states, and it is in use in one if it
is in the other, unless it has become a page of the page table. -/
theorem Grown.unchanged (h : Grown root m n k k') (hfree : FreeOnce k) (hfree' : FreeOnce k')
    (hroot : root ∈ k.tableRoots)
    (hleaf : ∀ w, m ≤ w → w < n → (k'.pts root).leaf w = (k.pts root).leaf w) :
    Unchanged root k k' := by
  have hprocs := h.confined.procs
  have hroot' : root ∈ k'.tableRoots := by
    simpa only [tableRoots, roots, hprocs] using hroot
  have hsame : (k'.pts root).leaf = (k.pts root).leaf := by
    funext w
    by_cases hw : m ≤ w ∧ w < n
    · exact hleaf w hw.1 hw.2
    · exact h.leaf w hw
  have hacc := h.confined.accounted {root} rfl
  refine ⟨hprocs, fun r => ?_, h.tables, fun pa => ⟨fun hpa => ⟨?_, fun htab => ?_⟩, ?_⟩⟩
  · by_cases hr : r = root
    · rw [hr, hsame]
    · rw [h.confined.other r hr]
  · have hmem : pa ∈ k.accounted {root} := hacc ▸ .inl hpa
    obtain ⟨hne, hpages⟩ := hfree'.table pa hpa root hroot'
    rcases hmem with hold | ⟨q, hq⟩ | ⟨r, rfl, rfl | ⟨i, hi⟩ | ⟨j, hj⟩ | ⟨w, e, hw, he, rfl⟩⟩
    · exact hold
    · exact absurd (hprocs ▸ hq) (hfree'.trapframe pa hpa q)
    · exact absurd rfl hne
    · exact absurd (.inl ⟨i, h.mid i pa hi⟩) hpages
    · exact absurd (.inr (.inl ⟨j, h.low j pa hj⟩)) hpages
    · exact absurd (.inr (.inr ⟨w, e, hw, hsame ▸ he, rfl⟩)) hpages
  · exact (hfree'.table pa hpa root hroot').2 htab.mem_pages
  · rintro ⟨hpa, hno⟩
    have hmem : pa ∈ k'.accounted {root} := hacc ▸ .inl hpa
    obtain ⟨hne, hpages⟩ := hfree.table pa hpa root hroot
    rcases hmem with hnew | ⟨q, hq⟩ | ⟨r, rfl, rfl | hmid | hlow | ⟨w, e, hw, he, rfl⟩⟩
    · exact hnew
    · exact absurd (hprocs ▸ hq) (hfree.trapframe pa hpa q)
    · exact absurd rfl hne
    · exact absurd (.inl hmid) hno
    · exact absurd (.inr hlow) hno
    · exact absurd (.inr (.inr ⟨w, e, hw, hsame ▸ he, rfl⟩)) hpages

/-! ## Nothing beyond the size -/

/-- No user page of process `p` is at or above the address `a`. -/
structure NoneAbove (k : Kernel σ) (p : ProcIdx) (a : ℕ) : Prop where
  pte : ∀ w, a ≤ w * pgSize → w < vpn trapframeVa → k.pte k.roots p w = none
  frame : ∀ i, (k.tables.frameTable i).used = true → (k.tables.frameTable i).proc = some p →
    (k.tables.frameTable i).va < a
  swap : ∀ i, (k.tables.swapMap i).used = true → (k.tables.swapMap i).proc = some p →
    (k.tables.swapMap i).va < a

theorem Inv.noneAbove (h : Inv k g) (hs : Synced k g) (hroot : (k.procs p).pagetable = some root) :
    NoneAbove k p (pgRoundUp (k.procs p).sz) := by
  have hnp : g.np p = npages (k.procs p).sz :=
    Ghost.np_of_own ((hs.own p).trans hroot) (hs.size p root hroot)
  rw [pgRoundUp_eq, ← hnp]
  have hlt : ∀ {w}, w < g.np p → w * pgSize < g.np p * pgSize := fun hw =>
    Nat.mul_lt_mul_of_pos_right hw pgSize_pos
  refine ⟨fun w hle hw => ?_, fun i hu hp => ?_, fun i hu hp => ?_⟩
  · rw [hs.roots_eq]
    exact (h.fresh_of_le (le_of_mul_le_mul_right hle pgSize_pos) hw).1
  · obtain ⟨q, w, he, hw, -⟩ := h.tables.frame_ok i hu
    simp only [Frame.entry, Prod.mk.injEq] at he
    obtain rfl : p = q := Option.some.inj (hp.symm.trans he.2.2.1)
    rw [he.2.2.2]
    exact hlt hw
  · obtain ⟨q, w, he, hw, -⟩ := h.tables.swap_ok i hu
    rw [he] at hp ⊢
    obtain rfl : q = p := Option.some.inj hp
    exact hlt hw

/-- Pages beyond the size of the process are in no table. -/
theorem Inv.unlisted (h : Inv k g) (hle : g.np p ≤ m) : Unlisted k.tables p m n := by
  refine fun w hmw _ => ⟨?_, ?_⟩
  · cases hf : k.tables.findSwap p (w * pgSize) with
    | none => rfl
    | some i =>
      have := (h.tables.swap_pte (findSwap_eq_some hf)).1
      omega
  · cases hf : k.tables.findFrame (some p) (w * pgSize) with
    | none => rfl
    | some i =>
      have := h.tables.frame_lt (findFrame_eq_some hf)
      omega

theorem Inv.leaf_eq_none (h : Inv k g) (hs : Synced k g) (hroot : (k.procs p).pagetable = some root)
    (hle : npages (k.procs p).sz ≤ v) (hv : v < vpn trapframeVa) : (k.pts root).leaf v = none := by
  have ho : g.own p = some root := (hs.own p).trans hroot
  rw [← pte_of_own ho]
  exact (h.fresh_of_le (by rw [Ghost.np_of_own ho (hs.size p root hroot)]; exact hle) hv).1

theorem Inv.size_le (h : Inv k g) (hs : Synced k g) (hroot : (k.procs p).pagetable = some root) :
    (k.procs p).sz ≤ trapframeVa := by
  have hbound := (h.pt root _ (hs.size p root hroot)).bound
  simp only [npages_eq, vpn, trapframeVa, trampolineVa, maxVa, pgSize] at hbound ⊢
  omega

/-! ## `sbrk` -/

/-- What `sbrk(n)` is to do: it returns the old size and the size has changed by `n`, with no page
beyond it, or it fails and nothing has changed. -/
structure SbrkExact (k : Kernel σ) (p : ProcIdx) (root : PA) (n : ℤ) (r : Option ℕ)
    (k' : Kernel σ) : Prop where
  done : ∀ a, r = some a → a = (k.procs p).sz ∧ ((k'.procs p).sz : ℤ) = (k.procs p).sz + n ∧
    (k'.procs p).sz ≤ trapframeVa ∧ NoneAbove k' p (pgRoundUp (k'.procs p).sz)
  failed : r = none → Unchanged root k k'

/-- A call that succeeds returns the old size. One that fails was to grow, and it has done nothing
or `uvmalloc` has failed. -/
theorem sysSbrk_cases {d : ℤ} {eager : Bool} {r : Option ℕ}
    (hroot : (k.procs p).pagetable = some root) (h : k.sysSbrk p d eager = .ok (r, k')) :
    r = some (k.procs p).sz ∨ r = none ∧ 0 ≤ d ∧ (k' = k ∨
      addSize (k.procs p).sz d ≤ trapframeVa ∧
        k.uvmalloc p root (k.procs p).sz (addSize (k.procs p).sz d) .userRw = .ok (none, k')) := by
  unfold sysSbrk at h
  split at h
  · obtain ⟨⟨ok, k₁⟩, hgrow, h⟩ := bind_eq_ok.1 h
    obtain ⟨rfl, rfl⟩ := Prod.mk.inj (Except.ok.inj h)
    cases ok with
    | true => exact .inl rfl
    | false =>
      refine .inr ⟨rfl, ?_⟩
      simp only [growproc, hroot] at hgrow
      split at hgrow
      · rename_i hpos
        refine ⟨hpos.le, ?_⟩
        split at hgrow
        · exact .inl (Prod.mk.inj (Except.ok.inj hgrow)).2.symm
        · rename_i hmax
          obtain ⟨⟨r, k₂⟩, halloc, hgrow⟩ := bind_eq_ok.1 hgrow
          cases r with
          | none =>
            obtain ⟨-, rfl⟩ := Prod.mk.inj (Except.ok.inj hgrow)
            exact .inr ⟨Nat.le_of_not_lt hmax, halloc⟩
          | some sz => cases (Prod.mk.inj (Except.ok.inj hgrow)).1
      · split at hgrow
        · obtain ⟨⟨sz, k₂⟩, -, hgrow⟩ := bind_eq_ok.1 hgrow
          cases (Prod.mk.inj (Except.ok.inj hgrow)).1
        · cases (Prod.mk.inj (Except.ok.inj hgrow)).1
  · rename_i hlazy
    have hpos : 0 ≤ d := by
      simp only [Bool.or_eq_true, decide_eq_true_eq, not_or, not_lt] at hlazy
      exact hlazy.2
    dsimp only at h
    split at h
    · obtain ⟨rfl, rfl⟩ := Prod.mk.inj (Except.ok.inj h)
      exact .inr ⟨rfl, hpos, .inl rfl⟩
    · split at h
      · obtain ⟨rfl, rfl⟩ := Prod.mk.inj (Except.ok.inj h)
        exact .inr ⟨rfl, hpos, .inl rfl⟩
      · exact .inl (Prod.mk.inj (Except.ok.inj h)).1.symm

/-- A failing growth leaves no trace but pages of the page table. -/
theorem uvmalloc_undone {sz' : ℕ} {perm : Perm} (h : Inv k g) (hs : Synced k g)
    (hroot : (k.procs p).pagetable = some root) (hmax : sz' ≤ trapframeVa)
    (halloc : k.uvmalloc p root (k.procs p).sz sz' perm = .ok (none, k')) (h' : Inv k' g')
    (hs' : Synced k' g') : Unchanged root k k' := by
  have hnp : g.np p = npages (k.procs p).sz :=
    Ghost.np_of_own ((hs.own p).trans hroot) (hs.size p root hroot)
  have hgrown := uvmalloc_grown hroot (h.unlisted hnp.le) hmax halloc
  refine hgrown.unchanged (h.freeOnce hs) (h'.freeOnce hs') ⟨p, hroot⟩ fun w hle hlt => ?_
  have hw := hlt.trans_le (npages_le_of_le hmax)
  have hprocs := hgrown.confined.procs
  rw [h.leaf_eq_none hs hroot hle hw]
  exact h'.leaf_eq_none hs' (by rw [hprocs, hroot]) (by rw [hprocs]; exact hle) hw

/-- **`sbrk` is exact if and only if it is not asked for a negative size.** For every process and
every `n`, the call returns the old size and changes it by `n`, or fails and changes nothing, unless
it is to shrink by more than the size. -/
theorem sysSbrk_exact_iff (L : SwapLaws S) (h : k.Sound) (hroot : (k.procs p).pagetable = some root)
    {n : ℤ} (hlo : -2 ^ 31 ≤ n) (hhi : n < 2 ^ 31) (eager : Bool) :
    ∃ r k', k.sysSbrk p n eager = .ok (r, k') ∧
      (SbrkExact k p root n r k' ↔ 0 ≤ ((k.procs p).sz : ℤ) + n) := by
  obtain ⟨g, hinv, hs⟩ := h
  obtain ⟨r, k', g', heq, hinv', hs', -, hres⟩ := sysSbrk_spec L hinv hs hroot hlo hhi eager
  refine ⟨r, k', heq, fun hex => ?_, fun hsum => ⟨?_, ?_⟩⟩
  · obtain rfl | ⟨-, hpos, -⟩ := sysSbrk_cases hroot heq
    · have hsize := (hex.done _ rfl).2.1
      omega
    · omega
  · rintro a rfl
    have hcore := (hres rfl).core p
    simp only [if_true, Proc.core, ProcCore.mk.injEq] at hcore
    have hsz : (k'.procs p).sz = sbrkSize (k.procs p).sz n := by simp [hcore]
    have hroot' : (k'.procs p).pagetable = some root := by simp [hcore, hroot]
    obtain hold | ⟨hnone, -⟩ := sysSbrk_cases hroot heq
    · refine ⟨Option.some.inj hold, ?_, hinv'.size_le hs' hroot', hinv'.noneAbove hs' hroot'⟩
      rw [hsz, sbrkSize, if_pos hsum, Int.toNat_of_nonneg hsum]
    · cases hnone
  · rintro rfl
    obtain hold | ⟨-, -, rfl | ⟨hmax, halloc⟩⟩ := sysSbrk_cases hroot heq
    · cases hold
    · exact .refl (hinv.freeOnce hs) ⟨p, hroot⟩
    · exact uvmalloc_undone hinv hs hroot hmax halloc hinv' hs'

/-- Growing by three pages with memory for two of them and for the page table. -/
theorem sysSbrk_exact_sole : sole.Sound ∧ ∃ r k', sole.sysSbrk soleProc 12288 true = .ok (r, k') ∧
    (SbrkExact sole soleProc soleRoot 12288 r k' ↔ (0 : ℤ) ≤ (sole.procs soleProc).sz + 12288) :=
  ⟨sole_sound, sysSbrk_exact_iff (raidSwapLaws .raid5) sole_sound rfl (by norm_num) (by norm_num)
    true⟩

/-- Shrinking three pages by 20000 bytes returns the old size, and the size stays what it is. -/
theorem sysSbrk_wraps : sole.Sound ∧ ∃ k',
    sole.sysSbrk soleProc (-20000) false = .ok (some (3 * pgSize), k') ∧
      (k'.procs soleProc).sz = 3 * pgSize ∧
      ¬ SbrkExact sole soleProc soleRoot (-20000) (some (3 * pgSize)) k' := by
  refine ⟨sole_sound, _, rfl, rfl, fun hex => ?_⟩
  have hsize := (hex.done _ rfl).2.1
  exact absurd hsize (by decide)

end Xv6Swap.Paging.Kernel
