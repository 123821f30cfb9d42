import Mathlib.Data.Fintype.Card
import Mathlib.Data.Finset.Card
import Xv6Swap.Paging.Sections
import Xv6Swap.Paging.Space

/-!
# The paging invariant

What holds of the kernel state between two operations (`Inv`). Every physical page the allocator
manages has one use at a time; the free list, the trapframes and the page tables are described by
these uses (`PagesOk`, `PtOk`), so that two of them never share a page. A frame entry stands for a
mapped page of a process, and an entry of the swap map for a page that is not mapped, stored in the
slot of the same number (`TablesOk`).

The uses of the pages, the page tables in existence and their owners are ghost state (`Ghost`). They
run ahead of the source's variables inside an operation: `growproc` stores the new size only after
it has changed the page table, and `freeproc` drops the page table only after it has freed it.

The contents of a process's page are its *logical* page: the frame it is mapped to, or else its slot
in swap, or else zeros.
-/

namespace Xv6Swap.Paging

open Raid (Page pgSize)
open Kernel (vpn)

/-- What a physical page is used for. -/
inductive Use
  /-- not managed by the allocator, or used by another part of the kernel -/
  | kernel
  | free
  /-- taken off the free list and not yet put to use -/
  | held
  | trapframe (p : ProcIdx)
  | root
  | mid (root : PA) (i : ℕ)
  | low (root : PA) (j : ℕ)
  | user (root : PA) (v : ℕ)
  deriving DecidableEq

/-- The page table that a page belongs to, besides its root. -/
def Use.table : Use → Option PA
  | .mid r _ | .low r _ | .user r _ => some r
  | _ => none

/-- The roles of pages and page tables. `size` gives the page tables in existence, by their root,
with a bound on their user pages. `pend` is a page that has been registered in the frame table and
is not mapped yet, as in the middle of `vmfault`. -/
structure Ghost where
  use : PA → Use
  size : PA → Option ℕ
  own : ProcIdx → Option PA
  pend : Option (ProcIdx × ℕ)

namespace Ghost

/-- Put a page to another use. -/
def setUse (g : Ghost) (pa : PA) (u : Use) : Ghost :=
  { g with use := Function.update g.use pa u }

@[simp] theorem setUse_setUse (g : Ghost) (pa : PA) (u u' : Use) :
    (g.setUse pa u).setUse pa u' = g.setUse pa u' := by
  simp [setUse]

@[simp] theorem setUse_use_self (g : Ghost) (pa : PA) (u : Use) : (g.setUse pa u).use pa = u := by
  simp [setUse]

theorem setUse_use_of_ne (g : Ghost) {pa pa' : PA} (u : Use) (h : pa' ≠ pa) :
    (g.setUse pa u).use pa' = g.use pa' := by
  simp [setUse, h]

/-- The number of pages of a process. -/
def np (g : Ghost) (p : ProcIdx) : ℕ := ((g.own p).bind g.size).getD 0

theorem np_of_own {g : Ghost} {p : ProcIdx} {root : PA} {n : ℕ} (ho : g.own p = some root)
    (hn : g.size root = some n) : g.np p = n := by
  simp [np, ho, hn]

theorem own_of_lt_np {g : Ghost} {p : ProcIdx} {v : ℕ} (h : v < g.np p) :
    ∃ root, g.own p = some root ∧ g.size root = some (g.np p) := by
  cases ho : g.own p with
  | none => simp [np, ho] at h
  | some root =>
    cases hn : g.size root with
    | none => simp [np, ho, hn] at h
    | some n => exact ⟨root, rfl, by rw [np_of_own ho hn]; exact hn⟩

end Ghost

/-- The number of pages of an address space. -/
def npages (sz : ℕ) : ℕ := pgRoundUp sz / pgSize

/-- A page table at `root` with user pages below page number `n`. -/
structure PtOk (pt : PageTable) (use : PA → Use) (root : PA) (n : ℕ) : Prop where
  root_use : use root = .root
  mid_lt : ∀ i pg, pt.mid i = some pg → i < 512
  mid_use : ∀ i pg, pt.mid i = some pg → use pg = .mid root i
  low_use : ∀ j pg, pt.low j = some pg → use pg = .low root j
  low_mid : ∀ j pg, pt.low j = some pg → (pt.mid (j / 512)).isSome
  leaf_low : ∀ v pte, pt.leaf v = some pte → (pt.low (v / 512)).isSome
  leaf_use : ∀ v pte, pt.leaf v = some pte →
    (v = vpn trampolineVa ∨ v = vpn trapframeVa) ∧ pte.perm.u = false ∨
      v < n ∧ use pte.pa = .user root v
  bound : n ≤ vpn trapframeVa

/-- The free list and the pages in use. -/
structure PagesOk (freelist : List PA) (kernEnd : PA) (use : PA → Use) : Prop where
  free_use : ∀ pa ∈ freelist, use pa = .free
  nodup : freelist.Nodup
  managed : ∀ pa, use pa ≠ .kernel → pa % pgSize = 0 ∧ kernEnd ≤ pa ∧ pa < phystop

/-- The frame table and the swap map, for processes with `np p` pages and page table entries
`pte p`. -/
structure TablesOk (t : Tables) (np : ProcIdx → ℕ) (pte : ProcIdx → ℕ → Option Pte)
    (pend : Option (ProcIdx × ℕ)) : Prop where
  frame_ok : ∀ i, (t.frameTable i).used = true → ∃ p v,
    (t.frameTable i).entry = (true, true, some p, v * pgSize) ∧ v < np p ∧
      ((∃ pa, pte p v = some ⟨pa, .userRw⟩) ∨ pend = some (p, v) ∧ pte p v = none)
  frame_inj : ∀ i j, (t.frameTable i).used = true →
    (t.frameTable i).entry = (t.frameTable j).entry → i = j
  count : t.userFrameCount = (Finset.univ.filter fun i => (t.frameTable i).used = true).card
  used_iff : ∀ i, t.swapUsed i = (t.swapMap i).used
  swap_ok : ∀ i, (t.swapMap i).used = true → ∃ p v,
    t.swapMap i = ⟨true, some p, v * pgSize, some i⟩ ∧ v < np p ∧ pte p v = none
  swap_inj : ∀ i j p va, (t.swapMap i).Holds p va → (t.swapMap j).Holds p va → i = j

/-- What the paging code relies on: a slot holds the page last written to it. -/
structure SwapLaws {σ : Type} (S : SwapOps σ) where
  view : σ → SlotIdx → Page
  write_ok : ∀ s pg d, 0 ≤ (S.write s pg d).1
  view_write_self : ∀ s pg d, view (S.write s pg d).2 s = pg
  view_write_of_ne : ∀ s pg d s', s' ≠ s → view (S.write s pg d).2 s' = view d s'
  read_ok : ∀ s pg d, 0 ≤ (S.read s pg d).1
  view_read : ∀ s pg d, view (S.read s pg d).2.1 = view d
  read_eq : ∀ s pg d, (S.read s pg d).2.2 = view d s

namespace Kernel

variable {σ : Type}

/-- The page tables of the processes. -/
def roots (k : Kernel σ) (p : ProcIdx) : Option PA := (k.procs p).pagetable

/-- The page table entry of page `v` of a process that has the page table `own p`. -/
def pte (k : Kernel σ) (own : ProcIdx → Option PA) (p : ProcIdx) (v : ℕ) : Option Pte :=
  (own p).bind fun root => (k.pts root).leaf v

/-- The paging invariant. -/
structure Inv (k : Kernel σ) (g : Ghost) : Prop where
  pages : PagesOk k.freelist k.kernEnd g.use
  pt : ∀ root n, g.size root = some n → PtOk (k.pts root) g.use root n
  own_size : ∀ p root, g.own p = some root → (g.size root).isSome
  own_inj : ∀ p q root, g.own p = some root → g.own q = some root → p = q
  trapframe : ∀ p pa, (k.procs p).trapframe = some pa → g.use pa = .trapframe p
  tables : TablesOk k.tables g.np (k.pte g.own) g.pend

/-- The ghost state agrees with the processes, as it does between two operations. -/
structure Synced (k : Kernel σ) (g : Ghost) : Prop where
  own : ∀ p, g.own p = (k.procs p).pagetable
  size : ∀ p root, (k.procs p).pagetable = some root →
    g.size root = some (npages (k.procs p).sz)
  pend : g.pend = none

section Logical

variable {S : SwapOps σ} (L : SwapLaws S)

/-- The page of a process in the swap map, if it is there. -/
def swapPage (k : Kernel σ) (p : ProcIdx) (v : ℕ) : Option Page :=
  (k.tables.findSwap p (v * pgSize)).bind fun i =>
    (k.tables.swapMap i).swapSlot.map (L.view k.swap)

/-- The contents of page `v` of process `p`. -/
def logical (k : Kernel σ) (own : ProcIdx → Option PA) (p : ProcIdx) (v : ℕ) : Page :=
  match k.pte own p v with
  | some pte => k.mem pte.pa
  | none => (k.swapPage L p v).getD 0

end Logical

end Kernel

/-! ## Page tables and the uses of pages -/

section PtOk

variable {pt : PageTable} {use use' : PA → Use} {root pa : PA} {n : ℕ}

/-- A page table keeps to the pages that have a use in it. -/
theorem PtOk.congr_use (h : PtOk pt use root n) (hroot : use' root = use root)
    (hmid : ∀ i pg, pt.mid i = some pg → use' pg = use pg)
    (hlow : ∀ j pg, pt.low j = some pg → use' pg = use pg)
    (hleaf : ∀ v pte, pt.leaf v = some pte → use pte.pa = .user root v →
      use' pte.pa = use pte.pa) : PtOk pt use' root n where
  root_use := hroot.trans h.root_use
  mid_lt := h.mid_lt
  mid_use i pg hi := (hmid i pg hi).trans (h.mid_use i pg hi)
  low_use j pg hj := (hlow j pg hj).trans (h.low_use j pg hj)
  low_mid := h.low_mid
  leaf_low := h.leaf_low
  leaf_use v pte hv := by
    rcases h.leaf_use v pte hv with hv' | ⟨hlt, hu⟩
    · exact .inl hv'
    · exact .inr ⟨hlt, (hleaf v pte hv hu).trans hu⟩
  bound := h.bound

/-- A page with no use in the table may be put to any use. -/
theorem PtOk.update_use (h : PtOk pt use root n) (hroot : use pa ≠ .root)
    (hmid : ∀ i, use pa ≠ .mid root i) (hlow : ∀ j, use pa ≠ .low root j)
    (hleaf : ∀ v pte, pt.leaf v = some pte → use pa ≠ .user root v) (u : Use) :
    PtOk pt (Function.update use pa u) root n := by
  have hne : ∀ {pg}, use pg ≠ use pa → Function.update use pa u pg = use pg := fun hpg =>
    Function.update_of_ne (fun e => hpg (congrArg use e)) _ _
  refine h.congr_use (hne ?_) (fun i pg hi => hne ?_) (fun j pg hj => hne ?_)
    fun v pte hv hu => hne ?_
  · rw [h.root_use]
    exact hroot.symm
  · rw [h.mid_use i pg hi]
    exact (hmid i).symm
  · rw [h.low_use j pg hj]
    exact (hlow j).symm
  · rw [hu]
    exact (hleaf v pte hv).symm

/-- A page table does not care about pages that are free or held. -/
theorem PtOk.update_spare (h : PtOk pt use root n) (hpa : use pa = .free ∨ use pa = .held)
    (u : Use) : PtOk pt (Function.update use pa u) root n := by
  rcases hpa with hpa | hpa <;>
    exact h.update_use (by simp [hpa]) (by simp [hpa]) (by simp [hpa]) (by simp [hpa]) u

/-- A page table does not care about the pages of another one. -/
theorem PtOk.update_other (h : PtOk pt use root n) {root' : PA}
    (hpa : (use pa).table = some root') (hne : root' ≠ root) (u : Use) :
    PtOk pt (Function.update use pa u) root n := by
  have htable : ∀ {x : Use}, x.table = some root → use pa ≠ x := by
    rintro x hx rfl
    exact hne (Option.some.inj (hpa.symm.trans hx))
  exact h.update_use (fun e => by simp [e, Use.table] at hpa) (fun i => htable rfl)
    (fun j => htable rfl) (fun v pte _ => htable rfl) u

/-- A page table does not care about a user page that it no longer maps. -/
theorem PtOk.update_user (h : PtOk pt use root n) {v : ℕ} (hpa : use pa = .user root v)
    (hv : pt.leaf v = none) (u : Use) : PtOk pt (Function.update use pa u) root n := by
  refine h.update_use (by simp [hpa]) (by simp [hpa]) (by simp [hpa]) (fun w pte hw e => ?_) u
  obtain ⟨-, rfl⟩ := Use.user.inj (hpa.symm.trans e)
  simp [hw] at hv

theorem PtOk.clear_leaf (h : PtOk pt use root n) (v : ℕ) :
    PtOk { pt with leaf := Function.update pt.leaf v none } use root n := by
  have hsub : ∀ w pte, Function.update pt.leaf v none w = some pte → pt.leaf w = some pte := by
    intro w pte hw
    by_cases hwv : w = v
    · simp [hwv] at hw
    · simpa [hwv] using hw
  exact { h with
    leaf_low := fun w pte hw => h.leaf_low w pte (hsub w pte hw)
    leaf_use := fun w pte hw => h.leaf_use w pte (hsub w pte hw) }

theorem PtOk.set_leaf (h : PtOk pt use root n) {v : ℕ} {pte : Pte} (hv : v < n)
    (hlow : (pt.low (v / 512)).isSome) (hu : use pte.pa = .user root v) :
    PtOk { pt with leaf := Function.update pt.leaf v (some pte) } use root n where
  root_use := h.root_use
  mid_lt := h.mid_lt
  mid_use := h.mid_use
  low_use := h.low_use
  low_mid := h.low_mid
  leaf_low w pte' hw := by
    by_cases hwv : w = v
    · exact hwv ▸ hlow
    · exact h.leaf_low w pte' (by simpa [hwv] using hw)
  leaf_use w pte' hw := by
    by_cases hwv : w = v
    · subst hwv
      obtain rfl : pte = pte' := by simpa using hw
      exact .inr ⟨hv, hu⟩
    · exact h.leaf_use w pte' (by simpa [hwv] using hw)
  bound := h.bound

/-- The trampoline or the trapframe is mapped. -/
theorem PtOk.set_kernel_leaf (h : PtOk pt use root n) {v : ℕ} {pte : Pte}
    (hv : v = vpn trampolineVa ∨ v = vpn trapframeVa) (hu : pte.perm.u = false)
    (hlow : (pt.low (v / 512)).isSome) :
    PtOk { pt with leaf := Function.update pt.leaf v (some pte) } use root n :=
  { h with
    leaf_low := fun w pte' hw => by
      by_cases hwv : w = v
      · exact hwv ▸ hlow
      · exact h.leaf_low w pte' (by simpa [hwv] using hw)
    leaf_use := fun w pte' hw => by
      by_cases hwv : w = v
      · subst hwv
        obtain rfl : pte = pte' := by simpa using hw
        exact .inl ⟨hv, hu⟩
      · exact h.leaf_use w pte' (by simpa [hwv] using hw) }

theorem PtOk.set_mid (h : PtOk pt use root n) {i : ℕ} (hi : i < 512) (hu : use pa = .mid root i) :
    PtOk { pt with mid := Function.update pt.mid i (some pa) } use root n where
  root_use := h.root_use
  mid_lt j pg hj := by
    by_cases hji : j = i
    · exact hji ▸ hi
    · exact h.mid_lt j pg (by simpa [hji] using hj)
  mid_use j pg hj := by
    by_cases hji : j = i
    · subst hji
      obtain rfl : pa = pg := by simpa using hj
      exact hu
    · exact h.mid_use j pg (by simpa [hji] using hj)
  low_use := h.low_use
  low_mid j pg hj := by
    by_cases hji : j / 512 = i
    · simp [hji]
    · simpa [hji] using h.low_mid j pg hj
  leaf_low := h.leaf_low
  leaf_use := h.leaf_use
  bound := h.bound

theorem PtOk.set_low (h : PtOk pt use root n) {j : ℕ} (hmid : (pt.mid (j / 512)).isSome)
    (hu : use pa = .low root j) :
    PtOk { pt with low := Function.update pt.low j (some pa) } use root n where
  root_use := h.root_use
  mid_lt := h.mid_lt
  mid_use := h.mid_use
  low_use i pg hi := by
    by_cases hij : i = j
    · subst hij
      obtain rfl : pa = pg := by simpa using hi
      exact hu
    · exact h.low_use i pg (by simpa [hij] using hi)
  low_mid i pg hi := by
    by_cases hij : i = j
    · exact hij ▸ hmid
    · exact h.low_mid i pg (by simpa [hij] using hi)
  leaf_low v pte hv := by
    by_cases hvj : v / 512 = j
    · simp [hvj]
    · simpa [hvj] using h.leaf_low v pte hv
  leaf_use := h.leaf_use
  bound := h.bound

/-- The bound on the user pages may change as long as no page is beyond it. -/
theorem PtOk.resize (h : PtOk pt use root n) {n' : ℕ} (hn : n' ≤ vpn trapframeVa)
    (hnone : ∀ v, n' ≤ v → v < n → pt.leaf v = none) : PtOk pt use root n' :=
  { h with
    bound := hn
    leaf_use := fun v pte hv => by
      rcases h.leaf_use v pte hv with hv' | ⟨hlt, hu⟩
      · exact .inl hv'
      · refine .inr ⟨?_, hu⟩
        by_contra hle
        simp [hnone v (by omega) hlt] at hv }

/-- A leaf below the trapframe is a user page. -/
theorem PtOk.leaf_user (h : PtOk pt use root n) {v : ℕ} {pte : Pte} (hv : pt.leaf v = some pte)
    (hlt : v < vpn trapframeVa) : v < n ∧ use pte.pa = .user root v := by
  rcases h.leaf_use v pte hv with ⟨rfl | rfl, -⟩ | hu
  · exact absurd hlt (by decide)
  · exact absurd hlt (by decide)
  · exact hu

/-- So is a leaf that user code may access. -/
theorem PtOk.leaf_user_of_perm (h : PtOk pt use root n) {v : ℕ} {pte : Pte}
    (hv : pt.leaf v = some pte) (hu : pte.perm.u = true) : v < n ∧ use pte.pa = .user root v := by
  rcases h.leaf_use v pte hv with ⟨-, hu'⟩ | hu'
  · simp [hu] at hu'
  · exact hu'

/-! ### Taking a table apart -/

variable {pg : PA}

/-- A third-level page is taken out of an empty table. -/
theorem PtOk.clear_low (h : PtOk pt use root n) (hleaf : ∀ v, pt.leaf v = none) (j : ℕ) :
    PtOk { pt with low := Function.update pt.low j none } use root n := by
  have hsub : ∀ i pg, Function.update pt.low j none i = some pg → pt.low i = some pg := by
    intro i pg hi
    by_cases hij : i = j
    · simp [hij] at hi
    · simpa [hij] using hi
  exact { h with
    low_use := fun i pg hi => h.low_use i pg (hsub i pg hi)
    low_mid := fun i pg hi => h.low_mid i pg (hsub i pg hi)
    leaf_low := fun v e hv => by simp [hleaf v] at hv }

theorem PtOk.release_low (h : PtOk pt use root n) {j : ℕ} (hpg : use pg = .low root j)
    (hj : pt.low j = none) (u : Use) : PtOk pt (Function.update use pg u) root n := by
  have hne : ∀ {pg'}, use pg' ≠ use pg → Function.update use pg u pg' = use pg' := fun hpg' =>
    Function.update_of_ne (fun e => hpg' (congrArg use e)) _ _
  refine h.congr_use (hne ?_) (fun i pg' hi => hne ?_) (fun i pg' hi => hne ?_)
    fun v e hv hu => hne ?_
  · simp [h.root_use, hpg]
  · simp [h.mid_use i pg' hi, hpg]
  · rw [h.low_use i pg' hi, hpg]
    rintro ⟨⟩
    simp [hj] at hi
  · simp [hu, hpg]

/-- A second-level page is taken out of a table when nothing is below it. -/
theorem PtOk.clear_mid (h : PtOk pt use root n) {i : ℕ}
    (hlow : ∀ j, j / 512 = i → pt.low j = none) :
    PtOk { pt with mid := Function.update pt.mid i none } use root n := by
  have hsub : ∀ j pg, Function.update pt.mid i none j = some pg → pt.mid j = some pg := by
    intro j pg hj
    by_cases hji : j = i
    · simp [hji] at hj
    · simpa [hji] using hj
  refine { h with
    mid_lt := fun j pg hj => h.mid_lt j pg (hsub j pg hj)
    mid_use := fun j pg hj => h.mid_use j pg (hsub j pg hj)
    low_mid := fun j pg hj => ?_ }
  · by_cases hji : j / 512 = i
    · have hj' : pt.low j = some pg := hj
      simp [hlow j hji] at hj'
    · simpa [hji] using h.low_mid j pg hj

theorem PtOk.release_mid (h : PtOk pt use root n) {i : ℕ} (hpg : use pg = .mid root i)
    (hi : pt.mid i = none) (u : Use) : PtOk pt (Function.update use pg u) root n := by
  have hne : ∀ {pg'}, use pg' ≠ use pg → Function.update use pg u pg' = use pg' := fun hpg' =>
    Function.update_of_ne (fun e => hpg' (congrArg use e)) _ _
  refine h.congr_use (hne ?_) (fun j pg' hj => hne ?_) (fun j pg' hj => hne ?_)
    fun v e hv hu => hne ?_
  · simp [h.root_use, hpg]
  · rw [h.mid_use j pg' hj, hpg]
    rintro ⟨⟩
    simp [hi] at hj
  · simp [h.low_use j pg' hj, hpg]
  · simp [hu, hpg]

/-- A page table does not care about the root of another one. -/
theorem PtOk.release_root (h : PtOk pt use root n) (hpg : use pg = .root) (hne : pg ≠ root)
    (u : Use) : PtOk pt (Function.update use pg u) root n := by
  refine h.congr_use (Function.update_of_ne (Ne.symm hne) _ _) (fun i pg' hi => ?_)
    (fun i pg' hi => ?_) fun v e hv hu => ?_
  all_goals refine Function.update_of_ne ?_ _ _
  · rintro rfl
    simp [h.mid_use i pg' hi] at hpg
  · rintro rfl
    simp [h.low_use i pg' hi] at hpg
  · rintro rfl
    simp [hu] at hpg

end PtOk

end Xv6Swap.Paging
