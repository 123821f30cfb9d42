import Xv6Swap.Foundations.Ledger
import Xv6Swap.Paging.Space

/-!
# The roles of physical pages

The pages of the allocator are on the free list or belong to a process: as its trapframe, as a page
of its page table, or as a page that its page table maps for user code. A `Layout` says which page
is where, and `pagesAt` lists the pages in each `Role`.

`Books P L hand` is the account: the pages in all roles of `L`, together with those that the kernel
has in hand, are the pages `P`, each once (`Ledger.Balanced`), and the page tables are well formed.
A page changes its role through the hand: each lemma on `Books` is a move between one role and the
hand.
-/

namespace Xv6Swap.Paging

open Raid (pgSize)
open Kernel (vpn)
open Ledger (Balanced)

/-! ## Page tables -/

/-- A place in a page table that a page may have. The virtual page numbers of user pages are below
the trapframe. -/
inductive Place
  | mid (i : Fin 512)
  | low (j : Fin (512 * 512))
  | user (v : Fin (vpn trapframeVa))
  deriving DecidableEq, Fintype

namespace PageTable

/-- The page in a place. -/
def page (pt : PageTable) : Place → Option PA
  | .mid i => pt.mid i
  | .low j => pt.low j
  | .user v => (pt.leaf v).map Pte.pa

def setMid (pt : PageTable) (i : ℕ) (x : Option PA) : PageTable :=
  { pt with mid := Function.update pt.mid i x }

def setLow (pt : PageTable) (j : ℕ) (x : Option PA) : PageTable :=
  { pt with low := Function.update pt.low j x }

def setLeaf (pt : PageTable) (v : ℕ) (x : Option Pte) : PageTable :=
  { pt with leaf := Function.update pt.leaf v x }

variable (pt : PageTable)

theorem page_setMid {i : ℕ} (hi : i < 512) (x : Option PA) :
    (pt.setMid i x).page = Function.update pt.page (.mid ⟨i, hi⟩) x := by
  funext pl
  cases pl with
  | mid k => simp [page, setMid, Function.update_apply, Fin.ext_iff]
  | _ => rfl

theorem page_setLow {j : ℕ} (hj : j < 512 * 512) (x : Option PA) :
    (pt.setLow j x).page = Function.update pt.page (.low ⟨j, hj⟩) x := by
  funext pl
  cases pl with
  | low k => simp [page, setLow, Function.update_apply, Fin.ext_iff]
  | _ => rfl

theorem page_setLeaf {v : ℕ} (hv : v < vpn trapframeVa) (x : Option Pte) :
    (pt.setLeaf v x).page = Function.update pt.page (.user ⟨v, hv⟩) (x.map Pte.pa) := by
  funext pl
  cases pl with
  | user w =>
    by_cases hw : (w : ℕ) = v
    · obtain rfl : w = ⟨v, hv⟩ := Fin.ext hw
      simp [page, setLeaf]
    · have hne : w ≠ ⟨v, hv⟩ := fun h => hw (congrArg Fin.val h)
      simp [page, setLeaf, hw, hne]
  | _ => rfl

/-- The entries of the trampoline and the trapframe are not for user code. -/
theorem page_setLeaf_of_le {v : ℕ} (hv : vpn trapframeVa ≤ v) (x : Option Pte) :
    (pt.setLeaf v x).page = pt.page := by
  funext pl
  cases pl with
  | user w =>
    have hne : (w : ℕ) ≠ v := fun h => absurd w.isLt (by omega)
    simp [page, setLeaf, hne]
  | _ => rfl

end PageTable

/-- A page table whose entries are below the pages of the level above. -/
structure TableWf (pt : PageTable) : Prop where
  mid_lt : ∀ i, (pt.mid i).isSome → i < 512
  low_mid : ∀ j, (pt.low j).isSome → (pt.mid (j / 512)).isSome
  leaf_low : ∀ v, (pt.leaf v).isSome → (pt.low (v / 512)).isSome
  leaf_le : ∀ v, (pt.leaf v).isSome → v ≤ vpn trampolineVa

section TableWf

variable {pt : PageTable}

theorem tableWf_empty : TableWf .empty := ⟨nofun, nofun, nofun, nofun⟩

theorem TableWf.low_lt (h : TableWf pt) {j : ℕ} (hj : (pt.low j).isSome) : j < 512 * 512 := by
  have hmid := h.mid_lt _ (h.low_mid j hj)
  omega

/-- Setting an entry to a page. -/
theorem isSome_of_update {α : Type*} {f : ℕ → Option α} {i k : ℕ} {x : Option α}
    (h : (Function.update f i x k).isSome) : k = i ∧ x.isSome ∨ (f k).isSome := by
  by_cases hk : k = i
  · subst hk
    rw [Function.update_self] at h
    exact .inl ⟨rfl, h⟩
  · rw [Function.update_of_ne hk] at h
    exact .inr h

theorem isSome_update_some {α : Type*} {f : ℕ → Option α} {i k : ℕ} {a : α} (h : (f k).isSome) :
    (Function.update f i (some a) k).isSome := by
  by_cases hk : k = i
  · subst hk
    simp
  · rwa [Function.update_of_ne hk]

theorem TableWf.setMid_some (h : TableWf pt) {i : ℕ} (hi : i < 512) (pa : PA) :
    TableWf (pt.setMid i (some pa)) where
  mid_lt k hk := (isSome_of_update hk).elim (fun hk => hk.1 ▸ hi) (h.mid_lt k)
  low_mid j hj := isSome_update_some (h.low_mid j hj)
  leaf_low := h.leaf_low
  leaf_le := h.leaf_le

theorem TableWf.setLow_some (h : TableWf pt) {j : ℕ} (hj : (pt.mid (j / 512)).isSome) (pa : PA) :
    TableWf (pt.setLow j (some pa)) where
  mid_lt := h.mid_lt
  low_mid k hk := (isSome_of_update hk).elim (fun hk => hk.1 ▸ hj) (h.low_mid k)
  leaf_low v hv := isSome_update_some (h.leaf_low v hv)
  leaf_le := h.leaf_le

theorem TableWf.setLeaf_some (h : TableWf pt) {v : ℕ} (hlow : (pt.low (v / 512)).isSome)
    (hv : v ≤ vpn trampolineVa) (pte : Pte) : TableWf (pt.setLeaf v (some pte)) where
  mid_lt := h.mid_lt
  low_mid := h.low_mid
  leaf_low w hw := (isSome_of_update hw).elim (fun hw => hw.1 ▸ hlow) (h.leaf_low w)
  leaf_le w hw := (isSome_of_update hw).elim (fun hw => hw.1 ▸ hv) (h.leaf_le w)

theorem TableWf.setLeaf_none (h : TableWf pt) (v : ℕ) : TableWf (pt.setLeaf v none) where
  mid_lt := h.mid_lt
  low_mid := h.low_mid
  leaf_low w hw := (isSome_of_update hw).elim (fun hw => nomatch hw.2) (h.leaf_low w)
  leaf_le w hw := (isSome_of_update hw).elim (fun hw => nomatch hw.2) (h.leaf_le w)

theorem TableWf.setLow_none (h : TableWf pt) {j : ℕ}
    (hleaf : ∀ v, v / 512 = j → pt.leaf v = none) : TableWf (pt.setLow j none) where
  mid_lt := h.mid_lt
  low_mid k hk := (isSome_of_update hk).elim (fun hk => nomatch hk.2) (h.low_mid k)
  leaf_low v hv := by
    have hne : v / 512 ≠ j := fun heq => by simp [PageTable.setLow, hleaf v heq] at hv
    simpa [PageTable.setLow, hne] using h.leaf_low v hv
  leaf_le := h.leaf_le

theorem TableWf.setMid_none (h : TableWf pt) {i : ℕ} (hlow : ∀ j, j / 512 = i → pt.low j = none) :
    TableWf (pt.setMid i none) where
  mid_lt k hk := (isSome_of_update hk).elim (fun hk => nomatch hk.2) (h.mid_lt k)
  low_mid j hj := by
    have hne : j / 512 ≠ i := fun heq => by simp [PageTable.setMid, hlow j heq] at hj
    simpa [PageTable.setMid, hne] using h.low_mid j hj
  leaf_low := h.leaf_low
  leaf_le := h.leaf_le

end TableWf

/-! ## Layouts -/

/-- What a page is used for. -/
inductive Role
  | free
  | trapframe (p : ProcIdx)
  | root (p : ProcIdx)
  | entry (p : ProcIdx) (pl : Place)
  deriving DecidableEq, Fintype

/-- Where the pages are. -/
structure Layout where
  free : List PA
  trapframe : ProcIdx → Option PA
  root : ProcIdx → Option PA
  tab : ProcIdx → PageTable

namespace Layout

/-- The pages in a role. -/
def pagesAt (L : Layout) : Role → Multiset PA
  | .free => L.free
  | .trapframe p => (L.trapframe p).toList
  | .root p => (L.root p).toList
  | .entry p pl => ((L.tab p).page pl).toList

def setFree (L : Layout) (l : List PA) : Layout := { L with free := l }

def setTrapframe (L : Layout) (p : ProcIdx) (x : Option PA) : Layout :=
  { L with trapframe := Function.update L.trapframe p x }

def setRoot (L : Layout) (p : ProcIdx) (x : Option PA) : Layout :=
  { L with root := Function.update L.root p x }

def setTab (L : Layout) (p : ProcIdx) (pt : PageTable) : Layout :=
  { L with tab := Function.update L.tab p pt }

variable (L : Layout) {p : ProcIdx}

theorem pagesAt_setFree (l : List PA) :
    (L.setFree l).pagesAt = Function.update L.pagesAt .free (l : Multiset PA) := by
  funext r
  cases r <;> rfl

theorem pagesAt_setTrapframe (x : Option PA) : (L.setTrapframe p x).pagesAt =
    Function.update L.pagesAt (.trapframe p) (x.toList : Multiset PA) := by
  funext r
  cases r with
  | trapframe q => by_cases hq : q = p <;> simp [pagesAt, setTrapframe, hq]
  | _ => rfl

theorem pagesAt_setRoot (x : Option PA) : (L.setRoot p x).pagesAt =
    Function.update L.pagesAt (.root p) (x.toList : Multiset PA) := by
  funext r
  cases r with
  | root q => by_cases hq : q = p <;> simp [pagesAt, setRoot, hq]
  | _ => rfl

/-- A page table with another page in one place. -/
theorem pagesAt_setTab {pt : PageTable} {pl : Place} {x : Option PA}
    (h : pt.page = Function.update (L.tab p).page pl x) : (L.setTab p pt).pagesAt =
      Function.update L.pagesAt (.entry p pl) (x.toList : Multiset PA) := by
  funext r
  cases r with
  | entry q pl' =>
    by_cases hq : q = p
    · subst hq
      by_cases hpl : pl' = pl
      · subst hpl
        simp [pagesAt, setTab, h]
      · simp [pagesAt, setTab, h, hpl]
    · simp [pagesAt, setTab, hq]
  | _ => rfl

theorem pagesAt_setTab_of_eq {pt : PageTable} (h : pt.page = (L.tab p).page) :
    (L.setTab p pt).pagesAt = L.pagesAt := by
  funext r
  cases r with
  | entry q pl =>
    by_cases hq : q = p
    · subst hq
      simp [pagesAt, setTab, h]
    · simp [pagesAt, setTab, hq]
  | _ => rfl

theorem pagesAt_free : L.pagesAt .free = (L.free : Multiset PA) := rfl

end Layout

/-! ## The books -/

/-- The pages in all roles and in hand are the pages `P`. -/
structure Books (P : Multiset PA) (L : Layout) (hand : Multiset PA) : Prop where
  balanced : Balanced P L.pagesAt hand
  wf : ∀ p, TableWf (L.tab p)

namespace Books

variable {P hand : Multiset PA} {L : Layout} {pa : PA} {p q : ProcIdx} {l : List PA}

/-- A page is taken off the free list. -/
theorem popFree (h : Books P L hand) (hl : L.free = pa :: l) :
    Books P (L.setFree l) (pa ::ₘ hand) where
  balanced := by
    rw [L.pagesAt_setFree]
    exact h.balanced.take (by rw [L.pagesAt_free, hl]; rfl)
  wf := h.wf

/-- A page is put on the free list. -/
theorem pushFree (h : Books P L (pa ::ₘ hand)) : Books P (L.setFree (pa :: L.free)) hand where
  balanced := by
    rw [L.pagesAt_setFree]
    exact h.balanced.put
  wf := h.wf

/-- A page becomes a trapframe. -/
theorem setTrapframe_some (h : Books P L (pa ::ₘ hand)) (hp : L.trapframe p = none) :
    Books P (L.setTrapframe p (some pa)) hand where
  balanced := by
    rw [L.pagesAt_setTrapframe]
    exact h.balanced.update (by simp [Layout.pagesAt, hp])
  wf := h.wf

theorem setTrapframe_none (h : Books P L hand) (hp : L.trapframe p = some pa) :
    Books P (L.setTrapframe p none) (pa ::ₘ hand) where
  balanced := by
    rw [L.pagesAt_setTrapframe]
    exact h.balanced.update (by simp [Layout.pagesAt, hp])
  wf := h.wf

theorem setRoot_some (h : Books P L (pa ::ₘ hand)) (hp : L.root p = none) :
    Books P (L.setRoot p (some pa)) hand where
  balanced := by
    rw [L.pagesAt_setRoot]
    exact h.balanced.update (by simp [Layout.pagesAt, hp])
  wf := h.wf

theorem setRoot_none (h : Books P L hand) (hp : L.root p = some pa) :
    Books P (L.setRoot p none) (pa ::ₘ hand) where
  balanced := by
    rw [L.pagesAt_setRoot]
    exact h.balanced.update (by simp [Layout.pagesAt, hp])
  wf := h.wf

theorem wf_setTab {pt : PageTable} (h : ∀ q, TableWf (L.tab q)) (hpt : TableWf pt) (q : ProcIdx) :
    TableWf ((L.setTab p pt).tab q) := by
  by_cases hq : q = p
  · subst hq
    simpa [Layout.setTab] using hpt
  · simpa [Layout.setTab, hq] using h q

/-- A page gets a place in a page table. -/
theorem setTab_some (h : Books P L (pa ::ₘ hand)) {pt : PageTable} {pl : Place}
    (hpt : pt.page = Function.update (L.tab p).page pl (some pa)) (hnone : (L.tab p).page pl = none)
    (hwf : TableWf pt) : Books P (L.setTab p pt) hand where
  balanced := by
    rw [L.pagesAt_setTab hpt]
    exact h.balanced.update (by simp [Layout.pagesAt, hnone])
  wf := wf_setTab h.wf hwf

/-- A page loses its place in a page table. -/
theorem setTab_none (h : Books P L hand) {pt : PageTable} {pl : Place}
    (hpt : pt.page = Function.update (L.tab p).page pl none) (hsome : (L.tab p).page pl = some pa)
    (hwf : TableWf pt) : Books P (L.setTab p pt) (pa ::ₘ hand) where
  balanced := by
    rw [L.pagesAt_setTab hpt]
    exact h.balanced.update (by simp [Layout.pagesAt, hsome])
  wf := wf_setTab h.wf hwf

/-- A page table changes without a page getting or losing its place. -/
theorem setTab_eq (h : Books P L hand) {pt : PageTable} (hpt : pt.page = (L.tab p).page)
    (hwf : TableWf pt) : Books P (L.setTab p pt) hand where
  balanced := by
    rw [L.pagesAt_setTab_of_eq hpt]
    exact h.balanced
  wf := wf_setTab h.wf hwf

/-- No two processes have the same page table. -/
theorem root_inj (h : Books P L hand) (hp : L.root p = some pa) (hq : L.root q = some pa) :
    p = q := by
  have hrole : Role.root p = Role.root q :=
    h.balanced.place_unique (a := pa) (by simp [Layout.pagesAt, hp]) (by simp [Layout.pagesAt, hq])
  exact Role.root.inj hrole

theorem root_ne_of_hand (h : Books P L (pa ::ₘ hand)) (p : ProcIdx) : L.root p ≠ some pa := by
  intro hp
  exact h.balanced.notMem_of_hand (Multiset.mem_cons_self pa hand) (.root p)
    (by simp [Layout.pagesAt, hp])

theorem free_nodup (h : Books P L hand) : L.free.Nodup :=
  Multiset.coe_nodup.1 (h.balanced.nodup_place .free)

end Books

end Xv6Swap.Paging
