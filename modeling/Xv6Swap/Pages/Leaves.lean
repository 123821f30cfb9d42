import Xv6Swap.Paging.Unmap
import Xv6Swap.Threads.Frame

/-!
# The entries of page tables

What the functions on page tables do to the leaf entries (`Kernel.leaves`): `walk` and `freewalk`
leave them alone and `mappages` sets one. `Steady` is what most steps of the kernel keep: the
processes have the same states, page tables, trapframes and sizes, the entries above the user pages
are as they were, and an entry set below lets user code use the page.
-/

namespace Xv6Swap.Paging

open Raid (Page pgSize)

/-- The fields of a process that say which pages it has. -/
def Proc.space (proc : Proc) : ProcState × Option PA × Option PA × ℕ :=
  (proc.state, proc.pagetable, proc.trapframe, proc.sz)

namespace Kernel

variable {σ : Type} {k k' k'' : Kernel σ} {root pa : PA} {va : ℕ}

/-- The leaf entries of a page table. -/
def leaves (k : Kernel σ) (root : PA) : ℕ → Option Pte := (k.pts root).leaf

theorem leaves_setPt (pt : PageTable) :
    (k.setPt root pt).leaves = Function.update k.leaves root pt.leaf := by
  funext r
  by_cases hr : r = root
  · subst hr
    simp [leaves, setPt]
  · simp [leaves, setPt, hr]

theorem leaves_setPt_of_eq {pt : PageTable} (h : pt.leaf = (k.pts root).leaf) :
    (k.setPt root pt).leaves = k.leaves := by
  rw [leaves_setPt, h]
  exact Function.update_eq_self root k.leaves

theorem leaves_setLeaf (va : ℕ) (e : Option Pte) : (k.setLeaf root va e).leaves =
    Function.update k.leaves root (Function.update (k.leaves root) (vpn va) e) :=
  leaves_setPt _

/-- The entry that `setLeaf` sets, and the others. -/
theorem leaves_setLeaf_apply (va : ℕ) (e : Option Pte) (r : PA) (v : ℕ) :
    (k.setLeaf root va e).leaves r v = if r = root ∧ v = vpn va then e else k.leaves r v := by
  rw [leaves_setLeaf]
  by_cases hr : r = root
  · subst hr
    by_cases hv : v = vpn va <;> simp [hv]
  · simp [hr]

theorem leaves_congr (h : k'.pts = k.pts) : k'.leaves = k.leaves := by
  funext r
  rw [leaves, leaves, h]

theorem setProc_trapframe {f : Proc → Proc} (hf : ∀ proc, (f proc).trapframe = proc.trapframe)
    (k : Kernel σ) (q p : ProcIdx) :
    ((k.setProc q f).procs p).trapframe = (k.procs p).trapframe := by
  by_cases hp : p = q
  · subst hp
    simp [setProc, hf]
  · simp [setProc, hp]

/-! ## Allocation and walking -/

theorem kfree_pts (hk : k.kfree pa = .ok k') : k'.pts = k.pts := by
  obtain rfl := kfree_eq_ok hk
  rfl

theorem walk_leaves {alloc b : Bool} (hk : k.walk root va alloc = .ok (b, k')) :
    k'.leaves = k.leaves := by
  refine walk_rel (r := fun k k' => k'.leaves = k.leaves) (fun _ => rfl)
    (fun _ _ _ h₁ h₂ => h₂.trans h₁) (fun k pg k₁ pt hka hpt => ?_) hk
  have hl : (k₁.fill pg 0).leaves = k.leaves :=
    show k₁.leaves = k.leaves from leaves_congr (kalloc_pts hka)
  rw [leaves_setPt_of_eq (hpt.trans (congrFun hl root).symm)]
  exact hl

/-- `mappages` sets one entry, which was not valid, if it succeeds. -/
theorem mappages_leaves {perm : Perm} {b : Bool}
    (hk : k.mappages root va pa perm = .ok (b, k')) :
    b = false ∧ k'.leaves = k.leaves ∨ b = true ∧ k.leaves root (vpn va) = none ∧
      k'.leaves = (k.setLeaf root va (some ⟨pa, perm⟩)).leaves := by
  obtain ⟨k₁, hwalk, ⟨rfl, rfl⟩ | ⟨rfl, hleaf, rfl⟩⟩ := mappages_cases hk
  · exact .inl ⟨rfl, walk_leaves hwalk⟩
  · have hl := walk_leaves hwalk
    exact .inr ⟨rfl, by rwa [← hl], by rw [leaves_setLeaf, leaves_setLeaf, hl]⟩

/-- `uvmunmap` of one page without `do_free` clears its entry, if there is one. -/
theorem uvmunmap_cases {cur : ProcIdx} (hk : k.uvmunmap cur root va 1 false = .ok k') :
    k' = k ∨ k' = k.setLeaf root va none := by
  unfold uvmunmap at hk
  split at hk
  · cases hk
  · obtain ⟨k₁, hpage, hk⟩ := bind_eq_ok.1 hk
    obtain rfl := Except.ok.inj hk
    unfold unmapPage at hpage
    simp only [Bool.false_eq_true, if_false] at hpage
    split at hpage
    · cases hpage
    · split at hpage
      · exact .inl (Except.ok.inj hpage).symm
      · exact .inr (Except.ok.inj hpage).symm

/-! ## Steady steps -/

/-- The processes have their spaces, the entries from the trapframe on are as they were, and a new
entry below has `PTE_U`. -/
structure Steady (k k' : Kernel σ) : Prop where
  space : ∀ p, (k'.procs p).space = (k.procs p).space
  trampoline : k'.trampoline = k.trampoline
  leaves : ∀ r v, vpn trapframeVa ≤ v → k'.leaves r v = k.leaves r v
  user : ∀ r v e, v < vpn trapframeVa → k'.leaves r v = some e →
    k.leaves r v = some e ∨ e.perm.u = true

namespace Steady

variable {p : ProcIdx}

theorem refl (k : Kernel σ) : Steady k k :=
  ⟨fun _ => rfl, rfl, fun _ _ _ => rfl, fun _ _ _ _ h => .inl h⟩

theorem trans (h : Steady k k') (h' : Steady k' k'') : Steady k k'' where
  space p := (h'.space p).trans (h.space p)
  trampoline := h'.trampoline.trans h.trampoline
  leaves r v hv := (h'.leaves r v hv).trans (h.leaves r v hv)
  user r v e hv he := (h'.user r v e hv he).elim (h.user r v e hv) .inr

theorem state (h : Steady k k') (p : ProcIdx) : (k'.procs p).state = (k.procs p).state :=
  congrArg (·.1) (h.space p)

theorem pagetable (h : Steady k k') (p : ProcIdx) :
    (k'.procs p).pagetable = (k.procs p).pagetable :=
  congrArg (·.2.1) (h.space p)

theorem trapframe (h : Steady k k') (p : ProcIdx) :
    (k'.procs p).trapframe = (k.procs p).trapframe :=
  congrArg (·.2.2.1) (h.space p)

theorem sz (h : Steady k k') (p : ProcIdx) : (k'.procs p).sz = (k.procs p).sz :=
  congrArg (·.2.2.2) (h.space p)

/-- Steps that leave the processes and the page tables alone. -/
theorem of_pts (hprocs : k'.procs = k.procs) (htrampoline : k'.trampoline = k.trampoline)
    (hpts : k'.pts = k.pts) : Steady k k' where
  space p := by rw [hprocs]
  trampoline := htrampoline
  leaves r v _ := by rw [leaves_congr hpts]
  user r v e _ he := .inl (leaves_congr hpts ▸ he)

theorem setProc {f : Proc → Proc} (hf : ∀ proc, (f proc).space = proc.space) (k : Kernel σ)
    (p : ProcIdx) : Steady k (k.setProc p f) where
  space q := by
    by_cases hq : q = p
    · subst hq
      simp [Kernel.setProc, hf]
    · simp [Kernel.setProc, hq]
  trampoline := rfl
  leaves _ _ _ := rfl
  user _ _ _ _ he := .inl he

theorem setLeaf (k : Kernel σ) (root : PA) (hv : vpn va < vpn trapframeVa) {e : Option Pte}
    (hu : ∀ pte, e = some pte → pte.perm.u = true) : Steady k (k.setLeaf root va e) where
  space _ := rfl
  trampoline := rfl
  leaves r v hle := by
    rw [leaves_setLeaf_apply, if_neg]
    rintro ⟨-, rfl⟩
    omega
  user r v pte _ he := by
    rw [leaves_setLeaf_apply] at he
    split at he
    · exact .inr (hu pte he)
    · exact .inl he

theorem kfree (hk : k.kfree pa = .ok k') : Steady k k' := by
  obtain rfl := kfree_eq_ok hk
  exact of_pts rfl rfl rfl

theorem kalloc {r : Option PA} (hk : k.kalloc = (r, k')) : Steady k k' := by
  cases r with
  | none =>
    rw [kalloc_none hk]
    exact refl k
  | some pa =>
    obtain ⟨l, -, rfl⟩ := kalloc_some hk
    exact of_pts rfl rfl rfl

theorem popFree {r : Option PA} (hk : k.popFree = (r, k')) : Steady k k' := by
  unfold Kernel.popFree at hk
  split at hk <;> (obtain ⟨-, rfl⟩ := Prod.mk.inj hk; exact of_pts rfl rfl rfl)

end Steady

theorem walk_trampoline {alloc b : Bool} (hk : k.walk root va alloc = .ok (b, k')) :
    k'.trampoline = k.trampoline :=
  walk_rel (r := fun k k' => k'.trampoline = k.trampoline) (fun _ => rfl)
    (fun _ _ _ h₁ h₂ => h₂.trans h₁) (fun _ _ _ _ hka _ => (Steady.kalloc hka).trampoline) hk

namespace Steady

theorem walk {alloc b : Bool} (hk : k.walk root va alloc = .ok (b, k')) : Steady k k' where
  space p := by rw [(walk_untouched hk).procs]
  trampoline := walk_trampoline hk
  leaves r v _ := by rw [walk_leaves hk]
  user r v e _ he := .inl (walk_leaves hk ▸ he)

/-- `mappages` for user code. -/
theorem mappages (hv : vpn va < vpn trapframeVa) {perm : Perm} (hu : perm.u = true) {b : Bool}
    (hk : k.mappages root va pa perm = .ok (b, k')) : Steady k k' := by
  obtain ⟨k₁, hwalk, ⟨rfl, rfl⟩ | ⟨rfl, -, rfl⟩⟩ := mappages_cases hk
  · exact walk hwalk
  · refine (walk hwalk).trans (setLeaf k₁ root hv ?_)
    rintro pte heq
    exact Option.some.inj heq ▸ hu

end Steady

/-- The entries of the page table below the trapframe have `PTE_U`. -/
def UserLeaves (k : Kernel σ) (root : PA) : Prop :=
  ∀ v e, v < vpn trapframeVa → k.leaves root v = some e → e.perm.u = true

theorem UserLeaves.steady (h : k.UserLeaves root) (hs : Steady k k') : k'.UserLeaves root :=
  fun v e hv he => (hs.user root v e hv he).elim (h v e hv) id

/-! ## Freeing a page table -/

/-- A loop that keeps `I` and after which `D` holds for each element of the list. -/
theorem foldlM_done {α : Type} {f : Kernel σ → α → Result (Kernel σ)} {I : Kernel σ → Prop}
    {D : α → Kernel σ → Prop}
    (hf : ∀ a k k', I k → f k a = .ok k' → I k' ∧ D a k' ∧ ∀ b, D b k → D b k') {l : List α}
    (h : I k) (hk : l.foldlM f k = .ok k') :
    I k' ∧ (∀ a ∈ l, D a k') ∧ ∀ b, D b k → D b k' := by
  induction l generalizing k with
  | nil =>
    obtain rfl := Except.ok.inj hk
    exact ⟨h, nofun, fun _ hb => hb⟩
  | cons a l ih =>
    rw [List.foldlM_cons] at hk
    obtain ⟨k₁, hk₁, hk⟩ := bind_eq_ok.1 hk
    obtain ⟨h₁, ha, hkeep₁⟩ := hf a k k₁ h hk₁
    obtain ⟨h', hl, hkeep⟩ := ih h₁ hk
    exact ⟨h', List.forall_mem_cons.2 ⟨hkeep a ha, hl⟩, fun b hb => hkeep b (hkeep₁ b hb)⟩

theorem freewalk_leaves (hk : k.freewalk root = .ok k') : k'.leaves = k.leaves :=
  freewalk_rel (r := fun k k' => k'.leaves = k.leaves) (fun _ => rfl)
    (fun _ _ _ h₁ h₂ => h₂.trans h₁) (fun _ _ _ hfree => leaves_congr (kfree_pts hfree))
    (fun _ _ hpt => leaves_setPt_of_eq hpt) hk

theorem freewalk_trampoline (hk : k.freewalk root = .ok k') : k'.trampoline = k.trampoline :=
  freewalk_rel (r := fun k k' => k'.trampoline = k.trampoline) (fun _ => rfl)
    (fun _ _ _ h₁ h₂ => h₂.trans h₁) (fun _ _ _ hfree => (Steady.kfree hfree).trampoline)
    (fun _ _ _ => rfl) hk

theorem freewalk_steady (hk : k.freewalk root = .ok k') : Steady k k' where
  space p := by rw [(freewalk_untouched hk).procs]
  trampoline := freewalk_trampoline hk
  leaves r v _ := by rw [freewalk_leaves hk]
  user r v e _ he := .inl (freewalk_leaves hk ▸ he)

end Kernel

end Xv6Swap.Paging
