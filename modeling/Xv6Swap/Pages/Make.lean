import Xv6Swap.Pages.Space

/-!
# The books of a new process

`allocproc` gives a process a trapframe and a page table that maps it, or leaves the books as they
were (`allocproc_made`). The steps of `kfork` that copy the address space keep the books
(`forkNext_moved`).
-/

namespace Xv6Swap.Paging

open Raid (Page pgSize)
open Kernel (vpn lowIdx Steady SteadyBut)

/-- The temporary page of `uvmcopy`. -/
def ForkPc.hand : ForkPc → Multiset PA
  | .reserve _ tmp | .write _ tmp _ | .unreserve _ tmp _ => {tmp}
  | _ => 0

/-- The page table gets its first page. -/
theorem Books.uvmcreate {σ : Type} {k k' : Kernel σ} {P hand : Multiset PA}
    {own : ProcIdx → Option PA} {q : ProcIdx} {root : PA} (h : Books P (k.layout own) hand)
    (hq : own q = none) (hk : k.uvmcreate = (some root, k')) :
    Books P (k'.layout (Function.update own q (some root))) hand ∧ (∀ p, own p ≠ some root) := by
  unfold Kernel.uvmcreate at hk
  split at hk
  · cases hk
  · rename_i pa k₁ hka
    obtain ⟨hpa, rfl⟩ := Prod.mk.inj hk
    obtain rfl := Option.some.inj hpa
    have hfill : Books P ((k₁.fill pa 0).layout own) (pa ::ₘ hand) := h.kalloc_fill hka 0
    have hne : ∀ p, own p ≠ some pa := hfill.root_ne_of_hand
    have htab : (((k₁.fill pa 0).setPt pa .empty).layout (Function.update own q (some pa))).tab =
        ((k₁.fill pa 0).layout own).tab := by
      funext p
      by_cases hp : p = q
      · subst hp
        simp [Kernel.layout, Kernel.setPt, hq]
      · cases hpo : own p with
        | none => simp [Kernel.layout, hp, hpo]
        | some r =>
          have hr : r ≠ pa := fun heq => hne p (heq ▸ hpo)
          simp [Kernel.layout, Kernel.setPt, hp, hpo, hr]
    have hlayout : ((k₁.fill pa 0).setPt pa .empty).layout (Function.update own q (some pa)) =
        ((k₁.fill pa 0).layout own).setRoot q (some pa) :=
      congrArg (fun tab => { ((k₁.fill pa 0).layout own).setRoot q (some pa) with tab := tab }) htab
    rw [hlayout]
    exact ⟨hfill.setRoot_some hq, hne⟩

namespace Kernel

variable {σ : Type} {S : SwapOps σ} {k k' : Kernel σ} {P hand rest : Multiset PA}
  {own : ProcIdx → Option PA} {p q cur : ProcIdx} {root pa tf : PA} {va n : ℕ}

/-- The entries that are not for user code: the trapframe and the trampoline. -/
structure TrapLeaves (k : Kernel σ) (root tf : PA) : Prop where
  trapframe : ∀ e, k.leaves root (vpn trapframeVa) = some e → e.pa = tf
  trampoline : ∀ e, k.leaves root (vpn trampolineVa) = some e → e.pa = k.trampoline

theorem SteadyBut.congr {own' : ProcIdx → Option PA} (h : SteadyBut own q k k')
    (hown : ∀ p ≠ q, own' p = own p) : SteadyBut own' q k k' :=
  ⟨h.space, h.trampoline, fun p hp r v hr hv => h.leaves p hp r v (hown p hp ▸ hr) hv,
    fun p hp r hr => h.user p hp r (hown p hp ▸ hr)⟩

theorem uvmcreate_leaves (hk : k.uvmcreate = (some root, k')) :
    k'.leaves = Function.update k.leaves root (fun _ => none) ∧ k'.procs = k.procs ∧
      k'.trampoline = k.trampoline := by
  unfold uvmcreate at hk
  split at hk
  · cases hk
  · rename_i pa k₁ hka
    obtain ⟨hpa, rfl⟩ := Prod.mk.inj hk
    obtain rfl := Option.some.inj hpa
    have hl : k₁.leaves = k.leaves := leaves_congr (kalloc_pts hka)
    have hfill : (k₁.fill pa 0).leaves = k.leaves := hl
    exact ⟨by rw [leaves_setPt, hfill]; rfl, (kalloc_untouched hka).procs,
      (Steady.kalloc hka).trampoline⟩

theorem mappages_trampoline {perm : Perm} {b : Bool}
    (hk : k.mappages root va pa perm = .ok (b, k')) : k'.trampoline = k.trampoline := by
  obtain ⟨k₁, hwalk, ⟨rfl, rfl⟩ | ⟨rfl, -, rfl⟩⟩ := mappages_cases hk
  · exact walk_trampoline hwalk
  · have ht : k₁.trampoline = k.trampoline := walk_trampoline hwalk
    exact ht

theorem mappages_leaves_ne {perm : Perm} {b : Bool}
    (hk : k.mappages root va pa perm = .ok (b, k')) : ∀ r ≠ root, k'.leaves r = k.leaves r := by
  intro r hr
  obtain ⟨-, hl⟩ | ⟨-, -, hl⟩ := mappages_leaves hk
  · rw [hl]
  · rw [hl, leaves_setLeaf, Function.update_of_ne hr]

/-- `mappages` in the page table of `q`. -/
theorem mappages_steadyBut (h : Books P (k.layout own) hand) (hq : own q = some root) {perm : Perm}
    {b : Bool} (hk : k.mappages root va pa perm = .ok (b, k')) : SteadyBut own q k k' := by
  exact leaves_steadyBut h hq (mappages_untouched hk).procs (mappages_trampoline hk)
    (mappages_leaves_ne hk)

/-- `freewalk` of a page table that is not in use yet. -/
theorem uvmfree_new (hq : own q = none)
    (h : Books P (k.layout (Function.update own q (some root))) hand)
    (hk : k.uvmfree cur root 0 = .ok k') :
    Books P (k'.layout own) hand ∧ Steady k k' := by
  have hwalk : k.freewalk root = .ok k' := hk
  have hb := h.freewalk (Function.update_self q (some root) own) hwalk
  rw [Function.update_idem, Function.update_eq_self_iff.2 hq.symm] at hb
  exact ⟨hb, freewalk_steady hwalk⟩

/-- What `proc_pagetable` does for the process `q`. -/
structure MadeTable (P : Multiset PA) (own : ProcIdx → Option PA) (hand : Multiset PA) (q : ProcIdx)
    (tf : PA) (k : Kernel σ) (r : Option PA) (k' : Kernel σ) : Prop where
  steady : SteadyBut own q k k'
  failed : r = none → Books P (k'.layout own) hand
  made : ∀ root, r = some root →
    Books P (k'.layout (Function.update own q (some root))) hand ∧ k'.TrapLeaves root tf ∧
      ∀ v < vpn trapframeVa, k'.leaves root v = none

theorem procPagetable_made (h : Books P (k.layout own) hand) (hq : own q = none) {r : Option PA}
    (hk : k.procPagetable cur tf = .ok (r, k')) : MadeTable P own hand q tf k r k' := by
  unfold procPagetable at hk
  split at hk
  · rename_i k₁ hcreate
    obtain ⟨rfl, rfl⟩ := Prod.mk.inj (Except.ok.inj hk)
    unfold uvmcreate at hcreate
    split at hcreate
    · rename_i hka
      obtain ⟨-, rfl⟩ := Prod.mk.inj hcreate
      obtain rfl := kalloc_none hka
      exact ⟨(Steady.refl _).but own q, fun _ => h, nofun⟩
    · cases hcreate
  · rename_i root k₁ hcreate
    obtain ⟨h₁, hne⟩ := h.uvmcreate hq hcreate
    obtain ⟨hl₁, hp₁, ht₁⟩ := uvmcreate_leaves hcreate
    have hroot : Function.update own q (some root) q = some root := Function.update_self ..
    have hoff : ∀ p ≠ q, own p = Function.update own q (some root) p := fun p hp =>
      (Function.update_of_ne hp _ _).symm
    have hs₁ : SteadyBut own q k k₁ := .of_leaves (fun p _ => by rw [hp₁]) ht₁ fun p _ r hr => by
      have hr' : r ≠ root := fun heq => hne p (heq ▸ hr)
      rw [hl₁, Function.update_of_ne hr']
    obtain ⟨⟨ok, k₂⟩, hmap₁, hk⟩ := bind_eq_ok.1 hk
    have h₂ := h₁.mappages_kernel hroot (by decide) (by decide) hmap₁
    have hs₂ := hs₁.trans ((mappages_steadyBut h₁ hroot hmap₁).congr hoff)
    cases ok with
    | false =>
      obtain ⟨k₃, hfree, hk⟩ := bind_eq_ok.1 hk
      obtain ⟨rfl, rfl⟩ := Prod.mk.inj (Except.ok.inj hk)
      obtain ⟨h₃, hs₃⟩ := uvmfree_new hq h₂ hfree
      exact ⟨hs₂.trans (hs₃.but own q), fun _ => h₃, nofun⟩
    | true =>
      obtain ⟨⟨ok, k₃⟩, hmap₂, hk⟩ := bind_eq_ok.1 hk
      have h₃ := h₂.mappages_kernel hroot (by decide) (by decide) hmap₂
      have hs₃ := hs₂.trans ((mappages_steadyBut h₂ hroot hmap₂).congr hoff)
      cases ok with
      | false =>
        obtain ⟨k₄, hunmap, hk⟩ := bind_eq_ok.1 hk
        obtain ⟨k₅, hfree, hk⟩ := bind_eq_ok.1 hk
        obtain ⟨rfl, rfl⟩ := Prod.mk.inj (Except.ok.inj hk)
        have h₄ := h₃.uvmunmap_kernel hroot (by decide) hunmap
        have hs₄ := hs₃.trans ((uvmunmap_steadyBut h₃ hroot hunmap).congr hoff)
        obtain ⟨h₅, hs₅⟩ := uvmfree_new hq h₄ hfree
        exact ⟨hs₄.trans (hs₅.but own q), fun _ => h₅, nofun⟩
      | true =>
        obtain ⟨rfl, rfl⟩ := Prod.mk.inj (Except.ok.inj hk)
        refine ⟨hs₃, nofun, fun root' hr => ?_⟩
        obtain rfl := Option.some.inj hr
        have hl₂ := ((mappages_leaves hmap₁).resolve_left nofun).2.2
        have hl₃ := ((mappages_leaves hmap₂).resolve_left nofun).2.2
        have hvpn : vpn trampolineVa ≠ vpn trapframeVa := by decide
        have hlt : vpn trapframeVa < vpn trampolineVa := by decide
        refine ⟨h₃, ⟨fun e he => ?_, fun e he => ?_⟩, fun v hv => ?_⟩
        · rw [hl₃, leaves_setLeaf_apply, if_pos ⟨rfl, rfl⟩] at he
          obtain rfl := Option.some.inj he
          rfl
        · rw [hl₃, leaves_setLeaf_apply, if_neg (fun hc => hvpn hc.2), hl₂, leaves_setLeaf_apply,
            if_pos ⟨rfl, rfl⟩] at he
          obtain rfl := Option.some.inj he
          rw [mappages_trampoline hmap₂, mappages_trampoline hmap₁]
        · rw [hl₃, leaves_setLeaf_apply, if_neg (fun hc => hv.ne hc.2), hl₂, leaves_setLeaf_apply,
            if_neg (fun hc => (hv.trans hlt).ne hc.2), hl₁, Function.update_self]

/-- What `allocproc` does for the process `q`. -/
structure Made (P : Multiset PA) (own : ProcIdx → Option PA) (hand : Multiset PA) (q : ProcIdx)
    (k : Kernel σ) (ok : Bool) (k' : Kernel σ) : Prop where
  steady : SteadyBut own q k k'
  fail : ok = false → Books P (k'.layout own) hand ∧ (k'.procs q).pagetable = none ∧
    (k'.procs q).trapframe = none ∧ (k'.procs q).sz = 0
  done : ok = true → ∃ root tf, Books P (k'.layout (Function.update own q (some root))) hand ∧
    (k'.procs q).pagetable = some root ∧ (k'.procs q).trapframe = some tf ∧
    (k'.procs q).sz = (k.procs q).sz ∧ k'.TrapLeaves root tf ∧
    ∀ v < vpn trapframeVa, k'.leaves root v = none

theorem freeBare_made (h : Books P (k.layout own) hand) (hk : k.freeBare q = .ok k') :
    Books P (k'.layout own) hand ∧ SteadyBut own q k k' ∧ (k'.procs q).pagetable = none ∧
      (k'.procs q).trapframe = none ∧ (k'.procs q).sz = 0 := by
  obtain ⟨k₁, hfree, hk⟩ := bind_eq_ok.1 hk
  obtain rfl := Except.ok.inj hk
  obtain ⟨h₁, hs₁, htf, -, -⟩ := freeTrapframe_moved h hfree
  have hreset : ∀ p, ((k₁.resetProc q).procs p).trapframe = (k₁.procs p).trapframe :=
    setProc_trapframe (by intro; rfl) k₁ q
  refine ⟨h₁.congr rfl hreset rfl, hs₁.trans (setProc_steadyBut own k₁ q _), ?_,
    (hreset q).trans htf, ?_⟩
  · simp [resetProc, Kernel.setProc]
  · simp [resetProc, Kernel.setProc]

/-- **The books of a new process.** -/
theorem allocproc_made (h : Books P (k.layout own) hand) (hq : own q = none)
    (htf : (k.procs q).trapframe = none) {ok : Bool} (hk : k.allocproc cur q = .ok (ok, k')) :
    Made P own hand q k ok k' := by
  unfold allocproc at hk
  -- the process is in use from now on
  have h₀ : Books P ((k.setProc q fun proc => { proc with state := .used }).layout own) hand :=
    h.congr rfl (setProc_trapframe (by intro; rfl) k q) rfl
  have hs₀ := setProc_steadyBut own k q fun proc => { proc with state := .used }
  split at hk
  · rename_i k₁ hka
    obtain ⟨k₂, hbare, hk⟩ := bind_eq_ok.1 hk
    obtain ⟨rfl, rfl⟩ := Prod.mk.inj (Except.ok.inj hk)
    obtain rfl := kalloc_none hka
    obtain ⟨hb, hs, hpt, htf', hsz⟩ := freeBare_made h₀ hbare
    exact ⟨hs₀.trans hs, fun _ => ⟨hb, hpt, htf', hsz⟩, by simp⟩
  · rename_i tf k₁ hka
    have hprocs₁ := (kalloc_untouched hka).procs
    have hs₁ := hs₀.trans ((Steady.kalloc hka).but own q)
    have htf₁ : (k₁.procs q).trapframe = none := by
      rw [hprocs₁]
      simpa [Kernel.setProc] using htf
    have h₂ : Books P ((k₁.setProc q fun proc => { proc with trapframe := some tf }).layout own)
        hand := by
      rw [layout_setTrapframe k₁ own q (some tf) (by intro; rfl)]
      exact (h₀.kalloc hka).setTrapframe_some htf₁
    have hs₂ := hs₁.trans (setProc_steadyBut own k₁ q fun proc =>
      { proc with trapframe := some tf })
    obtain ⟨⟨root, k₃⟩, hpt, hk⟩ := bind_eq_ok.1 hk
    obtain ⟨hs₃, hnone, hsome⟩ := procPagetable_made h₂ hq hpt
    cases root with
    | none =>
      obtain ⟨k₄, hbare, hk⟩ := bind_eq_ok.1 hk
      obtain ⟨rfl, rfl⟩ := Prod.mk.inj (Except.ok.inj hk)
      obtain ⟨hb, hs, hpt', htf', hsz⟩ := freeBare_made (hnone rfl) hbare
      exact ⟨(hs₂.trans hs₃).trans hs, fun _ => ⟨hb, hpt', htf', hsz⟩, by simp⟩
    | some root =>
      obtain ⟨rfl, rfl⟩ := Prod.mk.inj (Except.ok.inj hk)
      obtain ⟨hb, htrap, hfresh⟩ := hsome root rfl
      have hprocs₃ := (procPagetable_untouched hpt).procs
      refine ⟨(hs₂.trans hs₃).trans (setProc_steadyBut own k₃ q _), by simp, fun _ =>
        ⟨root, tf, hb.congr rfl (setProc_trapframe (by intro; rfl) k₃ q) rfl, ?_, ?_, ?_,
          ⟨htrap.1, htrap.2⟩, hfresh⟩⟩
      · simp [Kernel.setProc]
      · simp [Kernel.setProc, hprocs₃]
      · simp [Kernel.setProc, hprocs₃, hprocs₁]

/-! ## Copying an address space -/

/-- What the books depend on inside `kfork`. -/
def ForkOk (k : Kernel σ) (own : ProcIdx → Option PA) (q : ProcIdx) : ForkPc → Prop
  | .page _ => True
  | .lookup i | .read i _ | .reserve i _ | .write i _ _ | .unreserve i _ _ | .insert i _ | .err i =>
    UserVa (i * pgSize)
  | .undo u => k.UnmapOk own u
  | .free pc => k.FreeOk own q pc

/-- A step of `kfork` to the point `pc`. -/
structure Copied (P : Multiset PA) (own : ProcIdx → Option PA) (rest : Multiset PA) (q : ProcIdx)
    (k : Kernel σ) (pc : ForkPc) (k' : Kernel σ) : Prop where
  moved : Moved P own (pc.hand + rest) k k'
  vas : UserVas k'.tables none
  ok : k'.ForkOk own q pc

theorem copyResident_copied (h : Books P (k.layout own) rest) (hq : own q = some root)
    (hpt : (k.procs q).pagetable = some root) (hvas : UserVas k.tables none)
    (hva : UserVa (n * pgSize)) {e : Pte} (hu : e.perm.u = true) {pc : ForkPc}
    (hk : k.copyResident q n e = .ok (pc, k')) : Copied P own rest q k pc k' := by
  have htab := (copyResident_untouched hk).1.tables
  suffices hmain : Moved P own rest k k' ∧ (pc = .err n ∨ pc = .page (n + 1)) by
    obtain ⟨hm, rfl | rfl⟩ := hmain
    · exact ⟨(zero_add rest).symm ▸ hm, htab ▸ hvas, hva⟩
    · exact ⟨(zero_add rest).symm ▸ hm, htab ▸ hvas, trivial⟩
  refine ⟨?_, (copyResident_untouched hk).2⟩
  unfold copyResident at hk
  split at hk
  · rename_i hka
    obtain ⟨-, rfl⟩ := Prod.mk.inj (Except.ok.inj hk)
    obtain rfl := kalloc_none hka
    exact ⟨h, .refl _⟩
  · rename_i pa k₁ hka
    have hpt₁ : (k₁.procs q).pagetable = some root := by rw [(kalloc_untouched hka).procs, hpt]
    split at hk
    · rename_i hnone
      cases hpt₁.symm.trans hnone
    · rename_i root' hroot'
      obtain rfl := Option.some.inj (hpt₁.symm.trans hroot')
      obtain ⟨⟨ok, k₂⟩, hmap, hk⟩ := bind_eq_ok.1 hk
      have hcopy : Moved P own (pa ::ₘ rest) k
          { k₁ with mem := Function.update k₁.mem pa (k₁.mem e.pa) } :=
        Moved.trans ⟨h.kalloc hka, .kalloc hka⟩ (quiet_moved (h.kalloc hka) rfl rfl rfl rfl)
      have hm : Moved P own (if ok then rest else pa ::ₘ rest) k k₂ :=
        hcopy.trans ⟨hcopy.books.mappages hq hva hmap, .mappages hva hu hmap⟩
      cases ok with
      | false =>
        obtain ⟨k₃, hfree, hk⟩ := bind_eq_ok.1 hk
        obtain ⟨-, rfl⟩ := Prod.mk.inj (Except.ok.inj hk)
        exact hm.trans (kfree_moved hm.books hfree)
      | true =>
        obtain ⟨-, rfl⟩ := Prod.mk.inj (Except.ok.inj hk)
        exact hm

theorem copyRead_copied (h : Books P (k.layout own) rest) (hvas : UserVas k.tables none)
    (hva : UserVa (n * pgSize)) {src : SlotIdx} {pc : ForkPc}
    (hk : k.copyRead S n src = .ok (pc, k')) : Copied P own rest q k pc k' := by
  have htab := (copyRead_life hk).1
  suffices hm : Moved P own (pc.hand + rest) k k' by
    obtain ⟨-, -, rfl | ⟨tmp, rfl⟩⟩ := copyRead_life hk <;> exact ⟨hm, htab ▸ hvas, hva⟩
  unfold copyRead at hk
  split at hk
  · rename_i hka
    obtain ⟨rfl, rfl⟩ := Prod.mk.inj (Except.ok.inj hk)
    obtain rfl := kalloc_none hka
    exact ⟨(zero_add rest).symm ▸ h, .refl _⟩
  · rename_i tmp k₁ hka
    have hread : Moved P own (tmp ::ₘ rest) k (k₁.readSwap S (some src) tmp).2 :=
      Moved.trans ⟨h.kalloc hka, .kalloc hka⟩ (readSwap_moved (h.kalloc hka) _ tmp)
    dsimp only at hk
    split at hk
    · obtain ⟨k₂, hfree, hk⟩ := bind_eq_ok.1 hk
      obtain ⟨rfl, rfl⟩ := Prod.mk.inj (Except.ok.inj hk)
      exact (zero_add rest).symm ▸ hread.trans (kfree_moved hread.books hfree)
    · obtain ⟨rfl, rfl⟩ := Prod.mk.inj (Except.ok.inj hk)
      exact hread

theorem copyReserve_copied (h : Books P (k.layout own) (pa ::ₘ rest)) (hvas : UserVas k.tables none)
    (hva : UserVa (n * pgSize)) {pc : ForkPc} (hk : k.copyReserve n pa = .ok (pc, k')) :
    Copied P own rest q k pc k' := by
  unfold copyReserve at hk
  split at hk
  · obtain ⟨k₁, hfree, hk⟩ := bind_eq_ok.1 hk
    obtain ⟨rfl, rfl⟩ := Prod.mk.inj (Except.ok.inj hk)
    exact ⟨(zero_add rest).symm ▸ kfree_moved h hfree, (kfree_untouched hfree).tables ▸ hvas, hva⟩
  · rename_i dst t hreserve
    obtain ⟨rfl, rfl⟩ := Prod.mk.inj (Except.ok.inj hk)
    obtain ⟨s, -, heq⟩ := Option.map_eq_some_iff.1 hreserve
    obtain ⟨-, rfl⟩ := Prod.mk.inj heq
    exact ⟨tables_moved h _, hvas.of_entries fun _ => rfl, hva⟩

theorem copyWrite_copied (h : Books P (k.layout own) (pa ::ₘ rest)) (hvas : UserVas k.tables none)
    (hva : UserVa (n * pgSize)) {dst : SlotIdx} {pc : ForkPc}
    (hk : k.copyWrite S n pa dst = .ok (pc, k')) : Copied P own rest q k pc k' := by
  have htab := (copyWrite_life hk).1
  unfold copyWrite at hk
  dsimp only at hk
  split at hk
  · obtain ⟨rfl, rfl⟩ := Prod.mk.inj (Except.ok.inj hk)
    exact ⟨quiet_moved h rfl rfl rfl rfl, hvas, hva⟩
  · obtain ⟨k₁, hfree, hk⟩ := bind_eq_ok.1 hk
    obtain ⟨rfl, rfl⟩ := Prod.mk.inj (Except.ok.inj hk)
    have hm : Moved P own (pa ::ₘ rest) k { k with swap := (S.write dst (k.mem pa) k.swap).2 } :=
      quiet_moved h rfl rfl rfl rfl
    exact ⟨(zero_add rest).symm ▸ hm.trans (kfree_moved hm.books hfree), htab ▸ hvas, hva⟩

theorem copyPage_copied (h : Books P (k.layout own) rest) (hq : own q = some root)
    (hpt : (k.procs q).pagetable = some root) (hvas : UserVas k.tables none)
    (hp : ∀ r, (k.procs p).pagetable = some r → k.UserLeaves r)
    (hsz : (k.procs p).sz ≤ trapframeVa) {next : Next ForkPc Bool}
    (hk : k.copyPage p q n = .ok (next, k')) :
    (∃ pc, next = .go pc ∧ Copied P own rest q k pc k') ∨
      next = .ret true ∧ k' = k.forkDone p q := by
  unfold copyPage at hk
  split at hk
  · obtain ⟨rfl, rfl⟩ := Prod.mk.inj (Except.ok.inj hk)
    exact .inr ⟨rfl, rfl⟩
  · rename_i hle
    have hva : UserVa (n * pgSize) := userVa_of_lt ((not_le.1 hle).trans_le hsz)
    split at hk
    · obtain ⟨rfl, rfl⟩ := Prod.mk.inj (Except.ok.inj hk)
      exact .inl ⟨_, rfl, ⟨(zero_add rest).symm ▸ h, .refl k⟩, hvas, hva⟩
    · rename_i e he
      obtain ⟨⟨pc, k₁⟩, hcopy, hk⟩ := bind_eq_ok.1 hk
      obtain ⟨rfl, rfl⟩ := Prod.mk.inj (Except.ok.inj hk)
      obtain ⟨r, hr, he⟩ := Option.bind_eq_some_iff.1 he
      -- the copy has the permissions of the parent's page
      have hu := hp r hr _ e hva (leaves_of_pteAt he).1
      exact .inl ⟨pc, rfl, copyResident_copied h hq hpt hvas hva hu hcopy⟩

theorem forkUnmapped_ok (hpt : own q = (k.procs q).pagetable) {next : Next Unmapping Unit}
    (hgo : ∀ u, next = .go u → k.UnmapOk own u) : k.ForkOk own q (forkUnmapped next) := by
  cases next with
  | go u => exact hgo u rfl
  | ret r => exact hpt

theorem forkUnmapped_hand (next : Next Unmapping Unit) : (forkUnmapped next).hand = 0 := by
  cases next <;> rfl

theorem copyErr_copied (h : Books P (k.layout own) rest) (hq : own q = some root)
    (hpt : (k.procs q).pagetable = some root) (hvas : UserVas k.tables none)
    (hva : UserVa (n * pgSize)) : Copied P own rest q k (k.copyErr p q n) k := by
  have heq : k.copyErr p q n = forkUnmapped (k.unmapStart p root 0 n) := by
    simp only [copyErr, hpt]
  rw [heq]
  refine ⟨?_, hvas, forkUnmapped_ok (hq.trans hpt.symm) fun u hu => ?_⟩
  · rw [forkUnmapped_hand]
    exact ⟨(zero_add rest).symm ▸ h, .refl k⟩
  · refine (unmapRound_ok ⟨q, hq⟩ (fun m hm => hva.mono ?_) hu).1
    rw [hm, Nat.succ_mul, zero_add]
    exact Nat.le_add_right _ _

theorem copyLookup_copied (h : Books P (k.layout own) rest) (hvas : UserVas k.tables none)
    (hva : UserVa (n * pgSize)) : Copied P own rest q k (k.copyLookup p n) k := by
  have hm : Moved P own (0 + rest) k k := ⟨(zero_add rest).symm ▸ h, .refl k⟩
  unfold copyLookup
  split
  · exact ⟨hm, hvas, hva⟩
  · exact ⟨hm, hvas, trivial⟩

theorem copyInsert_copied (h : Books P (k.layout own) rest) (hvas : UserVas k.tables none)
    (hva : UserVa (n * pgSize)) {dst : SlotIdx} {next : Next ForkPc Bool}
    (hk : k.copyInsert q n dst = (next, k')) :
    ∃ pc, next = .go pc ∧ Copied P own rest q k pc k' := by
  unfold copyInsert at hk
  cases hins : k.tables.insertSwap q (n * pgSize) dst with
  | mk b t =>
    simp only [hins] at hk
    have hm : Moved P own rest k { k with tables := t } := tables_moved h t
    rcases insertSwap_eq hins with ⟨j, -, rfl, rfl⟩ | ⟨rfl, rfl⟩
    · obtain ⟨rfl, rfl⟩ := Prod.mk.inj hk
      exact ⟨_, rfl, (zero_add rest).symm ▸ hm, hvas.of_entries fun _ => rfl, trivial⟩
    · obtain ⟨rfl, rfl⟩ := Prod.mk.inj hk
      exact ⟨_, rfl, (zero_add rest).symm ▸ hm, hvas.of_entries fun _ => rfl, hva⟩

/-- **The books while an address space is copied.** The steps of `freeproc` after a failure are
those of `freeNext_freed`. -/
theorem forkNext_copied {pc : ForkPc} (h : Books P (k.layout own) (pc.hand + rest))
    (hok : k.ForkOk own q pc) (hvas : UserVas k.tables none) (hq : own q = some root)
    (hpt : (k.procs q).pagetable = some root)
    (hp : ∀ r, (k.procs p).pagetable = some r → k.UserLeaves r)
    (hsz : (k.procs p).sz ≤ trapframeVa) (hfree : ∀ pc', pc ≠ .free pc') {next : Next ForkPc Bool}
    (hk : k.forkNext S p q pc = .ok (next, k')) :
    (∃ pc', next = .go pc' ∧ Copied P own rest q k pc' k') ∨
      next = .ret true ∧ k' = k.forkDone p q := by
  cases pc with
  | page i => exact copyPage_copied (zero_add rest ▸ h) hq hpt hvas hp hsz hk
  | lookup i =>
    have hcopied := copyLookup_copied (p := p) (q := q) (n := i) (zero_add rest ▸ h) hvas hok
    simp only [forkNext] at hk
    generalize k.copyLookup p i = pc' at hcopied hk
    obtain ⟨rfl, rfl⟩ := Prod.mk.inj (Except.ok.inj hk)
    exact .inl ⟨pc', rfl, hcopied⟩
  | read i src =>
    obtain ⟨⟨pc', k₁⟩, hread, hk⟩ := bind_eq_ok.1 hk
    obtain ⟨rfl, rfl⟩ := Prod.mk.inj (Except.ok.inj hk)
    exact .inl ⟨pc', rfl, copyRead_copied (zero_add rest ▸ h) hvas hok hread⟩
  | reserve i tmp =>
    obtain ⟨⟨pc', k₁⟩, hreserve, hk⟩ := bind_eq_ok.1 hk
    obtain ⟨rfl, rfl⟩ := Prod.mk.inj (Except.ok.inj hk)
    exact .inl ⟨pc', rfl, copyReserve_copied h hvas hok hreserve⟩
  | write i tmp dst =>
    obtain ⟨⟨pc', k₁⟩, hwrite, hk⟩ := bind_eq_ok.1 hk
    obtain ⟨rfl, rfl⟩ := Prod.mk.inj (Except.ok.inj hk)
    exact .inl ⟨pc', rfl, copyWrite_copied h hvas hok hwrite⟩
  | unreserve i tmp dst =>
    obtain ⟨k₁, hkfree, hk⟩ := bind_eq_ok.1 hk
    obtain ⟨rfl, rfl⟩ := Prod.mk.inj (Except.ok.inj hk)
    have hm := tables_moved h (k.tables.setSwapUsed dst false)
    refine .inl ⟨_, rfl, (zero_add rest).symm ▸ hm.trans (kfree_moved hm.books hkfree), ?_, hok⟩
    rw [(kfree_untouched hkfree).tables]
    exact hvas.of_entries fun _ => rfl
  | insert i dst =>
    exact .inl (copyInsert_copied (zero_add rest ▸ h) hvas hok (Except.ok.inj hk))
  | err i =>
    obtain ⟨rfl, rfl⟩ := Prod.mk.inj (Except.ok.inj hk)
    exact .inl ⟨_, rfl, copyErr_copied (zero_add rest ▸ h) hq hpt hvas hok⟩
  | undo u =>
    obtain ⟨⟨next', k₁⟩, hunmap, hk⟩ := bind_eq_ok.1 hk
    obtain ⟨rfl, rfl⟩ := Prod.mk.inj (Except.ok.inj hk)
    obtain ⟨hm, hvas', hgo⟩ := unmapNext_moved (zero_add rest ▸ h) hok hvas hunmap
    refine .inl ⟨_, rfl, ?_, hvas', forkUnmapped_ok ?_ fun u' hu' => (hgo u' hu').1⟩
    · rw [forkUnmapped_hand]
      exact (zero_add rest).symm ▸ hm
    · rw [hm.steady.pagetable, hpt, hq]
  | free pc' => exact absurd rfl (hfree pc')

end Kernel

end Xv6Swap.Paging
