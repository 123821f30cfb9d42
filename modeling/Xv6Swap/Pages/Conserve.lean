import Xv6Swap.Pages.Make
import Xv6Swap.Threads.Life

/-!
# Conservation of pages

Runs of the kernel in which each operation is executed to completion (`Alone`), from the state that
`kinit` and `userinit` leave. `PagesInv` is their invariant: the books balance, where the page that
the running operation has in a local variable is in hand. When no operation is running, every page
that `kinit` freed has exactly one role, and no free page can be reached from a page table
(`pages_conserved`).
-/

namespace Xv6Swap.Paging

open Raid (Page pgSize)
open Interleave (System Cfg)
open Kernel (vpn Steady SteadyBut)

/-! ## Points of the kernel -/

/-- The page that a process has in hand. -/
def Pc.hand : Pc → Multiset PA
  | .fault _ f => f.hand
  | .fork _ pc => pc.hand
  | .user | .grow _ | .reap _ _ => 0

/-- The process that is being freed. -/
def Pc.dying : Pc → Option ProcIdx
  | .fork q (.free _) | .reap q _ => some q
  | _ => none

/-- What the books depend on. -/
def Pc.PagesOk {σ : Type} (k : Kernel σ) (own : ProcIdx → Option PA) : Pc → Prop
  | .user => UserVas k.tables none
  | .fault va f => k.FaultOk own va f
  | .grow pc => k.GrowOk own pc ∧ UserVas k.tables none
  | .fork q pc => k.ForkOk own q pc ∧ UserVas k.tables none
  | .reap q pc => k.FreeOk own q pc ∧ UserVas k.tables none

/-! ## Spaces -/

/-- The processes have the page tables `own`, each with its trapframe and with the pages below for
user code, except for the process `x` that is being freed. -/
structure Spaces {σ : Type} (P : Multiset PA) (k : Kernel σ) (own : ProcIdx → Option PA)
    (x : Option ProcIdx) : Prop where
  sizes : ∀ p, (k.procs p).sz ≤ trapframeVa
  sync : ∀ p, x ≠ some p → own p = (k.procs p).pagetable
  traps : ∀ p, x ≠ some p → ∀ root, own p = some root →
    ∃ tf, (k.procs p).trapframe = some tf ∧ k.TrapLeaves root tf
  user : ∀ p, x ≠ some p → ∀ root, own p = some root → k.UserLeaves root
  bare : ∀ p, (k.procs p).state = .unused →
    (k.procs p).pagetable = none ∧ (k.procs p).trapframe = none
  trampoline : k.trampoline ∉ P

namespace Spaces

variable {σ : Type} {P : Multiset PA} {k k' : Kernel σ} {own own' : ProcIdx → Option PA}
  {x x' : Option ProcIdx} {p q : ProcIdx}

/-- A process is going to be freed. -/
theorem free (h : Spaces P k own none) (q : ProcIdx) : Spaces P k own (some q) :=
  ⟨h.sizes, fun p _ => h.sync p nofun, fun p _ => h.traps p nofun, fun p _ => h.user p nofun,
    h.bare, h.trampoline⟩

theorem trapLeaves_congr {root tf : PA} (h : k.TrapLeaves root tf)
    (htrampoline : k'.trampoline = k.trampoline)
    (hleaves : ∀ v, vpn trapframeVa ≤ v → k'.leaves root v = k.leaves root v) :
    k'.TrapLeaves root tf where
  trapframe e he := h.trapframe e (hleaves _ le_rfl ▸ he)
  trampoline e he := by
    rw [htrampoline]
    exact h.trampoline e (hleaves (vpn trampolineVa) (by decide) ▸ he)

/-- Steps that concern the process `q` only. -/
theorem change (h : Spaces P k own x) (hx : ∀ p ≠ q, x ≠ some p) (hs : SteadyBut own q k k')
    (hown : ∀ p ≠ q, own' p = own p) (hsz : (k'.procs q).sz ≤ trapframeVa)
    (hbare : (k'.procs q).state = .unused →
      (k'.procs q).pagetable = none ∧ (k'.procs q).trapframe = none)
    (hx' : x' = some q ∨ x' = none ∧ own' q = (k'.procs q).pagetable ∧
      ∀ root, own' q = some root → k'.UserLeaves root ∧
        ∃ tf, (k'.procs q).trapframe = some tf ∧ k'.TrapLeaves root tf) :
    Spaces P k' own' x' := by
  have hpt : ∀ p ≠ q, (k'.procs p).pagetable = (k.procs p).pagetable := fun p hp =>
    congrArg (·.2.1) (hs.space p hp)
  have htf : ∀ p ≠ q, (k'.procs p).trapframe = (k.procs p).trapframe := fun p hp =>
    congrArg (·.2.2.1) (hs.space p hp)
  have hself : ∀ p, p = q → x' ≠ some p → own' p = (k'.procs p).pagetable ∧
      ∀ root, own' p = some root → k'.UserLeaves root ∧
        ∃ tf, (k'.procs p).trapframe = some tf ∧ k'.TrapLeaves root tf := by
    rintro p rfl hne
    exact (hx'.resolve_left hne).2
  refine ⟨fun p => ?_, fun p hp => ?_, fun p hp root hroot => ?_, fun p hp root hroot => ?_,
    fun p hp => ?_, ?_⟩
  · by_cases hpq : p = q
    · exact hpq ▸ hsz
    · exact (congrArg (·.2.2.2) (hs.space p hpq)).trans_le (h.sizes p)
  · by_cases hpq : p = q
    · exact (hself p hpq hp).1
    · rw [hown p hpq, hpt p hpq, h.sync p (hx p hpq)]
  · by_cases hpq : p = q
    · exact ((hself p hpq hp).2 root hroot).2
    · rw [hown p hpq] at hroot
      obtain ⟨tf, htf', htrap⟩ := h.traps p (hx p hpq) root hroot
      exact ⟨tf, (htf p hpq).trans htf',
        trapLeaves_congr htrap hs.trampoline fun v hv => hs.leaves p hpq root v hroot hv⟩
  · by_cases hpq : p = q
    · exact ((hself p hpq hp).2 root hroot).1
    · rw [hown p hpq] at hroot
      exact hs.user p hpq root hroot (h.user p (hx p hpq) root hroot)
  · by_cases hpq : p = q
    · subst hpq
      exact hbare hp
    · rw [hpt p hpq, htf p hpq]
      exact h.bare p ((congrArg (·.1) (hs.space p hpq)).symm.trans hp)
  · rw [hs.trampoline]
    exact h.trampoline

/-- Steps that leave the spaces of the processes alone. -/
theorem steady (h : Spaces P k own x) (hs : Steady k k') : Spaces P k' own x where
  sizes p := (hs.sz p).trans_le (h.sizes p)
  sync p hp := (h.sync p hp).trans (hs.pagetable p).symm
  traps p hp root hroot := by
    obtain ⟨tf, htf, htrap⟩ := h.traps p hp root hroot
    exact ⟨tf, (hs.trapframe p).trans htf,
      trapLeaves_congr htrap hs.trampoline fun v hv => hs.leaves root v hv⟩
  user p hp root hroot := (h.user p hp root hroot).steady hs
  bare p hp := by
    rw [hs.pagetable, hs.trapframe]
    exact h.bare p ((hs.state p).symm.trans hp)
  trampoline := hs.trampoline ▸ h.trampoline

/-- The process `q` gets another size and state. -/
theorem resize (h : Spaces P k own none) {f : Proc → Proc}
    (hf : ∀ proc, (f proc).pagetable = proc.pagetable ∧ (f proc).trapframe = proc.trapframe)
    (hsz : (f (k.procs q)).sz ≤ trapframeVa)
    (hstate : (f (k.procs q)).state = .unused → (k.procs q).state = .unused) :
    Spaces P (k.setProc q f) own none := by
  have hq : (k.setProc q f).procs q = f (k.procs q) := by simp [Kernel.setProc]
  refine h.change (by simp) (Kernel.setProc_steadyBut own k q f) (fun _ _ => rfl) ?_ ?_
    (.inr ⟨rfl, ?_, ?_⟩)
  · rwa [hq]
  · rw [hq, (hf _).1, (hf _).2]
    exact fun hun => h.bare q (hstate hun)
  · rw [hq, (hf _).1]
    exact h.sync q (by simp)
  · rw [hq, (hf _).2]
    intro root hroot
    obtain ⟨tf, htf, htrap⟩ := h.traps q (by simp) root hroot
    exact ⟨h.user q (by simp) root hroot, tf, htf, trapLeaves_congr htrap rfl fun _ _ => rfl⟩

theorem own_eq (h : Spaces P k own none) (p : ProcIdx) (root : PA)
    (hroot : (k.procs p).pagetable = some root) : own p = some root :=
  (h.sync p nofun).trans hroot

end Spaces

/-! ## Steps -/

/-- The books of the kernel while a process is at the point `l` and no other inside the kernel. -/
structure Held {σ : Type} (P : Multiset PA) (k : Kernel σ) (own : ProcIdx → Option PA) (l : Pc) :
    Prop where
  books : Books P (k.layout own) l.hand
  spaces : Spaces P k own l.dying
  ok : l.PagesOk k own

namespace Held

variable {σ : Type} {S : SwapOps σ} {P : Multiset PA} {g g' : Shared σ} {k k' : Kernel σ}
  {own : ProcIdx → Option PA} {p q : ProcIdx} {l l' : Pc} {a : Act}

/-- A process gets another size and state. -/
theorem setProc (h : Held P k own .user) (p : ProcIdx) {f : Proc → Proc}
    (hf : ∀ proc, (f proc).pagetable = proc.pagetable ∧ (f proc).trapframe = proc.trapframe)
    (hsz : (f (k.procs p)).sz ≤ trapframeVa)
    (hstate : (f (k.procs p)).state = .unused → (k.procs p).state = .unused) :
    Held P (k.setProc p f) own .user :=
  ⟨h.books.congr rfl (Kernel.setProc_trapframe (fun proc => (hf proc).2) k p) rfl,
    h.spaces.resize hf hsz hstate, h.ok⟩

theorem setSize (h : Held P k own .user) (g : Shared σ) (p : ProcIdx) {sz : Option ℕ}
    (hsz : ∀ x, sz = some x → x ≤ trapframeVa) : Held P (g.setSize p sz k).kern own .user := by
  cases sz with
  | none => exact h
  | some x =>
    exact h.setProc (f := fun proc => { proc with sz := x }) p (fun _ => ⟨rfl, rfl⟩) (hsz x rfl) id

theorem sbrk_lazy (h : Held P k own .user) {n : ℤ} {r : Option ℕ} (hn : ¬ n < 0)
    (hk : k.sysSbrk p n false = .ok (r, k')) : Held P k' own .user := by
  simp only [Kernel.sysSbrk, Bool.false_or, decide_eq_true_eq, if_neg hn] at hk
  split at hk
  · obtain ⟨-, rfl⟩ := Prod.mk.inj (Except.ok.inj hk)
    exact h
  · split at hk
    · obtain ⟨-, rfl⟩ := Prod.mk.inj (Except.ok.inj hk)
      exact h
    · rename_i hle
      obtain ⟨-, rfl⟩ := Prod.mk.inj (Except.ok.inj hk)
      exact h.setProc (f := fun proc => { proc with sz := Kernel.addSize (k.procs p).sz n }) p
        (fun _ => ⟨rfl, rfl⟩) (not_lt.1 hle) id

theorem sbrk (h : Held P g.kern own .user) {n : Int32} {eager : Bool}
    (hn : g.userSbrk p n eager = some (l', g')) : Held P g'.kern own l' := by
  unfold Shared.userSbrk at hn
  split at hn
  · have hstart : g.kern.GrowNextOk own (g.kern.growStart p n.toInt) :=
      Kernel.growStart_ok h.spaces.own_eq (h.spaces.sizes p) n.toInt
    rcases Shared.proceed_eq_some hn with ⟨pc, k, hr, rfl, rfl⟩ | ⟨sz, k, hr, rfl, rfl⟩
    · obtain ⟨heq, rfl⟩ := Prod.mk.inj (Except.ok.inj hr)
      rw [heq] at hstart
      exact ⟨h.books, h.spaces, hstart, h.ok⟩
    · obtain ⟨heq, rfl⟩ := Prod.mk.inj (Except.ok.inj hr)
      rw [heq] at hstart
      exact h.setSize g p hstart
  · rename_i hneg
    split at hn
    · cases hn
    · rename_i hsbrk
      obtain ⟨rfl, rfl⟩ := Prod.mk.inj (Option.some.inj hn)
      exact h.sbrk_lazy (fun hlt => hneg (.inr hlt)) hsbrk

/-- `fork`: the process `q` was not in use. -/
theorem fork (h : Held P g.kern own .user) (hq : (g.kern.procs q).state = .unused)
    (hn : g.userFork p q = some (l', g'))
    (hstate : l'.target = some q → (g'.kern.procs q).state ≠ .unused) :
    ∃ own', Held P g'.kern own' l' := by
  obtain ⟨hpt, htf⟩ := h.spaces.bare q hq
  have hown : own q = none := (h.spaces.sync q nofun).trans hpt
  unfold Shared.userFork at hn
  split at hn
  · cases hn
  · rename_i k halloc
    obtain ⟨rfl, rfl⟩ := Prod.mk.inj (Option.some.inj hn)
    obtain ⟨hs, hfail, -⟩ := Kernel.allocproc_made h.books hown htf halloc
    obtain ⟨hb, hpt', htf', hsz⟩ := hfail rfl
    refine ⟨own, hb, h.spaces.change (fun _ _ => nofun) hs (fun _ _ => rfl) (by simp [hsz])
      (fun _ => ⟨hpt', htf'⟩) (.inr ⟨rfl, hown.trans hpt'.symm, ?_⟩), ?_⟩
    · intro root hroot
      cases hown.symm.trans hroot
    · change UserVas k.tables none
      rw [(Kernel.allocproc_life halloc).1]
      exact h.ok
  · rename_i k halloc
    obtain ⟨rfl, rfl⟩ := Prod.mk.inj (Option.some.inj hn)
    obtain ⟨hs, -, hdone⟩ := Kernel.allocproc_made h.books hown htf halloc
    obtain ⟨root, tf, hb, hpt', htf', hsz, htrap, hempty⟩ := hdone rfl
    have hself : Function.update own q (some root) q = some root := Function.update_self ..
    refine ⟨Function.update own q (some root), hb,
      h.spaces.change (fun _ _ => nofun) hs (fun p hp => Function.update_of_ne hp _ _)
        (hsz.trans_le (h.spaces.sizes q)) (fun hun => absurd hun (hstate rfl))
        (.inr ⟨rfl, hself.trans hpt'.symm, ?_⟩), trivial, ?_⟩
    · intro root' hroot'
      obtain rfl := Option.some.inj (hself.symm.trans hroot')
      refine ⟨fun v e hv he => ?_, tf, htf', htrap⟩
      cases (hempty v hv).symm.trans he
    · change UserVas k.tables none
      rw [(Kernel.allocproc_life halloc).1]
      exact h.ok

theorem user (h : Held P g.kern own .user) (hn : g.userNext p a = some (l', g'))
    (hstate : ∀ q, l'.target = some q → (g'.kern.procs q).state ≠ .unused) :
    ∃ own', Held P g'.kern own' l' := by
  cases a with
  | go => cases hn
  | fault va =>
    obtain ⟨rfl, rfl⟩ := Prod.mk.inj (Option.some.inj hn)
    exact ⟨own, h.books, h.spaces, h.ok, nofun, .inl rfl⟩
  | store va b =>
    obtain ⟨g₁, hstore, hn⟩ := Option.map_eq_some_iff.1 hn
    obtain ⟨rfl, rfl⟩ := Prod.mk.inj hn
    obtain ⟨pa, -, rfl⟩ := Option.map_eq_some_iff.1 hstore
    have hm : Moved P own 0 g.kern (g.kern.setByte pa (pageOffset va) b) :=
      Kernel.quiet_moved h.books rfl rfl rfl rfl
    exact ⟨own, hm.books, h.spaces.steady hm.steady, h.ok⟩
  | sbrk n eager => exact ⟨own, h.sbrk hn⟩
  | fork q =>
    obtain ⟨⟨hq, -⟩, hn⟩ := Option.ite_none_right_eq_some.1 hn
    exact h.fork hq hn (hstate q)
  | exit status =>
    obtain ⟨rfl, rfl⟩ := Prod.mk.inj (Option.some.inj hn)
    exact ⟨own, h.setProc (f := fun proc => { proc with xstate := status, state := .zombie }) p
      (fun _ => ⟨rfl, rfl⟩) (h.spaces.sizes p) nofun⟩
  | wait q =>
    obtain ⟨-, hn⟩ := Option.ite_none_right_eq_some.1 hn
    obtain ⟨rfl, rfl⟩ := Prod.mk.inj (Option.some.inj hn)
    exact ⟨own, h.books, h.spaces.free q, h.spaces.sync q nofun, h.ok⟩

theorem fault {va : ℕ} {f : FaultPc} (h : Held P g.kern own (.fault va f))
    (hp : (g.kern.procs p).pagetable ≠ none)
    (hn : g.kernelNext S p (.fault va f) = some (l', g')) : Held P g'.kern own l' := by
  have hbooks : Books P (g.kern.layout own) (f.hand + 0) := (add_zero f.hand).symm ▸ h.books
  rcases Shared.proceed_eq_some hn with ⟨f', k, hr, rfl, rfl⟩ | ⟨r, k, hr, rfl, rfl⟩
  · obtain ⟨hm, -, hgo⟩ := Kernel.faultNext_moved hbooks h.ok h.spaces.own_eq
      (fun q => h.spaces.user q nofun) hp (h.spaces.sizes p) hr
    have hb : Books P (k.layout own) f'.hand := by
      simpa only [Next.getD, add_zero] using hm.books
    exact ⟨hb, h.spaces.steady hm.steady, hgo f' rfl⟩
  · obtain ⟨hm, hvas, -⟩ := Kernel.faultNext_moved hbooks h.ok h.spaces.own_eq
      (fun q => h.spaces.user q nofun) hp (h.spaces.sizes p) hr
    exact ⟨hm.books, h.spaces.steady hm.steady, hvas⟩

theorem grow {pc : GrowPc} (h : Held P g.kern own (.grow pc))
    (hn : g.kernelNext S p (.grow pc) = some (l', g')) : Held P g'.kern own l' := by
  rcases Shared.proceed_eq_some hn with ⟨pc', k, hr, rfl, rfl⟩ | ⟨sz, k, hr, rfl, rfl⟩
  · obtain ⟨hm, hvas, hnext⟩ := Kernel.growNext_moved h.books h.ok.1 h.ok.2 hr
    exact ⟨hm.books, h.spaces.steady hm.steady, hnext, hvas⟩
  · obtain ⟨hm, hvas, hnext⟩ := Kernel.growNext_moved h.books h.ok.1 h.ok.2 hr
    have huser : Held P k own .user := ⟨hm.books, h.spaces.steady hm.steady, hvas⟩
    exact huser.setSize g p hnext

/-- A step of `freeproc` that goes on. -/
theorem free_go {own' : ProcIdx → Option PA} {pc : FreePc} (hs : Spaces P k own (some q))
    (hf : Kernel.FreedStep P own 0 q k (.go pc) k' own') (hstate : (k'.procs q).state ≠ .unused) :
    Books P (k'.layout own') 0 ∧ Spaces P k' own' (some q) ∧ k'.FreeOk own' q pc ∧
      UserVas k'.tables none := by
  refine ⟨hf.books, ?_, hf.go pc rfl, hf.vas⟩
  exact hs.change (fun p hp heq => hp (Option.some.inj heq).symm) hf.steady hf.roots
    (hf.sz.trans (hs.sizes q)) (fun hun => absurd hun hstate) (.inl rfl)

/-- The last step of `freeproc`. -/
theorem free_ret {own' : ProcIdx → Option PA} (hs : Spaces P k own (some q))
    (hf : Kernel.FreedStep P own 0 q k (.ret ()) k' own') : Held P k' own' .user := by
  obtain ⟨hown, htf, rfl⟩ := hf.ret rfl
  have hpt : ((k.resetProc q).procs q).pagetable = none := by
    simp [Kernel.resetProc, Kernel.setProc]
  refine ⟨hf.books, hs.change (fun p hp heq => hp (Option.some.inj heq).symm) hf.steady hf.roots
    (hf.sz.trans (hs.sizes q)) (fun _ => ⟨hpt, htf⟩) (.inr ⟨rfl, hown.trans hpt.symm, ?_⟩), hf.vas⟩
  intro root hroot
  cases hown.symm.trans hroot

theorem reap {pc : FreePc} (h : Held P g.kern own (.reap q pc))
    (hn : g.kernelNext S p (.reap q pc) = some (l', g'))
    (hstate : l'.target = some q → (g'.kern.procs q).state ≠ .unused) :
    ∃ own', Held P g'.kern own' l' := by
  rcases Shared.proceed_eq_some hn with ⟨pc', k, hr, rfl, rfl⟩ | ⟨r, k, hr, rfl, rfl⟩
  · obtain ⟨own', hf⟩ := Kernel.freeNext_freed h.books h.ok.1 h.ok.2 (h.spaces.sizes q) hr
    obtain ⟨hb, hs, hok, hvas⟩ := free_go h.spaces hf (hstate rfl)
    exact ⟨own', hb, hs, hok, hvas⟩
  · obtain ⟨own', hf⟩ := Kernel.freeNext_freed h.books h.ok.1 h.ok.2 (h.spaces.sizes q) hr
    exact ⟨own', free_ret h.spaces hf⟩

theorem fork_free {pc : FreePc} (h : Held P g.kern own (.fork q (.free pc)))
    (hn : g.kernelNext S p (.fork q (.free pc)) = some (l', g'))
    (hstate : l'.target = some q → (g'.kern.procs q).state ≠ .unused) :
    ∃ own', Held P g'.kern own' l' := by
  have hfreed : ∀ next k', g.kern.freeNext p q pc = .ok (next, k') →
      ∃ own', Kernel.FreedStep P own 0 q g.kern next k' own' := fun _ _ hr =>
    Kernel.freeNext_freed h.books h.ok.1 h.ok.2 (h.spaces.sizes q) hr
  rcases Shared.proceed_eq_some hn with ⟨pc', k, hr, rfl, rfl⟩ | ⟨r, k, hr, rfl, rfl⟩
  · obtain ⟨⟨next, k₁⟩, hfree, hr⟩ := bind_eq_ok.1 hr
    cases next with
    | go pc'' =>
      obtain ⟨hpc, rfl⟩ := Prod.mk.inj (Except.ok.inj hr)
      obtain rfl := Next.go.inj hpc
      obtain ⟨own', hf⟩ := hfreed _ _ hfree
      obtain ⟨hb, hs, hok, hvas⟩ := free_go h.spaces hf (hstate rfl)
      exact ⟨own', hb, hs, hok, hvas⟩
    | ret r => cases (Prod.mk.inj (Except.ok.inj hr)).1
  · obtain ⟨⟨next, k₁⟩, hfree, hr⟩ := bind_eq_ok.1 hr
    cases next with
    | go pc'' => cases (Prod.mk.inj (Except.ok.inj hr)).1
    | ret r =>
      obtain ⟨-, rfl⟩ := Prod.mk.inj (Except.ok.inj hr)
      obtain ⟨own', hf⟩ := hfreed _ _ hfree
      exact ⟨own', free_ret h.spaces hf⟩

theorem fork_copy {pc : ForkPc} (h : Held P g.kern own (.fork q pc)) (hpc : ∀ pc', pc ≠ .free pc')
    (hq : (g.kern.procs q).pagetable ≠ none)
    (hn : g.kernelNext S p (.fork q pc) = some (l', g')) : Held P g'.kern own l' := by
  obtain ⟨root, hroot⟩ := Option.ne_none_iff_exists'.1 hq
  have hbooks : Books P (g.kern.layout own) (pc.hand + 0) := (add_zero pc.hand).symm ▸ h.books
  have hnone : (Pc.fork q pc).dying = none := by
    cases pc with
    | free pc' => exact absurd rfl (hpc pc')
    | _ => rfl
  have hs : Spaces P g.kern own none := hnone ▸ h.spaces
  have hcopied : ∀ next k', g.kern.forkNext S p q pc = .ok (next, k') → _ := fun _ _ hr =>
    Kernel.forkNext_copied hbooks h.ok.1 h.ok.2 (hs.own_eq q root hroot) hroot
      (fun r hr => hs.user p nofun r (hs.own_eq p r hr)) (hs.sizes p) hpc hr
  rcases Shared.proceed_eq_some hn with ⟨pc', k, hr, rfl, rfl⟩ | ⟨r, k, hr, rfl, rfl⟩
  · obtain ⟨pc'', hgo, hc⟩ | ⟨hret, -⟩ := hcopied _ _ hr
    · obtain rfl := Next.go.inj hgo
      have hb : Books P (k.layout own) pc'.hand := by
        simpa only [add_zero] using hc.moved.books
      refine ⟨hb, ?_, hc.ok, hc.vas⟩
      have hs' := hs.steady hc.moved.steady
      cases pc' with
      | free pc => exact hs'.free q
      | _ => exact hs'
    · cases hret
  · -- only the end of the loop returns here
    rcases Kernel.forkNext_life hr with ⟨⟨_, hgo⟩, -⟩ | ⟨⟨i, rfl⟩, -, rfl⟩ | ⟨rfl, -, -⟩
    · cases hgo
    · have huser : Held P g.kern own .user := ⟨h.books, hs, h.ok.2⟩
      exact huser.setProc (f := fun proc =>
        { proc with sz := (g.kern.procs p).sz, state := .runnable }) q (fun _ => ⟨rfl, rfl⟩)
        (hs.sizes p) nofun
    · exact absurd rfl (hpc .reset)

/-- **The books over a step.** -/
theorem next {c : Cfg ProcIdx Pc (Shared σ)} (h : Held P c.mem.kern own (c.loc p))
    (hlife : LifeOk c)
    (hn : (procSystem S).next p a (c.loc p) c.mem = some (l', g')) :
    ∃ own', Held P g'.kern own' l' := by
  have hlife' := hlife.next hn
  have hstate : ∀ q, l'.target = some q → (g'.kern.procs q).state ≠ .unused := fun q hq =>
    (hlife'.target p q (by simpa only [Function.update_self] using hq)).2.2
  have htable : ∀ q, (c.loc p).target = some q → (c.mem.kern.procs q).pagetable ≠ none :=
    fun q hq => Option.isSome_iff_ne_none.1 (hlife.table q (hlife.target p q hq).2.2)
  rcases procSystem_next hn with ⟨hl, -, hn⟩ | ⟨hl, -, hn⟩
  · rw [hl] at h
    exact h.user hn hstate
  · have hp : (c.mem.kern.procs p).pagetable ≠ none := by
      refine Option.isSome_iff_ne_none.1 (hlife.table p fun hun => ?_)
      have := hlife.runs p hl
      simp [Shared.runs, hun, ProcState.runs] at this
    generalize hloc : c.loc p = l at h hn htable
    cases l with
    | user => cases hn
    | fault va f => exact ⟨own, h.fault hp hn⟩
    | grow pc => exact ⟨own, h.grow hn⟩
    | reap q pc => exact h.reap hn (hstate q)
    | fork q pc =>
      cases pc with
      | free pc => exact h.fork_free hn (hstate q)
      | _ => exact ⟨own, h.fork_copy (by simp) (htable q rfl) hn⟩

end Held

/-! ## Runs -/

/-- No other process is inside the kernel. -/
def Alone {σ : Type} (c : Cfg ProcIdx Pc (Shared σ)) (p : ProcIdx) (_ : Act) : Prop :=
  ∀ q ≠ p, c.loc q = .user

instance {σ : Type} (c : Cfg ProcIdx Pc (Shared σ)) (p : ProcIdx) (a : Act) :
    Decidable (Alone c p a) :=
  inferInstanceAs (Decidable (∀ q ≠ p, c.loc q = .user))

/-- The books in a run of operations that are executed to completion. -/
structure PagesInv {σ : Type} (P : Multiset PA) (c : Cfg ProcIdx Pc (Shared σ)) : Prop where
  life : LifeOk c
  held : ∃ p own, (∀ q ≠ p, c.loc q = .user) ∧ Held P c.mem.kern own (c.loc p)

namespace PagesInv

variable {σ : Type} {S : SwapOps σ} {P : Multiset PA} {c c' : Cfg ProcIdx Pc (Shared σ)}
  {p : ProcIdx} {a : Act}

theorem held_of_alone (h : PagesInv P c) (halone : Alone c p a) :
    ∃ own, Held P c.mem.kern own (c.loc p) := by
  obtain ⟨p₀, own, hothers, hheld⟩ := h.held
  by_cases hp : p = p₀
  · exact ⟨own, hp ▸ hheld⟩
  · rw [halone p₀ (Ne.symm hp), ← hothers p hp] at hheld
    exact ⟨own, hheld⟩

theorem step (h : PagesInv P c) (halone : Alone c p a) {l : Pc} {g : Shared σ}
    (hn : (procSystem S).next p a (c.loc p) c.mem = some (l, g)) :
    PagesInv P ⟨Function.update c.loc p l, g⟩ := by
  obtain ⟨own, hheld⟩ := h.held_of_alone halone
  obtain ⟨own', hheld'⟩ := hheld.next h.life hn
  refine ⟨h.life.next hn, p, own', fun q hq => ?_, ?_⟩
  · simp only [Function.update_of_ne hq]
    exact halone q hq
  · simpa only [Function.update_self] using hheld'

theorem reaches (h : PagesInv P c) (hrun : (procSystem S).Reaches Alone c c') : PagesInv P c' :=
  hrun.inv (fun _ _ _ _ _ halone hinv hn => hinv.step halone hn) h

end PagesInv

/-! ## The start -/

/-- The state after `kinit` and `procinit`: the free list has distinct pages above the kernel, which
holds the code of the trampoline, and no process exists. -/
structure Booted {σ : Type} (k : Kernel σ) : Prop where
  tables : k.tables = .init
  nodup : k.freelist.Nodup
  pages : ∀ pa ∈ k.freelist, k.kernEnd ≤ pa
  trampoline : k.trampoline < k.kernEnd
  procs : ∀ p, (k.procs p).state = .unused ∧ (k.procs p).pagetable = none ∧
    (k.procs p).trapframe = none ∧ (k.procs p).sz = 0

/-- `userinit`, with `none` where `allocproc` fails. -/
def Kernel.userinit {σ : Type} (k : Kernel σ) : Result (Option (Kernel σ)) := do
  let (ok, k) ← k.allocproc proc₀ proc₀
  return if ok then some (k.setProc proc₀ fun proc => { proc with state := .runnable }) else none

/-- All processes are in user mode and no lock is held. -/
def Kernel.start {σ : Type} (k : Kernel σ) : Cfg ProcIdx Pc (Shared σ) :=
  ⟨fun _ => .user, ⟨k, fun _ => false⟩⟩

section Start

variable {σ : Type} {k k' : Kernel σ}

/-- Before the first process all pages are free. -/
theorem Booted.books (h : Booted k) : Books k.freelist (k.layout fun _ => none) 0 where
  balanced := by
    refine .of_list (Multiset.coe_nodup.2 h.nodup) (List.nodup_singleton Role.free) (add_zero _)
      fun r hr => ?_
    cases r with
    | free => exact absurd (List.mem_singleton_self _) hr
    | trapframe p => simp [Layout.pagesAt, Kernel.layout, (h.procs p).2.2.1]
    | root p => rfl
    | entry p pl => cases pl <;> rfl
  wf _ := tableWf_empty

theorem Booted.spaces (h : Booted k) : Spaces k.freelist k (fun _ => none) none where
  sizes p := by simp [(h.procs p).2.2.2]
  sync p _ := (h.procs p).2.1.symm
  traps _ _ _ := nofun
  user _ _ _ := nofun
  bare p _ := ⟨(h.procs p).2.1, (h.procs p).2.2.1⟩
  trampoline hmem := absurd (h.pages _ (Multiset.mem_coe.1 hmem)) (not_le.2 h.trampoline)

theorem Booted.pagesInv (h : Booted k) (hinit : k.userinit = .ok (some k')) :
    PagesInv k.freelist k'.start := by
  obtain ⟨⟨ok, k₁⟩, halloc, hinit⟩ := bind_eq_ok.1 hinit
  cases ok with
  | false => cases Except.ok.inj hinit
  | true =>
    obtain rfl := Option.some.inj (Except.ok.inj hinit)
    obtain ⟨htab, hbut, hstate, hpt⟩ := Kernel.allocproc_life halloc
    have hstate₀ : (k₁.procs proc₀).state ≠ .unused := by rw [hstate]; nofun
    have hvas : UserVas k.tables none := ⟨by rw [h.tables]; exact fun _ => userVa_zero, nofun⟩
    have hheld : Held k.freelist (Shared.mk k fun _ => false).kern (fun _ => none) .user :=
      ⟨h.books, h.spaces, hvas⟩
    have hfork : (Shared.mk k fun _ => false).userFork proc₀ proc₀ =
        some (.fork proc₀ (.page 0), (Shared.mk k₁ fun _ => false).setLock proc₀ true) := by
      simp only [Shared.userFork, halloc]
    obtain ⟨own, hb, hs, -, hvas'⟩ := hheld.fork (h.procs proc₀).1 hfork fun _ => hstate₀
    have huser : Held k.freelist k₁ own .user := ⟨hb, hs, hvas'⟩
    have hrun := huser.setProc (f := fun proc => { proc with state := .runnable }) proc₀
      (fun _ => ⟨rfl, rfl⟩) (hs.sizes proc₀) nofun
    refine ⟨Idle.lifeOk ⟨fun _ => rfl, fun _ => rfl, fun q hq => ?_⟩, proc₀, own, fun _ _ => rfl,
      hrun⟩
    by_cases hq₀ : q = proc₀
    · subst hq₀
      simpa [Kernel.start, Kernel.setProc] using hpt rfl
    · have hlife : (k₁.procs q).state = .unused :=
        (congrArg Prod.fst (hbut q hq₀)).trans (h.procs q).1
      simp [Kernel.start, Kernel.setProc, hq₀, hlife] at hq

end Start

/-! ## Conservation -/

namespace Kernel

variable {σ : Type}

/-- The page `pa` is used for `r`. -/
def HasRole (k : Kernel σ) (pa : PA) : Role → Prop
  | .free => pa ∈ k.freelist
  | .trapframe p => (k.procs p).trapframe = some pa
  | .root p => (k.procs p).pagetable = some pa
  | .entry p pl => ∃ root, (k.procs p).pagetable = some root ∧ (k.pts root).page pl = some pa

/-- The page `pa` is a page of the page table, or an entry of it leads there. -/
def Reachable (k : Kernel σ) (root pa : PA) : Prop :=
  pa = root ∨ (∃ i, (k.pts root).mid i = some pa) ∨ (∃ j, (k.pts root).low j = some pa) ∨
    ∃ v e, (k.pts root).leaf v = some e ∧ e.pa = pa

/-- Of the pages `P`, each has one role, and none is free that can be reached from the page table of
a process. The entries of page tables below the trapframe are those of user code. -/
structure Conserved (k : Kernel σ) (P : List PA) : Prop where
  nodup : k.freelist.Nodup
  role : ∀ pa ∈ P, ∃! r, k.HasRole pa r
  user : ∀ p root v e, (k.procs p).pagetable = some root → (k.pts root).leaf v = some e →
    v < vpn trapframeVa → e.perm.u = true
  unreachable : ∀ pa ∈ k.freelist, ∀ p root, (k.procs p).pagetable = some root →
    ¬ k.Reachable root pa

theorem mem_pagesAt {k : Kernel σ} {own : ProcIdx → Option PA}
    (hsync : ∀ p, own p = (k.procs p).pagetable) (pa : PA) (r : Role) :
    pa ∈ (k.layout own).pagesAt r ↔ k.HasRole pa r := by
  cases r with
  | free => simp [Layout.pagesAt, layout, HasRole]
  | trapframe p => simp [Layout.pagesAt, layout, HasRole]
  | root p => simp [Layout.pagesAt, layout, HasRole, hsync]
  | entry p pl =>
    cases hp : (k.procs p).pagetable with
    | none => cases pl <;> simp [Layout.pagesAt, layout, HasRole, hsync, hp, PageTable.page,
        PageTable.empty]
    | some root => simp [Layout.pagesAt, layout, HasRole, hsync, hp]

end Kernel

/-- What the books say when no operation is running. -/
theorem Held.conserved {σ : Type} {k : Kernel σ} {P : List PA} {own : ProcIdx → Option PA}
    (h : Held P k own .user) : k.Conserved P := by
  have hsync : ∀ p, own p = (k.procs p).pagetable := fun p => h.spaces.sync p (by simp [Pc.dying])
  have hrole := Kernel.mem_pagesAt hsync
  have hbal := h.books.balanced
  refine ⟨h.books.free_nodup, fun pa hpa => ?_, fun p root v e hroot he hv => ?_,
    fun pa hpa p root hroot hreach => ?_⟩
  · simp only [← hrole]
    exact hbal.existsUnique (Multiset.mem_coe.2 hpa)
  · exact h.spaces.user p (by simp [Pc.dying]) root (h.spaces.own_eq p root hroot) v e hv he
  · -- a free page has no other role
    have hown := h.spaces.own_eq p root hroot
    have hwf := h.books.wf_pts hown
    have hfree : pa ∈ (k.layout own).pagesAt .free := (hrole pa .free).2 hpa
    have hnot : ∀ r, r ≠ .free → ¬ k.HasRole pa r := fun r hr hpar =>
      hr (hbal.place_unique ((hrole pa r).2 hpar) hfree)
    rcases hreach with rfl | ⟨i, hi⟩ | ⟨j, hj⟩ | ⟨v, e, he, rfl⟩
    · exact hnot (.root p) (by simp) hroot
    · exact hnot (.entry p (.mid ⟨i, hwf.mid_lt i (by simp [hi])⟩)) (by simp) ⟨root, hroot, hi⟩
    · exact hnot (.entry p (.low ⟨j, hwf.low_lt (by simp [hj])⟩)) (by simp) ⟨root, hroot, hj⟩
    · by_cases hv : v < vpn trapframeVa
      · exact hnot (.entry p (.user ⟨v, hv⟩)) (by simp) ⟨root, hroot, by simp [PageTable.page, he]⟩
      · obtain ⟨tf, htf, htrap⟩ := h.spaces.traps p (by simp [Pc.dying]) root hown
        have hle := hwf.leaf_le v (by simp [he])
        have hnext : vpn trampolineVa = vpn trapframeVa + 1 := by decide
        obtain rfl | rfl : v = vpn trapframeVa ∨ v = vpn trampolineVa := by omega
        · exact hnot (.trapframe p) (by simp)
            (htf.trans (congrArg some (htrap.trapframe e he).symm))
        · exact h.spaces.trampoline (htrap.trampoline e he ▸ hbal.mem_of_place hfree)

/-- **Conservation of pages.** After any run of page faults, `sbrk`, `fork`, `exit` and `wait` in
which each operation is executed to completion, every page that was free after `kinit` has one role.
-/
theorem pages_conserved {σ : Type} (S : SwapOps σ) {k₀ k : Kernel σ} (hboot : Booted k₀)
    (hinit : k₀.userinit = .ok (some k)) {c : Cfg ProcIdx Pc (Shared σ)}
    (hrun : (procSystem S).Reaches Alone k.start c) (hdone : ∀ p, c.loc p = .user) :
    c.mem.kern.Conserved k₀.freelist := by
  obtain ⟨p, own, -, hheld⟩ := ((hboot.pagesInv hinit).reaches hrun).held
  rw [hdone p] at hheld
  exact hheld.conserved

/-- A machine with a few pages above the kernel. -/
def bootKernel : Kernel Unit where
  tables := .init
  freelist := (List.range 24).map pageNo
  mem _ := 0
  pts _ := .empty
  procs _ := ⟨.unused, 0, none, none, 0, 0, 0, 0, 0, 0, 0⟩
  swap := ()
  kernEnd := pageNo 0
  trampoline := 0x80000000

theorem bootKernel_booted : Booted bootKernel where
  tables := rfl
  nodup := by decide +kernel
  pages := by decide +kernel
  trampoline := by decide
  procs _ := ⟨rfl, rfl, rfl, rfl⟩

/-- The first process grows, touches a page, forks, and waits for the child. -/
def forkAndReap : List (ProcIdx × Act) :=
  List.flatten [[(proc₀, .sbrk 8192 false), (proc₀, .sbrk 4096 true), (proc₀, .go)],
    (proc₀, .fault 0) :: List.replicate 7 (proc₀, .go),
    (proc₀, .fork proc₁) :: List.replicate 5 (proc₀, .go),
    [(proc₁, .exit 0), (proc₀, .wait proc₁)], List.replicate 12 (proc₀, .go)]

theorem forkAndReap_runs : (match bootKernel.userinit with
    | .ok (some k) => ((procSystem nullSwap).execWhile Alone forkAndReap k.start).map
        fun c => decide (∀ p, c.loc p = .user)
    | _ => none) = some true := by
  decide +kernel

theorem pages_conserved_forkAndReap : Booted bootKernel ∧ ∃ k c,
    bootKernel.userinit = .ok (some k) ∧ (procSystem nullSwap).Reaches Alone k.start c ∧
      (∀ p, c.loc p = .user) ∧ c.mem.kern.Conserved bootKernel.freelist := by
  have hrun := forkAndReap_runs
  split at hrun
  · rename_i k hinit
    obtain ⟨c, hc, hdone⟩ := Option.map_eq_some_iff.1 hrun
    have hreach := System.reaches_of_execWhile hc
    have hdone' : ∀ p, c.loc p = .user := of_decide_eq_true hdone
    exact ⟨bootKernel_booted, k, c, hinit, hreach, hdone',
      pages_conserved nullSwap bootKernel_booted hinit hreach hdone'⟩
  · cases hrun

end Xv6Swap.Paging
