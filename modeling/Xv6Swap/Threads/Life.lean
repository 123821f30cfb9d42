import Xv6Swap.Threads.Frame

/-!
# The life of a process

What each step does to the states of the processes (`LifeStep`), and the invariant that follows for
all runs (`LifeOk`): a process inside the kernel can run, and a process that is being made or freed
is at that time locked by one other process and does not run.
-/

namespace Xv6Swap.Paging

open Interleave (System Cfg)

/-- The process that is being made or freed. -/
def Pc.target : Pc → Option ProcIdx
  | .fork q _ | .reap q _ => some q
  | .user | .fault _ _ | .grow _ => none

def FreePc.owner : FreePc → Option ProcIdx
  | .pages u => u.owner
  | _ => none

def ForkPc.owner : ForkPc → Option ProcIdx
  | .undo u => u.owner
  | .free pc => pc.owner
  | _ => none

def GrowPc.owner : GrowPc → Option ProcIdx
  | .unmap _ u => u.owner
  | .alloc .. => none

/-- The process whose entries are cleaned up by a `uvmunmap`. -/
def Pc.owner : Pc → Option ProcIdx
  | .grow pc => pc.owner
  | .fork _ pc => pc.owner
  | .reap _ pc => pc.owner
  | .user | .fault _ _ => none

section Steps

variable {σ : Type} {S : SwapOps σ} {g g' : Shared σ} {p q : ProcIdx} {l l' : Pc} {a : Act}

theorem Shared.proceed_eq_some {α β : Type} {go : α → Pc} {ret : β → Kernel σ → Shared σ}
    {r : Result (Next α β × Kernel σ)} (h : g.proceed go ret r = some (l', g')) :
    (∃ pc k, r = .ok (.go pc, k) ∧ l' = go pc ∧ g' = { g with kern := k }) ∨
      ∃ x k, r = .ok (.ret x, k) ∧ l' = .user ∧ g' = ret x k := by
  match r with
  | .ok (.go pc, k) =>
    obtain ⟨rfl, rfl⟩ := Prod.mk.inj (Option.some.inj h)
    exact .inl ⟨pc, k, rfl, rfl, rfl⟩
  | .ok (.ret x, k) =>
    obtain ⟨rfl, rfl⟩ := Prod.mk.inj (Option.some.inj h)
    exact .inr ⟨x, k, rfl, rfl, rfl⟩

theorem procSystem_next (h : (procSystem S).next p a l g = some (l', g')) :
    l = .user ∧ g.runs p = true ∧ g.userNext p a = some (l', g') ∨
      l ≠ .user ∧ a = .go ∧ g.kernelNext S p l = some (l', g') := by
  cases l with
  | user =>
    simp only [procSystem] at h
    split at h
    · rename_i hruns
      exact .inl ⟨rfl, hruns, h⟩
    · cases h
  | fault | grow | fork | reap =>
    cases a with
    | go => exact .inr ⟨nofun, rfl, h⟩
    | fault | store | sbrk | fork | exit | wait => cases h

/-- What a step does to the processes. -/
inductive LifeStep (p : ProcIdx) (l : Pc) (g : Shared σ) : Pc → Shared σ → Prop
  | keep {l' : Pc} {k' : Kernel σ} (hlife : g.kern.SameLife k') (htarget : l'.target = l.target) :
      LifeStep p l g l' { g with kern := k' }
  | exit (status : BitVec 32) (hl : l = .user) :
      LifeStep p l g .user { g with kern := g.kern.kexit p status }
  | forkFail {q : ProcIdx} {k' : Kernel σ} (hl : l = .user)
      (hq : (g.kern.procs q).state = .unused) (hbut : g.kern.SameLifeBut q k')
      (hq' : (k'.procs q).state = .unused) : LifeStep p l g .user { g with kern := k' }
  | fork {q : ProcIdx} {k' : Kernel σ} (hl : l = .user) (hq : (g.kern.procs q).state = .unused)
      (hlock : g.locked q = false) (hbut : g.kern.SameLifeBut q k')
      (hq' : (k'.procs q).state = .used) (hpt : (k'.procs q).pagetable.isSome) :
      LifeStep p l g (.fork q (.page 0)) ({ g with kern := k' }.setLock q true)
  | wait {q : ProcIdx} (hl : l = .user) (hq : (g.kern.procs q).state = .zombie)
      (hlock : g.locked q = false) : LifeStep p l g (.reap q .trapframe) (g.setLock q true)
  | forked {q : ProcIdx} {i : ℕ} (hl : l = .fork q (.page i)) :
      LifeStep p l g .user ({ g with kern := g.kern.forkDone p q }.setLock q false)
  | freed {q : ProcIdx} (hl : l = .fork q (.free .reset) ∨ l = .reap q .reset) :
      LifeStep p l g .user ({ g with kern := g.kern.resetProc q }.setLock q false)

theorem userFork_life (hl : l = .user) (hq : (g.kern.procs q).state = .unused)
    (hlock : g.locked q = false) (h : g.userFork p q = some (l', g')) :
    LifeStep p l g l' g' := by
  unfold Shared.userFork at h
  split at h
  · cases h
  · rename_i k halloc
    obtain ⟨rfl, rfl⟩ := Prod.mk.inj (Option.some.inj h)
    obtain ⟨-, hbut, hq', -⟩ := Kernel.allocproc_life halloc
    exact .forkFail hl hq hbut hq'
  · rename_i k halloc
    obtain ⟨rfl, rfl⟩ := Prod.mk.inj (Option.some.inj h)
    obtain ⟨-, hbut, hq', hpt⟩ := Kernel.allocproc_life halloc
    exact .fork hl hq hlock hbut hq' (hpt rfl)

theorem setSize_life (g : Shared σ) (p : ProcIdx) (sz : Option ℕ) {k : Kernel σ}
    (h : g.kern.SameLife k) :
    ∃ k', g.setSize p sz k = { g with kern := k' } ∧ g.kern.SameLife k' := by
  cases sz with
  | none => exact ⟨k, rfl, h⟩
  | some sz => exact ⟨_, rfl, h.trans (.setProc (by intro; rfl) k p)⟩

theorem sysSbrk_lazy_life {k k' : Kernel σ} {n : ℤ} {r : Option ℕ} (hn : ¬ n < 0)
    (h : k.sysSbrk p n false = .ok (r, k')) : k'.tables = k.tables ∧ k.SameLife k' := by
  simp only [Kernel.sysSbrk, Bool.false_or, decide_eq_true_eq, if_neg hn] at h
  split at h
  · obtain ⟨-, rfl⟩ := Prod.mk.inj (Except.ok.inj h)
    exact ⟨rfl, .refl k⟩
  · split at h
    · obtain ⟨-, rfl⟩ := Prod.mk.inj (Except.ok.inj h)
      exact ⟨rfl, .refl k⟩
    · obtain ⟨-, rfl⟩ := Prod.mk.inj (Except.ok.inj h)
      exact ⟨rfl, .setProc (by intro; rfl) k p⟩

theorem userSbrk_life {n : Int32} {eager : Bool} (hl : l = .user)
    (h : g.userSbrk p n eager = some (l', g')) : LifeStep p l g l' g' := by
  subst hl
  unfold Shared.userSbrk at h
  split at h
  · rcases Shared.proceed_eq_some h with ⟨pc, k, hr, rfl, rfl⟩ | ⟨sz, k, hr, rfl, rfl⟩
    · obtain ⟨-, rfl⟩ := Prod.mk.inj (Except.ok.inj hr)
      exact .keep (.refl _) rfl
    · obtain ⟨-, rfl⟩ := Prod.mk.inj (Except.ok.inj hr)
      obtain ⟨k', heq, hlife⟩ := setSize_life g p sz (.refl g.kern)
      exact heq ▸ .keep hlife rfl
  · rename_i hn
    split at h
    · cases h
    · rename_i hsbrk
      obtain ⟨rfl, rfl⟩ := Prod.mk.inj (Option.some.inj h)
      exact .keep (sysSbrk_lazy_life (fun hlt => hn (.inr hlt)) hsbrk).2 rfl

theorem userNext_life (hl : l = .user) (h : g.userNext p a = some (l', g')) :
    LifeStep p l g l' g' := by
  cases a with
  | go => cases h
  | fault va =>
    obtain ⟨rfl, rfl⟩ := Prod.mk.inj (Option.some.inj h)
    exact .keep (.refl _) (hl ▸ rfl)
  | store va b =>
    obtain ⟨g₁, hstore, h⟩ := Option.map_eq_some_iff.1 h
    obtain ⟨rfl, rfl⟩ := Prod.mk.inj h
    obtain ⟨pa, -, rfl⟩ := Option.map_eq_some_iff.1 hstore
    exact .keep (fun _ => rfl) (hl ▸ rfl)
  | sbrk n eager => exact userSbrk_life hl h
  | fork q =>
    obtain ⟨⟨hq, hlock⟩, h⟩ := Option.ite_none_right_eq_some.1 h
    exact userFork_life hl hq hlock h
  | exit status =>
    obtain ⟨rfl, rfl⟩ := Prod.mk.inj (Option.some.inj h)
    exact .exit status hl
  | wait q =>
    obtain ⟨⟨hq, hlock⟩, h⟩ := Option.ite_none_right_eq_some.1 h
    obtain ⟨rfl, rfl⟩ := Prod.mk.inj (Option.some.inj h)
    exact .wait hl hq hlock

theorem kernelNext_life (h : g.kernelNext S p l = some (l', g')) : LifeStep p l g l' g' := by
  cases l with
  | user => cases h
  | fault va pc =>
    rcases Shared.proceed_eq_some h with ⟨pc', k, hr, rfl, rfl⟩ | ⟨r, k, hr, rfl, rfl⟩
    · exact .keep (Kernel.faultNext_life hr) rfl
    · exact .keep (Kernel.faultNext_life hr) rfl
  | grow pc =>
    rcases Shared.proceed_eq_some h with ⟨pc', k, hr, rfl, rfl⟩ | ⟨sz, k, hr, rfl, rfl⟩
    · exact .keep (Kernel.growNext_life hr) rfl
    · obtain ⟨k', heq, hlife⟩ := setSize_life g p sz (Kernel.growNext_life hr)
      exact heq ▸ .keep hlife rfl
  | fork q pc =>
    rcases Shared.proceed_eq_some h with ⟨pc', k, hr, rfl, rfl⟩ | ⟨r, k, hr, rfl, rfl⟩
    · rcases Kernel.forkNext_life hr with ⟨-, hlife⟩ | ⟨-, hret, -⟩ | ⟨-, hret, -⟩
      · exact .keep hlife rfl
      · cases hret
      · cases hret
    · rcases Kernel.forkNext_life hr with ⟨⟨_, hgo⟩, -⟩ | ⟨⟨i, rfl⟩, -, rfl⟩ | ⟨rfl, -, rfl⟩
      · cases hgo
      · exact .forked rfl
      · exact .freed (.inl rfl)
  | reap q pc =>
    rcases Shared.proceed_eq_some h with ⟨pc', k, hr, rfl, rfl⟩ | ⟨r, k, hr, rfl, rfl⟩
    · rcases Kernel.freeNext_life hr with ⟨-, hlife⟩ | ⟨-, hret, -⟩
      · exact .keep hlife rfl
      · cases hret
    · rcases Kernel.freeNext_life hr with ⟨⟨_, hgo⟩, -⟩ | ⟨rfl, -, rfl⟩
      · cases hgo
      · exact .freed (.inr rfl)

/-- **What a step does to the processes.** -/
theorem next_life (h : (procSystem S).next p a l g = some (l', g')) : LifeStep p l g l' g' := by
  rcases procSystem_next h with ⟨hl, -, h⟩ | ⟨-, -, h⟩
  · exact userNext_life hl h
  · exact kernelNext_life h

end Steps

/-! ## The invariant -/

/-- A process inside the kernel can run; a process that is being made or freed cannot, and only one
other process is at it. Processes that exist have a page table. -/
structure LifeOk {σ : Type} (c : Cfg ProcIdx Pc (Shared σ)) : Prop where
  runs : ∀ p, c.loc p ≠ .user → c.mem.runs p = true
  target : ∀ p q, (c.loc p).target = some q →
    c.mem.locked q = true ∧ c.mem.runs q = false ∧ (c.mem.kern.procs q).state ≠ .unused
  target_inj : ∀ p p' q, (c.loc p).target = some q → (c.loc p').target = some q → p = p'
  table : ∀ q, (c.mem.kern.procs q).state ≠ .unused → (c.mem.kern.procs q).pagetable.isSome

/-- No process is inside the kernel, and processes that exist have a page table. -/
structure Idle {σ : Type} (c : Cfg ProcIdx Pc (Shared σ)) : Prop where
  user : ∀ p, c.loc p = .user
  unlocked : ∀ p, c.mem.locked p = false
  table : ∀ q, (c.mem.kern.procs q).state ≠ .unused → (c.mem.kern.procs q).pagetable.isSome

theorem Idle.lifeOk {σ : Type} {c : Cfg ProcIdx Pc (Shared σ)} (h : Idle c) : LifeOk c where
  runs p hp := absurd (h.user p) hp
  target p q hq := by simp [h.user p, Pc.target] at hq
  target_inj p p' q hq := by simp [h.user p, Pc.target] at hq
  table := h.table

namespace LifeOk

variable {σ : Type} {S : SwapOps σ} {c : Cfg ProcIdx Pc (Shared σ)} {p q : ProcIdx} {a : Act}
  {l : Pc} {g : Shared σ}

/-- The process that is being made or freed is not inside the kernel. -/
theorem target_user (h : LifeOk c) (hq : (c.loc p).target = some q) : c.loc q = .user := by
  by_contra hne
  have := h.runs q hne
  simp [(h.target p q hq).2.1] at this

theorem target_ne (h : LifeOk c) (hq : (c.loc p).target = some q) : q ≠ p := by
  rintro rfl
  have := h.target_user hq
  rw [this] at hq
  cases hq

/-- Steps that concern the process `q` only, which is not inside the kernel: it may change its
state, and `p` may begin or stop to work on it. -/
theorem change (h : LifeOk c) (hp : c.mem.runs p = true) (hpq : p ≠ q) (hq : c.loc q = .user)
    (hother : ∀ r, (c.loc r).target = some q → r = p)
    (hbut : c.mem.kern.SameLifeBut q g.kern) (hlock : ∀ r ≠ q, g.locked r = c.mem.locked r)
    (htarget : l.target = none ∨
      l.target = some q ∧ g.locked q = true ∧ g.runs q = false ∧ (g.kern.procs q).state ≠ .unused)
    (htable : (g.kern.procs q).state ≠ .unused → (g.kern.procs q).pagetable.isSome) :
    LifeOk ⟨Function.update c.loc p l, g⟩ := by
  have hstate : ∀ r ≠ q, (g.kern.procs r).state = (c.mem.kern.procs r).state := fun r hr =>
    congrArg Prod.fst (hbut r hr)
  have htable' : ∀ r ≠ q, (g.kern.procs r).pagetable = (c.mem.kern.procs r).pagetable :=
    fun r hr => congrArg Prod.snd (hbut r hr)
  have hruns : ∀ r ≠ q, g.runs r = c.mem.runs r := fun r hr => by
    rw [Shared.runs, Shared.runs, hstate r hr]
  have hrest : ∀ r r', r ≠ p → (c.loc r).target = some r' → r' ≠ q := by
    rintro r r' hr hr' rfl
    exact hr (hother r hr')
  refine ⟨fun r hr => ?_, fun r r' hr => ?_, fun r₁ r₂ r' h₁ h₂ => ?_, fun r hr => ?_⟩
  · by_cases hrp : r = p
    · rw [hrp, hruns p hpq]
      exact hp
    · have hrq : r ≠ q := by
        rintro rfl
        simp [hrp, hq] at hr
      rw [hruns r hrq]
      exact h.runs r (by simpa [hrp] using hr)
  · by_cases hrp : r = p
    · subst hrp
      rcases htarget with hnone | ⟨hsome, hrest'⟩
      · simp [hnone] at hr
      · obtain rfl : q = r' := by simpa [hsome] using hr
        exact hrest'
    · replace hr : (c.loc r).target = some r' := by simpa [hrp] using hr
      have hne := hrest r r' hrp hr
      rw [hlock r' hne, hruns r' hne, hstate r' hne]
      exact h.target r r' hr
  · by_cases hr₁ : r₁ = p <;> by_cases hr₂ : r₂ = p
    · rw [hr₁, hr₂]
    · replace h₂ : (c.loc r₂).target = some r' := by simpa [hr₂] using h₂
      rcases htarget with hnone | ⟨hsome, -⟩
      · simp [hr₁, hnone] at h₁
      · obtain rfl : q = r' := by simpa [hr₁, hsome] using h₁
        exact absurd rfl (hrest r₂ q hr₂ h₂)
    · replace h₁ : (c.loc r₁).target = some r' := by simpa [hr₁] using h₁
      rcases htarget with hnone | ⟨hsome, -⟩
      · simp [hr₂, hnone] at h₂
      · obtain rfl : q = r' := by simpa [hr₂, hsome] using h₂
        exact absurd rfl (hrest r₁ q hr₁ h₁)
    · exact h.target_inj r₁ r₂ r' (by simpa [hr₁] using h₁) (by simpa [hr₂] using h₂)
  · by_cases hrq : r = q
    · subst hrq
      exact htable hr
    · rw [htable' r hrq]
      exact h.table r (by rwa [hstate r hrq] at hr)

/-- Steps that leave the states of the processes as they are. -/
theorem keep (h : LifeOk c) (hp : c.mem.runs p = true) {k' : Kernel σ}
    (hlife : c.mem.kern.SameLife k') (htarget : l.target = (c.loc p).target) :
    LifeOk ⟨Function.update c.loc p l, { c.mem with kern := k' }⟩ := by
  have htargets : ∀ r, (Function.update c.loc p l r).target = (c.loc r).target := by
    intro r
    by_cases hr : r = p
    · rw [hr, Function.update_self, htarget]
    · rw [Function.update_of_ne hr]
  have hruns : ∀ r, ({ c.mem with kern := k' } : Shared σ).runs r = c.mem.runs r := fun r => by
    rw [Shared.runs, Shared.runs, hlife.state]
  refine ⟨fun r hr => ?_, fun r r' hr => ?_, fun r₁ r₂ r' h₁ h₂ => ?_, fun r hr => ?_⟩
  · rw [hruns]
    by_cases hrp : r = p
    · rw [hrp]
      exact hp
    · exact h.runs r (by simpa [hrp] using hr)
  · rw [hruns, hlife.state]
    exact h.target r r' ((htargets r).symm.trans hr)
  · exact h.target_inj r₁ r₂ r' ((htargets r₁).symm.trans h₁) ((htargets r₂).symm.trans h₂)
  · rw [hlife.state] at hr
    rw [hlife.pagetable]
    exact h.table r hr

/-- A process that is not inside the kernel exits. -/
theorem exit (h : LifeOk c) (hp : c.mem.runs p = true) (hl : c.loc p = .user)
    (status : BitVec 32) : LifeOk ⟨c.loc, { c.mem with kern := c.mem.kern.kexit p status }⟩ := by
  have hbut := c.mem.kern.setProc_sameLifeBut p fun proc =>
    { proc with xstate := status, state := .zombie }
  have hruns : ∀ r ≠ p, ({ c.mem with kern := c.mem.kern.kexit p status } : Shared σ).runs r =
      c.mem.runs r := fun r hr => by
    rw [Shared.runs, Shared.runs]
    exact congrArg ProcState.runs (congrArg Prod.fst (hbut r hr))
  refine ⟨fun r hr => ?_, fun r r' hr => ?_, h.target_inj, fun r hr => ?_⟩
  · have hrp : r ≠ p := by
      rintro rfl
      exact hr hl
    rw [hruns r hrp]
    exact h.runs r hr
  · obtain ⟨hlock, hnot, hstate⟩ := h.target r r' hr
    have hrp : r' ≠ p := by
      rintro rfl
      simp [hp] at hnot
    rw [hruns r' hrp]
    exact ⟨hlock, hnot, (congrArg Prod.fst (hbut r' hrp)).trans_ne hstate⟩
  · by_cases hrp : r = p
    · subst hrp
      have hlive : (c.mem.kern.procs r).state ≠ .unused := by
        intro hun
        simp [Shared.runs, hun, ProcState.runs] at hp
      simpa [Kernel.kexit, Kernel.setProc] using h.table r hlive
    · have hst := congrArg Prod.fst (hbut r hrp)
      have hpt : ((c.mem.kern.kexit p status).procs r).pagetable =
          (c.mem.kern.procs r).pagetable := congrArg Prod.snd (hbut r hrp)
      simp only [hpt]
      exact h.table r (hst.symm.trans_ne hr)

theorem runs_of_state {q : ProcIdx} {s : ProcState} (hq : (g.kern.procs q).state = s) :
    g.runs q = s.runs := by
  rw [Shared.runs, hq]

theorem step (h : LifeOk c) (hp : c.mem.runs p = true)
    (hs : LifeStep p (c.loc p) c.mem l g) : LifeOk ⟨Function.update c.loc p l, g⟩ := by
  have hne : ∀ {q}, c.mem.runs q = false → p ≠ q := by
    rintro q hq rfl
    simp [hp] at hq
  have hidle : ∀ {q}, c.mem.runs q = false → c.loc q = .user := by
    intro q hq
    by_contra hl
    simp [h.runs q hl] at hq
  have hunlocked : ∀ {q r}, c.mem.locked q = false → (c.loc r).target ≠ some q := by
    intro q r hq hr
    simp [(h.target r q hr).1] at hq
  have hlock : ∀ (k : Kernel σ) (q : ProcIdx) (b : Bool), ∀ r ≠ q,
      (({ c.mem with kern := k } : Shared σ).setLock q b).locked r = c.mem.locked r := by
    intro k q b r hr
    simp [Shared.setLock, hr]
  cases hs with
  | keep hlife htarget => exact h.keep hp hlife htarget
  | exit status hl =>
    rw [← hl, Function.update_eq_self]
    exact h.exit hp hl status
  | @forkFail q k' hl hq hbut hq' =>
    have hnot := runs_of_state hq
    refine h.change hp (hne hnot) (hidle hnot) (fun r hr => ?_) hbut (fun _ _ => rfl) (.inl rfl)
      fun hun => absurd hq' hun
    exact absurd hq (h.target r q hr).2.2
  | @fork q k' hl hq hlk hbut hq' hpt =>
    have hnot := runs_of_state hq
    exact h.change hp (hne hnot) (hidle hnot) (fun r hr => absurd hr (hunlocked hlk)) hbut
      (hlock k' q true) (.inr ⟨rfl, by simp [Shared.setLock],
        by simp [Shared.setLock, Shared.runs, hq', ProcState.runs],
        by simp [Shared.setLock, hq']⟩) fun _ => hpt
  | @wait q hl hq hlk =>
    have hnot := runs_of_state hq
    exact h.change hp (hne hnot) (hidle hnot) (fun r hr => absurd hr (hunlocked hlk))
      (fun _ _ => rfl) (hlock _ q true) (.inr ⟨rfl, by simp [Shared.setLock], hnot, by
        simp [Shared.setLock, hq]⟩) fun hun => h.table q hun
  | @forked q i hl =>
    have ht : (c.loc p).target = some q := by rw [hl]; rfl
    refine h.change hp (h.target_ne ht).symm (h.target_user ht)
      (fun r hr => h.target_inj r p q hr ht) (Kernel.forkDone_sameLifeBut p q _)
      (hlock _ q false) (.inl rfl) fun _ => ?_
    simpa [Shared.setLock, Kernel.forkDone, Kernel.setProc] using
      h.table q (h.target p q ht).2.2
  | @freed q hl =>
    have ht : (c.loc p).target = some q := by rcases hl with hl | hl <;> rw [hl] <;> rfl
    refine h.change hp (h.target_ne ht).symm (h.target_user ht)
      (fun r hr => h.target_inj r p q hr ht) (Kernel.resetProc_sameLifeBut q _)
      (hlock _ q false) (.inl rfl) fun hun => ?_
    simp [Shared.setLock, Kernel.resetProc, Kernel.setProc] at hun

/-- **The life of processes in every run.** -/
theorem next (h : LifeOk c) (hn : (procSystem S).next p a (c.loc p) c.mem = some (l, g)) :
    LifeOk ⟨Function.update c.loc p l, g⟩ := by
  have hp : c.mem.runs p = true := by
    rcases procSystem_next hn with ⟨-, hp, -⟩ | ⟨hl, -⟩
    · exact hp
    · exact h.runs p hl
  exact h.step hp (next_life hn)

end LifeOk

end Xv6Swap.Paging
