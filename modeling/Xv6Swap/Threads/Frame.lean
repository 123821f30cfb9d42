import Xv6Swap.Threads.System

/-!
# What steps leave alone

The page allocator and the page tables have nothing to do with the frame table, the swap map and the
processes (`Untouched`), and the steps of a page fault and of `uvmunmap` leave the processes in
their states (`SameLife`).
-/

namespace Xv6Swap.Paging

open Raid (Page pgSize)

/-- The fields of a process that say whether it exists. -/
def Proc.life (proc : Proc) : ProcState × Option PA := (proc.state, proc.pagetable)

namespace Kernel

variable {σ : Type} {S : SwapOps σ} {k k' k'' : Kernel σ} {pa root : PA} {p q cur : ProcIdx}

/-- The tables, the processes and the swap device are as they were. -/
structure Untouched (k k' : Kernel σ) : Prop where
  tables : k'.tables = k.tables
  procs : k'.procs = k.procs
  swap : k'.swap = k.swap

theorem Untouched.refl (k : Kernel σ) : Untouched k k := ⟨rfl, rfl, rfl⟩

theorem Untouched.trans (h : Untouched k k') (h' : Untouched k' k'') : Untouched k k'' :=
  ⟨h'.tables.trans h.tables, h'.procs.trans h.procs, h'.swap.trans h.swap⟩

/-- Every process exists as it did. -/
def SameLife (k k' : Kernel σ) : Prop := ∀ q, (k'.procs q).life = (k.procs q).life

theorem Untouched.sameLife (h : Untouched k k') : SameLife k k' := fun q => by rw [h.procs]

theorem SameLife.refl (k : Kernel σ) : SameLife k k := fun _ => rfl

theorem SameLife.trans (h : SameLife k k') (h' : SameLife k' k'') : SameLife k k'' :=
  fun q => (h' q).trans (h q)

theorem SameLife.state (h : SameLife k k') (q : ProcIdx) :
    (k'.procs q).state = (k.procs q).state :=
  congrArg Prod.fst (h q)

theorem SameLife.pagetable (h : SameLife k k') (q : ProcIdx) :
    (k'.procs q).pagetable = (k.procs q).pagetable :=
  congrArg Prod.snd (h q)

theorem SameLife.setProc {f : Proc → Proc} (hf : ∀ proc, (f proc).life = proc.life) (k : Kernel σ)
    (p : ProcIdx) : SameLife k (k.setProc p f) := by
  intro q
  by_cases hq : q = p
  · subst hq
    simp [Kernel.setProc, hf]
  · simp [Kernel.setProc, hq]

/-! ## Pages and page tables -/

theorem kfree_untouched (h : k.kfree pa = .ok k') : Untouched k k' := by
  obtain rfl := kfree_eq_ok h
  exact ⟨rfl, rfl, rfl⟩

theorem popFree_untouched {r : Option PA} (h : k.popFree = (r, k')) : Untouched k k' := by
  unfold popFree at h
  split at h <;> (obtain ⟨-, rfl⟩ := Prod.mk.inj h; exact ⟨rfl, rfl, rfl⟩)

theorem kalloc_untouched {r : Option PA} (h : k.kalloc = (r, k')) : Untouched k k' := by
  cases r with
  | none =>
    obtain rfl := kalloc_none h
    exact .refl k'
  | some pa =>
    obtain ⟨l, -, rfl⟩ := kalloc_some h
    exact ⟨rfl, rfl, rfl⟩

theorem walk_untouched {va : ℕ} {alloc b : Bool} (h : k.walk root va alloc = .ok (b, k')) :
    Untouched k k' :=
  walk_rel .refl (fun _ _ _ h₁ h₂ => h₁.trans h₂)
    (fun _ _ _ _ hk _ => (kalloc_untouched hk).trans ⟨rfl, rfl, rfl⟩) h

theorem mappages_untouched {va : ℕ} {perm : Perm} {b : Bool}
    (h : k.mappages root va pa perm = .ok (b, k')) : Untouched k k' := by
  obtain ⟨k₁, hwalk, ⟨-, rfl⟩ | ⟨-, -, rfl⟩⟩ := mappages_cases h
  · exact walk_untouched hwalk
  · exact (walk_untouched hwalk).trans ⟨rfl, rfl, rfl⟩

/-- `uvmunmap` without `do_free` only clears page table entries. -/
theorem unmapPage_keep_untouched {o : Option ProcIdx} {a : ℕ}
    (h : k.unmapPage o root false a = .ok k') : Untouched k k' := by
  simp only [unmapPage] at h
  split at h
  · cases h
  · split at h
    · obtain rfl := Except.ok.inj h
      exact .refl k
    · obtain rfl := Except.ok.inj h
      exact ⟨rfl, rfl, rfl⟩

theorem unmapLoop_keep_untouched {o : Option ProcIdx} {n a : ℕ}
    (h : k.unmapLoop o root false n a = .ok k') : Untouched k k' := by
  induction n generalizing k a with
  | zero =>
    obtain rfl := Except.ok.inj h
    exact .refl k
  | succ n ih =>
    obtain ⟨k₁, hpage, h⟩ := bind_eq_ok.1 h
    exact (unmapPage_keep_untouched hpage).trans (ih h)

theorem uvmunmap_keep_untouched {va n : ℕ} (h : k.uvmunmap cur root va n false = .ok k') :
    Untouched k k' := by
  unfold uvmunmap at h
  split at h
  · cases h
  · exact unmapLoop_keep_untouched h

theorem freewalk_untouched (h : k.freewalk root = .ok k') : Untouched k k' :=
  freewalk_rel .refl (fun _ _ _ h₁ h₂ => h₁.trans h₂) (fun _ _ _ => kfree_untouched)
    (fun _ _ _ => ⟨rfl, rfl, rfl⟩) h

theorem uvmfree_zero_untouched (h : k.uvmfree cur root 0 = .ok k') : Untouched k k' :=
  freewalk_untouched h

theorem uvmcreate_untouched {r : Option PA} (h : k.uvmcreate = (r, k')) : Untouched k k' := by
  unfold uvmcreate at h
  split at h
  · rename_i halloc
    obtain ⟨-, rfl⟩ := Prod.mk.inj h
    exact kalloc_untouched halloc
  · rename_i halloc
    obtain ⟨-, rfl⟩ := Prod.mk.inj h
    exact (kalloc_untouched halloc).trans ⟨rfl, rfl, rfl⟩

theorem procPagetable_untouched {tf : PA} {r : Option PA}
    (h : k.procPagetable cur tf = .ok (r, k')) : Untouched k k' := by
  unfold procPagetable at h
  split at h
  · rename_i hcreate
    obtain ⟨-, rfl⟩ := Prod.mk.inj (Except.ok.inj h)
    exact uvmcreate_untouched hcreate
  · rename_i hcreate
    have hk := uvmcreate_untouched hcreate
    obtain ⟨⟨ok, k₁⟩, hmap, h⟩ := bind_eq_ok.1 h
    replace hk := hk.trans (mappages_untouched hmap)
    dsimp only at h
    split at h
    · obtain ⟨k₂, hfree, h⟩ := bind_eq_ok.1 h
      obtain ⟨-, rfl⟩ := Prod.mk.inj (Except.ok.inj h)
      exact hk.trans (uvmfree_zero_untouched hfree)
    · obtain ⟨⟨ok', k₂⟩, hmap', h⟩ := bind_eq_ok.1 h
      replace hk := hk.trans (mappages_untouched hmap')
      dsimp only at h
      split at h
      · obtain ⟨k₃, hunmap, h⟩ := bind_eq_ok.1 h
        obtain ⟨k₄, hfree, h⟩ := bind_eq_ok.1 h
        obtain ⟨-, rfl⟩ := Prod.mk.inj (Except.ok.inj h)
        exact (hk.trans (uvmunmap_keep_untouched hunmap)).trans (uvmfree_zero_untouched hfree)
      · obtain ⟨-, rfl⟩ := Prod.mk.inj (Except.ok.inj h)
        exact hk

/-! ## Steps that leave the processes as they are -/

theorem SameLife.set_tables (t : Tables) (k : Kernel σ) : SameLife k { k with tables := t } :=
  fun _ => rfl

theorem freeTrapframe_life (h : k.freeTrapframe q = .ok k') :
    k'.tables = k.tables ∧ SameLife k k' := by
  unfold freeTrapframe at h
  split at h
  · obtain rfl := Except.ok.inj h
    exact ⟨rfl, .refl k⟩
  · obtain ⟨k₁, hfree, h⟩ := bind_eq_ok.1 h
    obtain rfl := Except.ok.inj h
    have hk := kfree_untouched hfree
    exact ⟨hk.tables, hk.sameLife.trans (.setProc (by intro; rfl) k₁ q)⟩

theorem countEviction_life (v : Victim) (k : Kernel σ) : SameLife k (k.countEviction v) := by
  unfold countEviction
  split
  · exact .refl k
  · exact .setProc (by intro; rfl) k _

theorem evictUpdate_life {n : ℕ} {v : Victim} {next : Next EvictPc Bool}
    (h : k.evictUpdate n v = .ok (next, k')) : k'.tables = k.tables ∧ SameLife k k' := by
  unfold evictUpdate at h
  split at h
  · obtain ⟨-, rfl⟩ := Prod.mk.inj (Except.ok.inj h)
    exact ⟨rfl, .refl k⟩
  · split at h
    · cases h
    · split at h
      · obtain ⟨-, rfl⟩ := Prod.mk.inj (Except.ok.inj h)
        exact ⟨rfl, .refl k⟩
      · obtain ⟨-, rfl⟩ := Prod.mk.inj (Except.ok.inj h)
        exact ⟨rfl, fun _ => rfl⟩

theorem evictSelect_life {n : ℕ} {next : Next EvictPc Bool}
    (h : k.evictSelect n = (next, k')) : SameLife k k' := by
  cases n with
  | zero =>
    obtain ⟨-, rfl⟩ := Prod.mk.inj h
    exact .refl k
  | succ n =>
    simp only [evictSelect] at h
    split at h <;> (obtain ⟨-, rfl⟩ := Prod.mk.inj h; exact fun _ => rfl)

theorem evictNext_life {e : EvictPc} {next : Next EvictPc Bool}
    (h : k.evictNext S e = .ok (next, k')) : SameLife k k' := by
  cases e with
  | select n => exact evictSelect_life (Except.ok.inj h)
  | update n v => exact (evictUpdate_life h).2
  | free v pa =>
    obtain ⟨k₁, hfree, h⟩ := bind_eq_ok.1 h
    obtain ⟨-, rfl⟩ := Prod.mk.inj (Except.ok.inj h)
    exact (countEviction_life v k).trans (kfree_untouched hfree).sameLife
  | abort | write | restore | undo | publish =>
    obtain ⟨-, rfl⟩ := Prod.mk.inj (Except.ok.inj h)
    exact fun _ => rfl

theorem allocPop_untouched {n : ℕ} {next : Next AllocPc (Option PA)}
    (h : k.allocPop n = (next, k')) : Untouched k k' := by
  unfold allocPop at h
  split at h
  · rename_i hpop
    obtain ⟨-, rfl⟩ := Prod.mk.inj h
    exact popFree_untouched hpop
  · rename_i hpop
    obtain ⟨-, rfl⟩ := Prod.mk.inj h
    exact (popFree_untouched hpop).trans ⟨rfl, rfl, rfl⟩

theorem allocRegister_life {va n : ℕ} {next : Next AllocPc (Option PA)}
    (h : k.allocRegister p va n pa = (next, k')) : SameLife k k' := by
  unfold allocRegister at h
  split at h <;> (obtain ⟨-, rfl⟩ := Prod.mk.inj h; exact fun _ => rfl)

theorem allocNext_life {va : ℕ} {a : AllocPc} {next : Next AllocPc (Option PA)}
    (h : k.allocNext S p va a = .ok (next, k')) : SameLife k k' := by
  cases a with
  | need | canRetry =>
    obtain ⟨-, rfl⟩ := Prod.mk.inj (Except.ok.inj h)
    exact .refl k
  | evict n again e =>
    obtain ⟨⟨next', k₁⟩, hevict, h⟩ := bind_eq_ok.1 h
    obtain ⟨-, rfl⟩ := Prod.mk.inj (Except.ok.inj h)
    exact evictNext_life hevict
  | pop n => exact (allocPop_untouched (Except.ok.inj h)).sameLife
  | register n pa => exact allocRegister_life (Except.ok.inj h)
  | giveBack n pa =>
    obtain ⟨k₁, hfree, h⟩ := bind_eq_ok.1 h
    obtain ⟨-, rfl⟩ := Prod.mk.inj (Except.ok.inj h)
    exact (kfree_untouched hfree).sameLife

theorem faultEnter_life {va : ℕ} {next : Next FaultPc (Option PA)}
    (h : k.faultEnter p va = .ok (next, k')) : k'.tables = k.tables ∧ SameLife k k' := by
  unfold faultEnter at h
  split at h
  · obtain ⟨-, rfl⟩ := Prod.mk.inj (Except.ok.inj h)
    exact ⟨rfl, .refl k⟩
  · split at h
    · obtain ⟨-, rfl⟩ := Prod.mk.inj (Except.ok.inj h)
      exact ⟨rfl, .refl k⟩
    · obtain ⟨mapped, -, h⟩ := bind_eq_ok.1 h
      split at h
      · obtain ⟨-, rfl⟩ := Prod.mk.inj (Except.ok.inj h)
        exact ⟨rfl, .refl k⟩
      · obtain ⟨-, rfl⟩ := Prod.mk.inj (Except.ok.inj h)
        exact ⟨rfl, .setProc (by intro; rfl) k p⟩

theorem readSwap_life (slot : Option SlotIdx) (pa : PA) (k : Kernel σ) :
    (k.readSwap S slot pa).2.tables = k.tables ∧ SameLife k (k.readSwap S slot pa).2 := by
  cases slot <;> exact ⟨rfl, fun _ => rfl⟩

theorem faultMap_life {va : ℕ} {found : Found} {next : Next FaultPc (Option PA)}
    (h : k.faultMap p va found pa = .ok (next, k')) : k'.tables = k.tables ∧ SameLife k k' := by
  unfold faultMap at h
  split at h
  · obtain ⟨-, rfl⟩ := Prod.mk.inj (Except.ok.inj h)
    exact ⟨rfl, .refl k⟩
  · obtain ⟨⟨ok, k₁⟩, hmap, h⟩ := bind_eq_ok.1 h
    obtain ⟨-, rfl⟩ := Prod.mk.inj (Except.ok.inj h)
    have hk := mappages_untouched hmap
    split at hk <;> exact ⟨hk.tables, hk.sameLife⟩

theorem faultFinish_life (p : ProcIdx) (va : ℕ) (found : Found) (k : Kernel σ) :
    SameLife k (k.faultFinish p va found) := by
  unfold faultFinish
  split
  · exact (SameLife.set_tables _ k).trans (.setProc (by intro; rfl) _ p)
  · exact (SameLife.set_tables _ k).trans (.setProc (by intro; rfl) _ p)

theorem faultNext_life {va : ℕ} {f : FaultPc} {next : Next FaultPc (Option PA)}
    (h : k.faultNext S p va f = .ok (next, k')) : SameLife k k' := by
  cases f with
  | enter => exact (faultEnter_life h).2
  | alloc found a =>
    obtain ⟨⟨next', k₁⟩, halloc, h⟩ := bind_eq_ok.1 h
    obtain ⟨-, rfl⟩ := Prod.mk.inj (Except.ok.inj h)
    exact allocNext_life halloc
  | read i slot pa =>
    obtain ⟨-, rfl⟩ := Prod.mk.inj (Except.ok.inj h)
    exact (readSwap_life slot pa k).2
  | map found pa => exact (faultMap_life h).2
  | dropFree pa =>
    obtain ⟨k₁, hfree, h⟩ := bind_eq_ok.1 h
    obtain ⟨-, rfl⟩ := Prod.mk.inj (Except.ok.inj h)
    exact (kfree_untouched hfree).sameLife
  | finish found pa =>
    obtain ⟨-, rfl⟩ := Prod.mk.inj (Except.ok.inj h)
    exact faultFinish_life p _ found k
  | touch | addr | lookup | drop =>
    obtain ⟨-, rfl⟩ := Prod.mk.inj (Except.ok.inj h)
    exact fun _ => rfl

theorem unmapNext_life {u : Unmapping} {next : Next Unmapping Unit}
    (h : k.unmapNext u = .ok (next, k')) : SameLife k k' := by
  unfold unmapNext at h
  split at h
  · obtain ⟨-, rfl⟩ := Prod.mk.inj (Except.ok.inj h)
    split <;> exact fun _ => rfl
  · split at h
    · cases h
    · split at h <;> (obtain ⟨-, rfl⟩ := Prod.mk.inj (Except.ok.inj h); exact .refl k)
  · obtain ⟨-, rfl⟩ := Prod.mk.inj (Except.ok.inj h)
    exact fun _ => rfl
  · obtain ⟨k₁, hfree, h⟩ := bind_eq_ok.1 h
    obtain ⟨-, rfl⟩ := Prod.mk.inj (Except.ok.inj h)
    exact (kfree_untouched hfree).sameLife.trans fun _ => rfl

theorem growAlloc_untouched {oldsz sz a n : ℕ} {next : Next GrowPc (Option ℕ)}
    (h : k.growNext cur (.alloc root oldsz sz a n) = .ok (next, k')) : Untouched k k' := by
  simp only [growNext] at h
  split at h
  · rename_i halloc
    obtain ⟨-, rfl⟩ := Prod.mk.inj (Except.ok.inj h)
    exact kalloc_untouched halloc
  · rename_i pa k₁ halloc
    have hfill : Untouched k (k₁.fill pa 0) := (kalloc_untouched halloc).trans ⟨rfl, rfl, rfl⟩
    obtain ⟨⟨ok, k₂⟩, hmap, h⟩ := bind_eq_ok.1 h
    have hk := hfill.trans (mappages_untouched hmap)
    dsimp only at h
    split at h
    · obtain ⟨k₃, hfree, h⟩ := bind_eq_ok.1 h
      obtain ⟨-, rfl⟩ := Prod.mk.inj (Except.ok.inj h)
      exact hk.trans (kfree_untouched hfree)
    · obtain ⟨-, rfl⟩ := Prod.mk.inj (Except.ok.inj h)
      exact hk

theorem growNext_life {pc : GrowPc} {next : Next GrowPc (Option ℕ)}
    (h : k.growNext cur pc = .ok (next, k')) : SameLife k k' := by
  cases pc with
  | alloc root oldsz sz a n => exact (growAlloc_untouched h).sameLife
  | unmap sz u =>
    obtain ⟨⟨next', k₁⟩, hunmap, h⟩ := bind_eq_ok.1 h
    obtain ⟨-, rfl⟩ := Prod.mk.inj (Except.ok.inj h)
    exact unmapNext_life hunmap

/-- The last step of `freeproc` makes the process unused; the others leave all processes as they
are. -/
theorem freeNext_life {pc : FreePc} {next : Next FreePc Unit}
    (h : k.freeNext cur q pc = .ok (next, k')) :
    (∃ pc', next = .go pc') ∧ SameLife k k' ∨
      pc = .reset ∧ next = .ret () ∧ k' = k.resetProc q := by
  cases pc with
  | trapframe =>
    obtain ⟨k₁, hfree, h⟩ := bind_eq_ok.1 h
    obtain ⟨rfl, rfl⟩ := Prod.mk.inj (Except.ok.inj h)
    exact .inl ⟨⟨_, rfl⟩, (freeTrapframe_life hfree).2⟩
  | slots =>
    obtain ⟨rfl, rfl⟩ := Prod.mk.inj (Except.ok.inj h)
    exact .inl ⟨⟨_, rfl⟩, fun _ => rfl⟩
  | detach =>
    simp only [freeNext] at h
    split at h
    · obtain ⟨rfl, rfl⟩ := Prod.mk.inj (Except.ok.inj h)
      exact .inl ⟨⟨_, rfl⟩, .refl k⟩
    · obtain ⟨k₁, hunmap₁, h⟩ := bind_eq_ok.1 h
      obtain ⟨k₂, hunmap₂, h⟩ := bind_eq_ok.1 h
      obtain ⟨rfl, rfl⟩ := Prod.mk.inj (Except.ok.inj h)
      refine .inl ⟨?_, ((uvmunmap_keep_untouched hunmap₁).trans
        (uvmunmap_keep_untouched hunmap₂)).sameLife⟩
      unfold freeUnmapped
      split <;> exact ⟨_, rfl⟩
  | pages u =>
    obtain ⟨⟨next', k₁⟩, hunmap, h⟩ := bind_eq_ok.1 h
    obtain ⟨rfl, rfl⟩ := Prod.mk.inj (Except.ok.inj h)
    refine .inl ⟨?_, unmapNext_life hunmap⟩
    unfold freeUnmapped
    split <;> exact ⟨_, rfl⟩
  | walk root =>
    obtain ⟨k₁, hwalk, h⟩ := bind_eq_ok.1 h
    obtain ⟨rfl, rfl⟩ := Prod.mk.inj (Except.ok.inj h)
    exact .inl ⟨⟨_, rfl⟩, (freewalk_untouched hwalk).sameLife⟩
  | reset =>
    obtain ⟨rfl, rfl⟩ := Prod.mk.inj (Except.ok.inj h)
    exact .inr ⟨rfl, rfl, rfl⟩

/-! ## `fork` -/

theorem copyResident_untouched {i : ℕ} {pte : Pte} {pc : ForkPc}
    (h : k.copyResident q i pte = .ok (pc, k')) :
    Untouched k k' ∧ (pc = .err i ∨ pc = .page (i + 1)) := by
  unfold copyResident at h
  split at h
  · rename_i halloc
    obtain ⟨rfl, rfl⟩ := Prod.mk.inj (Except.ok.inj h)
    exact ⟨kalloc_untouched halloc, .inl rfl⟩
  · rename_i pa k₁ halloc
    have hk := kalloc_untouched halloc
    split at h
    · obtain ⟨rfl, rfl⟩ := Prod.mk.inj (Except.ok.inj h)
      exact ⟨hk, .inl rfl⟩
    · have hcopy : Untouched k { k₁ with mem := Function.update k₁.mem pa (k₁.mem pte.pa) } :=
        hk.trans ⟨rfl, rfl, rfl⟩
      obtain ⟨⟨ok, k₂⟩, hmap, h⟩ := bind_eq_ok.1 h
      replace hk := hcopy.trans (mappages_untouched hmap)
      dsimp only at h
      split at h
      · obtain ⟨k₃, hfree, h⟩ := bind_eq_ok.1 h
        obtain ⟨rfl, rfl⟩ := Prod.mk.inj (Except.ok.inj h)
        exact ⟨hk.trans (kfree_untouched hfree), .inl rfl⟩
      · obtain ⟨rfl, rfl⟩ := Prod.mk.inj (Except.ok.inj h)
        exact ⟨hk, .inr rfl⟩

theorem copyRead_life {i : ℕ} {src : SlotIdx} {pc : ForkPc}
    (h : k.copyRead S i src = .ok (pc, k')) :
    k'.tables = k.tables ∧ SameLife k k' ∧ (pc = .err i ∨ ∃ tmp, pc = .reserve i tmp) := by
  unfold copyRead at h
  split at h
  · rename_i halloc
    obtain ⟨rfl, rfl⟩ := Prod.mk.inj (Except.ok.inj h)
    have hk := kalloc_untouched halloc
    exact ⟨hk.tables, hk.sameLife, .inl rfl⟩
  · rename_i tmp k₁ halloc
    have hk := kalloc_untouched halloc
    obtain ⟨htab, hlife⟩ := readSwap_life (S := S) (some src) tmp k₁
    dsimp only at h
    split at h
    · obtain ⟨k₂, hfree, h⟩ := bind_eq_ok.1 h
      obtain ⟨rfl, rfl⟩ := Prod.mk.inj (Except.ok.inj h)
      have hk₂ := kfree_untouched hfree
      exact ⟨hk₂.tables.trans (htab.trans hk.tables),
        (hk.sameLife.trans hlife).trans hk₂.sameLife, .inl rfl⟩
    · obtain ⟨rfl, rfl⟩ := Prod.mk.inj (Except.ok.inj h)
      exact ⟨htab.trans hk.tables, hk.sameLife.trans hlife, .inr ⟨tmp, rfl⟩⟩

theorem copyReserve_life {i : ℕ} {tmp : PA} {pc : ForkPc}
    (h : k.copyReserve i tmp = .ok (pc, k')) :
    SameLife k k' ∧ (k'.tables = k.tables ∧ pc = .err i ∨
      ∃ dst, k.tables.reserveSlot = some (dst, k'.tables) ∧ pc = .write i tmp dst) := by
  unfold copyReserve at h
  split at h
  · obtain ⟨k₁, hfree, h⟩ := bind_eq_ok.1 h
    obtain ⟨rfl, rfl⟩ := Prod.mk.inj (Except.ok.inj h)
    have hk := kfree_untouched hfree
    exact ⟨hk.sameLife, .inl ⟨hk.tables, rfl⟩⟩
  · rename_i dst t hreserve
    obtain ⟨rfl, rfl⟩ := Prod.mk.inj (Except.ok.inj h)
    exact ⟨fun _ => rfl, .inr ⟨dst, hreserve, rfl⟩⟩

theorem copyWrite_life {i : ℕ} {tmp : PA} {dst : SlotIdx} {pc : ForkPc}
    (h : k.copyWrite S i tmp dst = .ok (pc, k')) :
    k'.tables = k.tables ∧ SameLife k k' ∧ (pc = .unreserve i tmp dst ∨ pc = .insert i dst) := by
  unfold copyWrite at h
  dsimp only at h
  split at h
  · obtain ⟨rfl, rfl⟩ := Prod.mk.inj (Except.ok.inj h)
    exact ⟨rfl, fun _ => rfl, .inl rfl⟩
  · obtain ⟨k₁, hfree, h⟩ := bind_eq_ok.1 h
    obtain ⟨rfl, rfl⟩ := Prod.mk.inj (Except.ok.inj h)
    have hk := kfree_untouched hfree
    exact ⟨hk.tables, hk.sameLife, .inr rfl⟩

theorem copyInsert_life {i : ℕ} {dst : SlotIdx} {next : Next ForkPc Bool}
    (h : k.copyInsert q i dst = (next, k')) : (∃ pc, next = .go pc) ∧ SameLife k k' := by
  unfold copyInsert at h
  split at h <;> (obtain ⟨rfl, rfl⟩ := Prod.mk.inj h; exact ⟨⟨_, rfl⟩, fun _ => rfl⟩)

/-- The child becomes runnable at the end of the copy, or unused at the end of `freeproc`; the other
steps of `fork` leave all processes as they are. -/
theorem forkNext_life {pc : ForkPc} {next : Next ForkPc Bool}
    (h : k.forkNext S p q pc = .ok (next, k')) :
    (∃ pc', next = .go pc') ∧ SameLife k k' ∨
      (∃ i, pc = .page i) ∧ next = .ret true ∧ k' = k.forkDone p q ∨
      pc = .free .reset ∧ next = .ret false ∧ k' = k.resetProc q := by
  cases pc with
  | page i =>
    change k.copyPage p q i = _ at h
    unfold copyPage at h
    split at h
    · obtain ⟨rfl, rfl⟩ := Prod.mk.inj (Except.ok.inj h)
      exact .inr (.inl ⟨⟨i, rfl⟩, rfl, rfl⟩)
    · split at h
      · obtain ⟨rfl, rfl⟩ := Prod.mk.inj (Except.ok.inj h)
        exact .inl ⟨⟨_, rfl⟩, .refl k⟩
      · obtain ⟨⟨pc', k₁⟩, hcopy, h⟩ := bind_eq_ok.1 h
        obtain ⟨rfl, rfl⟩ := Prod.mk.inj (Except.ok.inj h)
        exact .inl ⟨⟨_, rfl⟩, (copyResident_untouched hcopy).1.sameLife⟩
  | read i src =>
    obtain ⟨⟨pc', k₁⟩, hread, h⟩ := bind_eq_ok.1 h
    obtain ⟨rfl, rfl⟩ := Prod.mk.inj (Except.ok.inj h)
    exact .inl ⟨⟨_, rfl⟩, (copyRead_life hread).2.1⟩
  | reserve i tmp =>
    obtain ⟨⟨pc', k₁⟩, hreserve, h⟩ := bind_eq_ok.1 h
    obtain ⟨rfl, rfl⟩ := Prod.mk.inj (Except.ok.inj h)
    exact .inl ⟨⟨_, rfl⟩, (copyReserve_life hreserve).1⟩
  | write i tmp dst =>
    obtain ⟨⟨pc', k₁⟩, hwrite, h⟩ := bind_eq_ok.1 h
    obtain ⟨rfl, rfl⟩ := Prod.mk.inj (Except.ok.inj h)
    exact .inl ⟨⟨_, rfl⟩, (copyWrite_life hwrite).2.1⟩
  | unreserve i tmp dst =>
    obtain ⟨k₁, hfree, h⟩ := bind_eq_ok.1 h
    obtain ⟨rfl, rfl⟩ := Prod.mk.inj (Except.ok.inj h)
    exact .inl ⟨⟨_, rfl⟩, (kfree_untouched hfree).sameLife⟩
  | undo u =>
    obtain ⟨⟨next', k₁⟩, hunmap, h⟩ := bind_eq_ok.1 h
    obtain ⟨rfl, rfl⟩ := Prod.mk.inj (Except.ok.inj h)
    exact .inl ⟨⟨_, rfl⟩, unmapNext_life hunmap⟩
  | free pc =>
    obtain ⟨⟨next', k₁⟩, hfree, h⟩ := bind_eq_ok.1 h
    rcases freeNext_life hfree with ⟨⟨pc', rfl⟩, hlife⟩ | ⟨rfl, rfl, rfl⟩
    · obtain ⟨rfl, rfl⟩ := Prod.mk.inj (Except.ok.inj h)
      exact .inl ⟨⟨_, rfl⟩, hlife⟩
    · obtain ⟨rfl, rfl⟩ := Prod.mk.inj (Except.ok.inj h)
      exact .inr (.inr ⟨rfl, rfl, rfl⟩)
  | insert i dst => exact .inl (copyInsert_life (Except.ok.inj h))
  | lookup | err =>
    obtain ⟨rfl, rfl⟩ := Prod.mk.inj (Except.ok.inj h)
    exact .inl ⟨⟨_, rfl⟩, fun _ => rfl⟩

/-- The processes other than `q` exist as they did. -/
def SameLifeBut (q : ProcIdx) (k k' : Kernel σ) : Prop :=
  ∀ p ≠ q, (k'.procs p).life = (k.procs p).life

theorem setProc_sameLifeBut (k : Kernel σ) (q : ProcIdx) (f : Proc → Proc) :
    SameLifeBut q k (k.setProc q f) := by
  intro p hp
  simp [Kernel.setProc, hp]

theorem forkDone_sameLifeBut (p q : ProcIdx) (k : Kernel σ) : SameLifeBut q k (k.forkDone p q) :=
  setProc_sameLifeBut k q _

theorem resetProc_sameLifeBut (q : ProcIdx) (k : Kernel σ) : SameLifeBut q k (k.resetProc q) :=
  setProc_sameLifeBut k q _

theorem SameLifeBut.trans (h : SameLifeBut q k k') (h' : SameLifeBut q k' k'') :
    SameLifeBut q k k'' :=
  fun p hp => (h' p hp).trans (h p hp)

theorem SameLife.but (h : SameLife k k') (q : ProcIdx) : SameLifeBut q k k' := fun p _ => h p

theorem freeBare_life (h : k.freeBare q = .ok k') :
    k'.tables = k.tables ∧ SameLifeBut q k k' ∧ (k'.procs q).life = (.unused, none) := by
  obtain ⟨k₁, hfree, h⟩ := bind_eq_ok.1 h
  obtain rfl := Except.ok.inj h
  obtain ⟨htab, hlife⟩ := freeTrapframe_life hfree
  exact ⟨htab, (hlife.but q).trans (setProc_sameLifeBut _ q _),
    by simp [resetProc, Kernel.setProc, Proc.life]⟩

/-- `allocproc` makes the process used and gives it a page table, or leaves it unused. -/
theorem allocproc_life {b : Bool} (h : k.allocproc cur q = .ok (b, k')) :
    k'.tables = k.tables ∧ SameLifeBut q k k' ∧
      (k'.procs q).state = (if b then .used else .unused) ∧
      (b = true → (k'.procs q).pagetable.isSome) := by
  unfold allocproc at h
  have hused := k.setProc_sameLifeBut q fun proc => { proc with state := .used }
  split at h
  · rename_i k₁ halloc
    have hk := kalloc_untouched halloc
    obtain ⟨k₂, hfree, h⟩ := bind_eq_ok.1 h
    obtain ⟨rfl, rfl⟩ := Prod.mk.inj (Except.ok.inj h)
    obtain ⟨htab, hlife, hq⟩ := freeBare_life hfree
    exact ⟨htab.trans hk.tables, (hused.trans (hk.sameLife.but q)).trans hlife,
      congrArg Prod.fst hq, by simp⟩
  · rename_i tf k₁ halloc
    have hk := kalloc_untouched halloc
    obtain ⟨⟨root, k₂⟩, hpt, h⟩ := bind_eq_ok.1 h
    have hk₂ := procPagetable_untouched hpt
    have htab₂ : k₂.tables = k.tables := hk₂.tables.trans hk.tables
    have hlife₂ : SameLifeBut q k k₂ :=
      ((hused.trans (hk.sameLife.but q)).trans (setProc_sameLifeBut k₁ q _)).trans
        (hk₂.sameLife.but q)
    dsimp only at h
    split at h
    · obtain ⟨k₃, hfree, h⟩ := bind_eq_ok.1 h
      obtain ⟨rfl, rfl⟩ := Prod.mk.inj (Except.ok.inj h)
      obtain ⟨htab, hlife, hq⟩ := freeBare_life hfree
      exact ⟨htab.trans htab₂, hlife₂.trans hlife, congrArg Prod.fst hq, by simp⟩
    · obtain ⟨rfl, rfl⟩ := Prod.mk.inj (Except.ok.inj h)
      refine ⟨htab₂, hlife₂.trans (setProc_sameLifeBut k₂ q _), ?_, ?_⟩
      · simp [Kernel.setProc, hk₂.procs, hk.procs]
      · simp [Kernel.setProc]

end Kernel

end Xv6Swap.Paging
