import Xv6Swap.Threads.Frames
import Xv6Swap.Threads.Reuse

/-!
# Pages that page faults have mapped

`vmfault` registers a frame before it maps the page, and an eviction drops the entry of a page that
it finds unmapped. `Installed` records, as a history variable, which pages were mapped by a page
fault and have not been unmapped or evicted since. Such a page has one entry in the frame table or
is the victim of an eviction (`installed_tracked`) in runs that meet `TracksOnce`: no eviction
selects a page between its registration and its mapping, and a page is registered only while it has
no entry and no eviction has it. Otherwise an eviction can drop the entry of a page that is then
mapped (`untracked_page`).
-/

namespace Xv6Swap.Paging

open Interleave (System Cfg)
open Raid (pgSize)
open Tables (SameEntries Begun)

/-! ## Where a process is -/

/-- The page that a page fault has registered and not yet mapped or given up. -/
def Pc.window : Pc → Option ℕ
  | .fault va (.read ..) | .fault va (.map ..) | .fault va (.drop _) => some (pgRoundDown va)
  | _ => none

/-- The page whose entry a failed page fault drops next. -/
def Pc.discards : Pc → Option ℕ
  | .fault va (.drop _) => some (pgRoundDown va)
  | _ => none

/-- The page that a page fault registers next. -/
def Pc.registers : Pc → Option ℕ
  | .fault va (.alloc _ (.register ..)) => some (pgRoundDown va)
  | _ => none

/-- A victim is selected next. -/
def Pc.selects : Pc → Bool
  | .fault _ (.alloc _ (.evict _ _ (.select _))) => true
  | _ => false

/-- The victim of an eviction that has cleared its page table entry or found it clear. -/
def EvictPc.cleared : EvictPc → Option Victim
  | .abort _ v | .write v _ _ | .restore v _ _ | .publish v _ => some v
  | .select _ | .update _ _ | .undo _ | .free _ _ => none

def Pc.cleared : Pc → Option Victim
  | .fault _ (.alloc _ (.evict _ _ e)) => e.cleared
  | _ => none

/-- The page whose frame entry `uvmunmap` drops next. -/
def Unmapping.dropping (u : Unmapping) : Option (ProcIdx × ℕ) :=
  match u.pc with
  | .frame a _ _ => u.owner.map fun q => (q, a)
  | .swap .. | .look .. | .clear .. => none

def FreePc.dropping : FreePc → Option (ProcIdx × ℕ)
  | .pages u => u.dropping
  | _ => none

def ForkPc.dropping : ForkPc → Option (ProcIdx × ℕ)
  | .undo u => u.dropping
  | .free pc => pc.dropping
  | _ => none

def GrowPc.dropping : GrowPc → Option (ProcIdx × ℕ)
  | .unmap _ u => u.dropping
  | .alloc .. => none

def Pc.dropping : Pc → Option (ProcIdx × ℕ)
  | .grow pc => pc.dropping
  | .fork _ pc => pc.dropping
  | .reap _ pc => pc.dropping
  | .user | .fault _ _ => none

theorem Pc.window_of_discards {l : Pc} {va : ℕ} (h : l.discards = some va) :
    l.window = some va := by
  unfold Pc.discards at h
  split at h
  · exact h
  · cases h

/-- A page fault that has registered its frame holds no victim and unmaps nothing. -/
theorem Pc.window_spec {l : Pc} {va : ℕ} (h : l.window = some va) :
    l.hold.victim = none ∧ l.dropping = none ∧ l.clearing = none ∧ l.registers = none ∧
      l.selects = false := by
  unfold Pc.window at h
  split at h
  · exact ⟨rfl, rfl, rfl, rfl, rfl⟩
  · exact ⟨rfl, rfl, rfl, rfl, rfl⟩
  · exact ⟨rfl, rfl, rfl, rfl, rfl⟩
  · cases h

theorem Pc.registers_spec {l : Pc} {va : ℕ} (h : l.registers = some va) :
    l.hold.victim = none ∧ l.window = none := by
  unfold Pc.registers at h
  split at h
  · exact ⟨rfl, rfl⟩
  · cases h

theorem Pc.victim_of_cleared {l : Pc} {w : Victim} (h : l.cleared = some w) :
    l.hold.victim = some w := by
  unfold Pc.cleared at h
  split at h
  · rename_i e
    cases e <;> first | exact h | cases h
  · cases h

theorem Unmapping.owner_of_dropping {u : Unmapping} {q : ProcIdx} {va : ℕ}
    (h : u.dropping = some (q, va)) : u.owner = some q := by
  unfold Unmapping.dropping at h
  split at h
  · obtain ⟨q', hq', heq⟩ := Option.map_eq_some_iff.1 h
    obtain ⟨rfl, -⟩ := Prod.mk.inj heq
    exact hq'
  all_goals cases h

theorem Pc.owner_of_dropping {l : Pc} {q : ProcIdx} {va : ℕ} (h : l.dropping = some (q, va)) :
    l.owner = some q := by
  have hfree : ∀ {pc : FreePc}, pc.dropping = some (q, va) → pc.owner = some q := by
    intro pc hpc
    cases pc with
    | pages u => exact Unmapping.owner_of_dropping hpc
    | trapframe | slots | detach | walk | reset => cases hpc
  cases l with
  | user | fault => cases h
  | grow pc =>
    cases pc with
    | unmap sz u => exact Unmapping.owner_of_dropping h
    | alloc => cases h
  | fork r pc =>
    cases pc with
    | undo u => exact Unmapping.owner_of_dropping h
    | free pc => exact hfree h
    | page | lookup | read | reserve | write | unreserve | insert | err => cases h
  | reap r pc => exact hfree h

/-- Whether the page is mapped. -/
def Kernel.mapped {σ : Type} (k : Kernel σ) (q : ProcIdx) (va : ℕ) : Bool :=
  ((k.procs q).pagetable.bind fun root => k.pteAt root va).isSome

/-! ## Steps -/

/-- What a step of `p` from `l` to `l'` does to the entries of the frame table and the victims. -/
structure TrackStep {σ : Type} (p : ProcIdx) (l l' : Pc) (k k' : Kernel σ) : Prop where
  lost : ∀ i q va, (k.tables.frameTable i).entry = (true, true, some q, va) →
    (k'.tables.frameTable i).entry ≠ (k.tables.frameTable i).entry →
    (∃ w, l'.hold.victim = some w ∧ w.proc = some q ∧ w.va = va) ∨
      q = p ∧ l.discards = some va ∧ l'.window = none ∨
      l.dropping = some (q, va) ∨ l.clearing = some q
  made : ∀ i q va, (k'.tables.frameTable i).entry = (true, true, some q, va) →
    (k'.tables.frameTable i).entry ≠ (k.tables.frameTable i).entry →
    (∀ j ≠ i, (k'.tables.frameTable j).entry = (k.tables.frameTable j).entry) ∧
      l'.hold.victim = none ∧
      ((∃ w, l.hold.victim = some w ∧ w.proc = some q ∧ w.va = va) ∨
        q = p ∧ l.registers = some va)
  ended : ∀ w, l.hold.victim = some w → l'.hold.victim = some w ∨ l'.hold.victim = none ∧
    (l.cleared = some w ∨ (k'.tables.frameTable w.frame).entry = (true, true, w.proc, w.va))
  begun : ∀ w, l'.hold.victim = some w → l.hold.victim = some w ∨ l.selects = true ∧
    (k.tables.evictBegin k.levels).1 = some w ∧
    (k.tables.frameTable w.frame).entry = (true, true, w.proc, w.va) ∧
    (k'.tables.frameTable w.frame).evictable = false ∧
    ∀ j ≠ w.frame, (k'.tables.frameTable j).entry = (k.tables.frameTable j).entry
  window : ∀ va, l'.window = some va → l.window = some va ∨ l.registers = some va ∧
    ∃ i, (k'.tables.frameTable i).entry = (true, true, some p, va)
  cleared : ∀ w, l'.cleared = some w → l.cleared = some w ∨ l.hold.victim = some w ∧
    ∀ q, w.proc = some q → k.mapped q w.va = false ∨ k'.mapped q w.va = false

/-! ### Steps that only drop entries -/

/-- Entries are dropped at most, and only those that `d` allows. -/
def DropsOnly (d : ProcIdx → ℕ → Prop) (t t' : Tables) : Prop :=
  ∀ i, (t'.frameTable i).entry = (t.frameTable i).entry ∨ (t'.frameTable i).evictable = false ∧
    ∀ q va, (t.frameTable i).entry = (true, true, some q, va) → d q va

theorem DropsOnly.of_eq {d : ProcIdx → ℕ → Prop} {t t' : Tables}
    (h : t'.frameTable = t.frameTable) :
    DropsOnly d t t' :=
  fun i => .inl (by rw [h])

theorem DropsOnly.mono {d d' : ProcIdx → ℕ → Prop} {t t' : Tables} (h : DropsOnly d t t')
    (hd : ∀ q va, d q va → d' q va) : DropsOnly d' t t' := by
  intro i
  rcases h i with heq | ⟨hnot, hall⟩
  · exact .inl heq
  · exact .inr ⟨hnot, fun q va he => hd q va (hall q va he)⟩

namespace Kernel

variable {σ : Type} {S : SwapOps σ} {k k' : Kernel σ} {p q cur : ProcIdx}

theorem unmapNext_drops {u : Unmapping} {next : Next Unmapping Unit}
    (h : k.unmapNext u = .ok (next, k')) :
    DropsOnly (fun q va => u.dropping = some (q, va)) k.tables k'.tables := by
  unfold unmapNext at h
  split at h
  · rename_i a n hpc
    have hframe := fun q => (k.tables.freeSwapEntry_frameTable q a).1
    obtain ⟨-, rfl⟩ := Prod.mk.inj (Except.ok.inj h)
    refine .of_eq ?_
    split
    · rw [← hframe]
    · rfl
  · split at h
    · cases h
    · split at h <;> (obtain ⟨-, rfl⟩ := Prod.mk.inj (Except.ok.inj h); exact .of_eq rfl)
  · rename_i a n pte hpc
    obtain ⟨-, rfl⟩ := Prod.mk.inj (Except.ok.inj h)
    intro i
    rcases Tables.freeFrameEntry_frame u.owner a k.tables i with heq | ⟨hentry, hclear⟩
    · exact .inl (congrArg Frame.entry heq)
    · refine .inr ⟨by simp only [hclear]; rfl, fun q va he => ?_⟩
      obtain ⟨-, -, ho, rfl⟩ : true = true ∧ true = true ∧ u.owner = some q ∧ a = va := by
        simpa using hentry.symm.trans he
      simp [Unmapping.dropping, hpc, ho]
  · obtain ⟨k₁, hfree, h⟩ := bind_eq_ok.1 h
    obtain ⟨-, rfl⟩ := Prod.mk.inj (Except.ok.inj h)
    exact .of_eq (congrArg Tables.frameTable (kfree_untouched hfree).tables)

theorem freeNext_drops {pc : FreePc} {next : Next FreePc Unit}
    (h : k.freeNext cur q pc = .ok (next, k')) :
    DropsOnly (fun r va => pc.dropping = some (r, va) ∨ pc = .slots ∧ r = q)
      k.tables k'.tables := by
  cases pc with
  | trapframe =>
    obtain ⟨k₁, hfree, h⟩ := bind_eq_ok.1 h
    obtain ⟨-, rfl⟩ := Prod.mk.inj (Except.ok.inj h)
    exact .of_eq (congrArg Tables.frameTable (freeTrapframe_life hfree).1)
  | slots =>
    have hk : { k with tables := k.tables.freeProcSwapSlots q } = k' :=
      (Prod.mk.inj (Except.ok.inj h)).2
    have htab : k'.tables = k.tables.freeProcSwapSlots q := by rw [← hk]
    have hf := k.tables.freeProcSwapSlots_spec q
    rw [← htab] at hf
    intro i
    rw [hf.frame]
    split
    · rename_i hown
      refine .inr ⟨rfl, fun r va he => .inr ⟨rfl, ?_⟩⟩
      have hproc : (k.tables.frameTable i).proc = some r := congrArg (·.2.2.1) he
      exact Option.some.inj (hproc.symm.trans hown.2)
    · exact .inl rfl
  | detach =>
    simp only [freeNext] at h
    split at h
    · obtain ⟨-, rfl⟩ := Prod.mk.inj (Except.ok.inj h)
      exact .of_eq rfl
    · obtain ⟨k₁, hunmap₁, h⟩ := bind_eq_ok.1 h
      obtain ⟨k₂, hunmap₂, h⟩ := bind_eq_ok.1 h
      obtain ⟨-, rfl⟩ := Prod.mk.inj (Except.ok.inj h)
      exact .of_eq (congrArg Tables.frameTable
        ((uvmunmap_keep_untouched hunmap₁).trans (uvmunmap_keep_untouched hunmap₂)).tables)
  | pages u =>
    obtain ⟨⟨next', k₁⟩, hunmap, h⟩ := bind_eq_ok.1 h
    obtain ⟨-, rfl⟩ := Prod.mk.inj (Except.ok.inj h)
    exact (unmapNext_drops hunmap).mono fun _ _ => .inl
  | walk root =>
    obtain ⟨k₁, hwalk, h⟩ := bind_eq_ok.1 h
    obtain ⟨-, rfl⟩ := Prod.mk.inj (Except.ok.inj h)
    exact .of_eq (congrArg Tables.frameTable (freewalk_untouched hwalk).tables)
  | reset =>
    obtain ⟨-, rfl⟩ := Prod.mk.inj (Except.ok.inj h)
    exact .of_eq rfl

theorem forkNext_drops {pc : ForkPc} {next : Next ForkPc Bool}
    (h : k.forkNext S p q pc = .ok (next, k')) :
    DropsOnly (fun r va => pc.dropping = some (r, va) ∨ pc = .free .slots ∧ r = q)
      k.tables k'.tables := by
  cases pc with
  | page i =>
    change k.copyPage p q i = _ at h
    unfold copyPage at h
    split at h
    · obtain ⟨-, rfl⟩ := Prod.mk.inj (Except.ok.inj h)
      exact .of_eq rfl
    · split at h
      · obtain ⟨-, rfl⟩ := Prod.mk.inj (Except.ok.inj h)
        exact .of_eq rfl
      · obtain ⟨⟨pc, k₁⟩, hcopy, h⟩ := bind_eq_ok.1 h
        obtain ⟨-, rfl⟩ := Prod.mk.inj (Except.ok.inj h)
        exact .of_eq (congrArg Tables.frameTable (copyResident_untouched hcopy).1.tables)
  | lookup i | err i =>
    obtain ⟨-, rfl⟩ := Prod.mk.inj (Except.ok.inj h)
    exact .of_eq rfl
  | read i src =>
    obtain ⟨⟨pc, k₁⟩, hread, h⟩ := bind_eq_ok.1 h
    obtain ⟨-, rfl⟩ := Prod.mk.inj (Except.ok.inj h)
    exact .of_eq (congrArg Tables.frameTable (copyRead_life hread).1)
  | reserve i tmp =>
    obtain ⟨⟨pc, k₁⟩, hreserve, h⟩ := bind_eq_ok.1 h
    obtain ⟨-, rfl⟩ := Prod.mk.inj (Except.ok.inj h)
    obtain ⟨-, ⟨htab, -⟩ | ⟨dst, hslot, -⟩⟩ := copyReserve_life hreserve
    · exact .of_eq (congrArg Tables.frameTable htab)
    · obtain ⟨-, heq⟩ := Tables.reserveSlot_eq_some hslot
      exact .of_eq (by rw [heq]; rfl)
  | write i tmp dst =>
    obtain ⟨⟨pc, k₁⟩, hwrite, h⟩ := bind_eq_ok.1 h
    obtain ⟨-, rfl⟩ := Prod.mk.inj (Except.ok.inj h)
    exact .of_eq (congrArg Tables.frameTable (copyWrite_life hwrite).1)
  | unreserve i tmp dst =>
    obtain ⟨k₁, hfree, h⟩ := bind_eq_ok.1 h
    obtain ⟨-, rfl⟩ := Prod.mk.inj (Except.ok.inj h)
    exact .of_eq (by rw [(kfree_untouched hfree).tables]; rfl)
  | insert i dst =>
    have hins := Except.ok.inj h
    unfold copyInsert at hins
    cases heq : k.tables.insertSwap q (i * pgSize) dst with
    | mk b t =>
      simp only [heq] at hins
      rcases insertSwap_eq heq with ⟨j, -, rfl, rfl⟩ | ⟨rfl, rfl⟩ <;>
        (obtain ⟨-, rfl⟩ := Prod.mk.inj hins; exact .of_eq rfl)
  | undo u =>
    obtain ⟨⟨next', k₁⟩, hunmap, h⟩ := bind_eq_ok.1 h
    obtain ⟨-, rfl⟩ := Prod.mk.inj (Except.ok.inj h)
    exact (unmapNext_drops hunmap).mono fun _ _ => .inl
  | free pc =>
    obtain ⟨⟨next', k₁⟩, hfree, h⟩ := bind_eq_ok.1 h
    have hk : k₁ = k' := by
      cases next' <;> exact (Prod.mk.inj (Except.ok.inj h)).2
    refine hk ▸ (freeNext_drops hfree).mono fun r va hd => ?_
    rcases hd with hd | ⟨rfl, rfl⟩
    · exact .inl hd
    · exact .inr ⟨rfl, rfl⟩

theorem growNext_drops {pc : GrowPc} {next : Next GrowPc (Option ℕ)}
    (h : k.growNext cur pc = .ok (next, k')) :
    DropsOnly (fun q va => pc.dropping = some (q, va)) k.tables k'.tables := by
  cases pc with
  | alloc root oldsz sz a n =>
    exact .of_eq (congrArg Tables.frameTable (growAlloc_untouched h).tables)
  | unmap sz u =>
    obtain ⟨⟨next', k₁⟩, hunmap, h⟩ := bind_eq_ok.1 h
    obtain ⟨-, rfl⟩ := Prod.mk.inj (Except.ok.inj h)
    exact unmapNext_drops hunmap

end Kernel

/-! ### All steps -/

namespace TrackStep

variable {σ : Type} {k k' : Kernel σ} {p : ProcIdx} {l l' : Pc}

/-- Steps that drop entries at most, of a process that holds no victim. -/
theorem of_drops (hl : l.hold.victim = none) (hl' : l'.hold.victim = none)
    (hwindow : l'.window = none)
    (hdrops : DropsOnly (fun q va => l.dropping = some (q, va) ∨ l.clearing = some q)
      k.tables k'.tables) : TrackStep p l l' k k' where
  lost i q va hi hne := by
    rcases hdrops i with heq | ⟨-, hall⟩
    · exact absurd heq hne
    · exact .inr (.inr (hall q va hi))
  made i q va hi hne := by
    rcases hdrops i with heq | ⟨hnot, -⟩
    · exact absurd heq hne
    · simp only [Frame.entry, Prod.mk.injEq] at hi
      simp [Frame.evictable, hi] at hnot
  ended w hw := by simp [hl] at hw
  begun w hw := by simp [hl'] at hw
  window va hva := by simp [hwindow] at hva
  cleared w hw := by simp [Pc.victim_of_cleared hw] at hl'

/-- Steps that leave the entries and the victim alone. -/
theorem quiet (hframe : ∀ i, (k'.tables.frameTable i).entry = (k.tables.frameTable i).entry)
    (hvictim : l'.hold.victim = l.hold.victim)
    (hwindow : l'.window = none ∨ l'.window = l.window)
    (hcleared : l'.cleared = none ∨ l'.cleared = l.cleared) : TrackStep p l l' k k' where
  lost i q va _ hne := absurd (hframe i) hne
  made i q va _ hne := absurd (hframe i) hne
  ended w hw := .inl (hvictim.trans hw)
  begun w hw := .inl (hvictim.symm.trans hw)
  window va hva := by
    rcases hwindow with h | h
    · simp [h] at hva
    · exact .inl (h ▸ hva)
  cleared w hw := by
    rcases hcleared with h | h
    · simp [h] at hw
    · exact .inl (h ▸ hw)

/-- An eviction looks at the page table entry of its victim. -/
theorem of_update (hframe : ∀ i, (k'.tables.frameTable i).entry = (k.tables.frameTable i).entry)
    (hvictim : l'.hold.victim = l.hold.victim) (hwindow : l'.window = none)
    (hcleared : ∀ w, l'.cleared = some w → l.hold.victim = some w ∧
      ∀ q, w.proc = some q → k.mapped q w.va = false ∨ k'.mapped q w.va = false) :
    TrackStep p l l' k k' where
  lost i q va _ hne := absurd (hframe i) hne
  made i q va _ hne := absurd (hframe i) hne
  ended w hw := .inl (hvictim.trans hw)
  begun w hw := .inl (hvictim.symm.trans hw)
  window va hva := by simp [hwindow] at hva
  cleared w hw := .inr (hcleared w hw)

/-- A failed page fault drops the entry of its page. -/
theorem of_discards {va : ℕ} (hframe : ∀ i, k'.tables.frameTable i = k.tables.frameTable i ∨
      (k.tables.frameTable i).entry = (true, true, some p, va) ∧ k'.tables.frameTable i = .clear)
    (hl : l.hold.victim = none) (hdiscards : l.discards = some va) (hl' : l'.hold.victim = none)
    (hwindow : l'.window = none) : TrackStep p l l' k k' where
  lost i q va' hi hne := by
    rcases hframe i with heq | ⟨hentry, -⟩
    · exact absurd (by rw [heq]) hne
    · obtain ⟨rfl, rfl⟩ : p = q ∧ va = va' := by simpa using hentry.symm.trans hi
      exact .inr (.inl ⟨rfl, hdiscards, hwindow⟩)
  made i q va' hi hne := by
    rcases hframe i with heq | ⟨-, hclear⟩
    · exact absurd (by rw [heq]) hne
    · rw [hclear] at hi
      simp [Frame.entry, Frame.clear] at hi
  ended w hw := by simp [hl] at hw
  begun w hw := by simp [hl'] at hw
  window va' hva := by simp [hwindow] at hva
  cleared w hw := by simp [Pc.victim_of_cleared hw] at hl'

/-- The end of an eviction. -/
theorem of_settled {w : Victim} {f : Frame} (hl : l.hold.victim = some w)
    (hl' : l'.hold.victim = none) (hwindow : l'.window = none)
    (hframe : k'.tables.frameTable = Function.update k.tables.frameTable w.frame f)
    (hf : f.evictable = false ∧ l.cleared = some w ∨ f.entry = (true, true, w.proc, w.va))
    (hold : (k.tables.frameTable w.frame).evictable = false) : TrackStep p l l' k k' where
  lost i q va hi hne := by
    have hiw : i ≠ w.frame := by
      rintro rfl
      simp only [Frame.entry, Prod.mk.injEq] at hi
      simp [Frame.evictable, hi] at hold
    exact absurd (by rw [hframe, Function.update_of_ne hiw]) hne
  made i q va hi hne := by
    by_cases hiw : i = w.frame
    · subst hiw
      rw [hframe, Function.update_self] at hi
      refine ⟨fun j hj => by rw [hframe, Function.update_of_ne hj], hl', .inl ⟨w, hl, ?_⟩⟩
      rcases hf with ⟨hnot, -⟩ | hentry
      · simp only [Frame.entry, Prod.mk.injEq] at hi
        simp [Frame.evictable, hi] at hnot
      · simpa using hentry.symm.trans hi
    · exact absurd (by rw [hframe, Function.update_of_ne hiw]) hne
  ended w' hw' := by
    obtain rfl := Option.some.inj (hl.symm.trans hw')
    refine .inr ⟨hl', ?_⟩
    rcases hf with ⟨-, hc⟩ | hentry
    · exact .inl hc
    · exact .inr (by rw [hframe, Function.update_self, hentry])
  begun w' hw' := by simp [hl'] at hw'
  window va hva := by simp [hwindow] at hva
  cleared w' hw' := by simp [Pc.victim_of_cleared hw'] at hl'

/-- The start of an eviction. -/
theorem of_begun {w : Victim} (hl : l.hold.victim = none) (hselects : l.selects = true)
    (hl' : l'.hold.victim = some w) (hwindow : l'.window = none) (hcleared : l'.cleared = none)
    (hbegin : (k.tables.evictBegin k.levels).1 = some w) (hb : Begun k.tables k'.tables w) :
    TrackStep p l l' k k' where
  lost i q va hi hne := by
    by_cases hiw : i = w.frame
    · subst hiw
      have hentry : w.proc = some q ∧ w.va = va := by simpa using hb.entry.symm.trans hi
      exact .inl ⟨w, hl', hentry⟩
    · exact absurd (hb.frame i hiw) hne
  made i q va hi hne := by
    by_cases hiw : i = w.frame
    · subst hiw
      rw [hb.hidden] at hi
      simp [Frame.entry] at hi
    · exact absurd (hb.frame i hiw) hne
  ended w' hw' := by simp [hl] at hw'
  begun w' hw' := by
    obtain rfl := Option.some.inj (hl'.symm.trans hw')
    exact .inr ⟨hselects, hbegin, hb.entry, by rw [hb.hidden]; rfl, hb.frame⟩
  window va hva := by simp [hwindow] at hva
  cleared w' hw' := by simp [hcleared] at hw'

/-- A frame is registered. -/
theorem of_register {va : ℕ} (hl : l.hold.victim = none) (hregisters : l.registers = some va)
    (hl' : l'.hold.victim = none) (hwindow : l'.window = some va)
    (hreg : k.tables.registerUserFrame p va = some k'.tables) : TrackStep p l l' k k' := by
  obtain ⟨i, hi, heq⟩ := Tables.registerUserFrame_eq_some hreg
  have hself : (k'.tables.frameTable i).entry = (true, true, some p, va) := by
    rw [heq]
    simp [Tables.setFrame, Frame.entry]
  have hother : ∀ j ≠ i, (k'.tables.frameTable j).entry = (k.tables.frameTable j).entry := by
    intro j hj
    rw [heq]
    simp [Tables.setFrame, hj]
  refine ⟨fun j q va hj hne => ?_, fun j q va' hj hne => ?_, fun w hw => ?_, fun w hw => ?_,
    fun va' hva => ?_, fun w hw => ?_⟩
  · have hji : j ≠ i := by
      rintro rfl
      simp only [Frame.entry, Prod.mk.injEq] at hj
      simp [hj] at hi
    exact absurd (hother j hji) hne
  · by_cases hji : j = i
    · subst hji
      obtain ⟨rfl, rfl⟩ : p = q ∧ va = va' := by simpa using hself.symm.trans hj
      exact ⟨hother, hl', .inr ⟨rfl, hregisters⟩⟩
    · exact absurd (hother j hji) hne
  · simp [hl] at hw
  · simp [hl'] at hw
  · obtain rfl := Option.some.inj (hwindow.symm.trans hva)
    exact .inr ⟨hregisters, i, hself⟩
  · simp [Pc.victim_of_cleared hw] at hl'

end TrackStep

namespace Kernel

variable {σ : Type} {S : SwapOps σ} {k k' : Kernel σ} {p : ProcIdx} {va n m : ℕ} {found : Found}
  {again : Bool}

/-- Where a page fault is after a step of its eviction. -/
theorem evicted_pc (next : Next EvictPc Bool) :
    let l' := (faultAlloced found (allocEvicted n again next)).getD (Pc.fault va) .user
    l'.hold.victim = next.getD EvictPc.victim none ∧ l'.window = none ∧
      l'.cleared = next.getD EvictPc.cleared none := by
  match next, again, n with
  | .go e, _, _ => exact ⟨rfl, rfl, rfl⟩
  | .ret false, _, _ => exact ⟨rfl, rfl, rfl⟩
  | .ret true, false, _ => exact ⟨rfl, rfl, rfl⟩
  | .ret true, true, 0 => exact ⟨rfl, rfl, rfl⟩
  | .ret true, true, _ + 1 => exact ⟨rfl, rfl, rfl⟩

/-- An eviction that finds its page unmapped, or unmaps it. -/
theorem evictUpdate_mapped {v : Victim} {next : Next EvictPc Bool}
    (h : k.evictUpdate m v = .ok (next, k')) :
    (next = .go (.abort m v) ∨ ∃ root pte, next = .go (.write v root pte)) ∧
      ∀ q, v.proc = some q → k.mapped q v.va = false ∨ k'.mapped q v.va = false := by
  unfold evictUpdate at h
  split at h
  · rename_i hroot
    obtain ⟨rfl, rfl⟩ := Prod.mk.inj (Except.ok.inj h)
    refine ⟨.inl rfl, fun q hq => .inl ?_⟩
    replace hroot : (k.procs q).pagetable = none := by simpa [victimRoot, hq] using hroot
    simp [mapped, hroot]
  · rename_i root hroot
    have hroot' : ∀ q, v.proc = some q → (k.procs q).pagetable = some root :=
      fun q hq => by simpa [victimRoot, hq] using hroot
    split at h
    · cases h
    · split at h
      · rename_i hpte
        obtain ⟨rfl, rfl⟩ := Prod.mk.inj (Except.ok.inj h)
        exact ⟨.inl rfl, fun q hq => .inl (by simp [mapped, hroot' q hq, hpte])⟩
      · rename_i pte hpte
        obtain ⟨rfl, rfl⟩ := Prod.mk.inj (Except.ok.inj h)
        refine ⟨.inr ⟨root, pte, rfl⟩, fun q hq => .inr ?_⟩
        simp [mapped, hroot' q hq, pteAt, setLeaf, setPt]

/-- The steps of an eviction. -/
theorem evictNext_track {e : EvictPc} {next : Next EvictPc Bool} {l' : Pc}
    (hhidden : ∀ w, e.victim = some w → (k.tables.frameTable w.frame).evictable = false)
    (h : k.evictNext S e = .ok (next, k'))
    (hl' : l'.hold.victim = next.getD EvictPc.victim none ∧ l'.window = none ∧
      l'.cleared = next.getD EvictPc.cleared none) :
    TrackStep p (.fault va (.alloc found (.evict n again e))) l' k k' := by
  obtain ⟨hvictim, hwindow, hcleared⟩ := hl'
  cases e with
  | select m =>
    cases m with
    | zero =>
      obtain ⟨rfl, rfl⟩ := Prod.mk.inj (Except.ok.inj h)
      exact .quiet (fun _ => rfl) hvictim (.inl hwindow) (.inl hcleared)
    | succ m =>
      have hsel : k.evictSelect (m + 1) = (next, k') := Except.ok.inj h
      simp only [evictSelect] at hsel
      split at hsel
      · rename_i t hbegin
        obtain ⟨rfl, rfl⟩ := Prod.mk.inj hsel
        exact .quiet (Tables.evictBegin_none hbegin).frame hvictim (.inl hwindow) (.inl hcleared)
      · rename_i w t hbegin
        obtain ⟨rfl, rfl⟩ := Prod.mk.inj hsel
        exact .of_begun rfl rfl hvictim hwindow hcleared (by rw [hbegin])
          (Tables.evictBegin_some hbegin)
  | update m v =>
    have htab := (evictUpdate_life h).1
    obtain ⟨hnext, hmapped⟩ := evictUpdate_mapped h
    have hv : l'.hold.victim = some v := by
      rcases hnext with rfl | ⟨root, pte, rfl⟩ <;> exact hvictim
    have hc : l'.cleared = some v := by
      rcases hnext with rfl | ⟨root, pte, rfl⟩ <;> exact hcleared
    refine .of_update (fun i => by rw [htab]) hv hwindow fun w hw => ?_
    obtain rfl := Option.some.inj (hc.symm.trans hw)
    exact ⟨rfl, hmapped⟩
  | abort m v =>
    obtain ⟨rfl, rfl⟩ := Prod.mk.inj (Except.ok.inj h)
    exact .of_settled (w := v) (f := .clear) rfl hvictim hwindow rfl (.inl ⟨rfl, rfl⟩)
      (hhidden v rfl)
  | write v root pte =>
    obtain ⟨rfl, rfl⟩ := Prod.mk.inj (Except.ok.inj h)
    refine .quiet (fun _ => rfl) ?_ (.inl hwindow) (.inr ?_)
    · rw [hvictim]
      dsimp only [Next.getD]
      split <;> rfl
    · rw [hcleared]
      dsimp only [Next.getD]
      split <;> rfl
  | restore v root pte =>
    obtain ⟨rfl, rfl⟩ := Prod.mk.inj (Except.ok.inj h)
    exact .quiet (fun _ => rfl) hvictim (.inl hwindow) (.inl hcleared)
  | undo v =>
    obtain ⟨rfl, rfl⟩ := Prod.mk.inj (Except.ok.inj h)
    exact .of_settled (w := v) (f := ⟨true, true, v.proc, v.va, true⟩) rfl hvictim hwindow rfl
      (.inr rfl) (hhidden v rfl)
  | publish v pa =>
    obtain ⟨rfl, rfl⟩ := Prod.mk.inj (Except.ok.inj h)
    exact .of_settled (w := v) (f := { k.tables.frameTable v.frame with used := false }) rfl
      hvictim hwindow rfl (.inl ⟨rfl, rfl⟩) (hhidden v rfl)
  | free v pa =>
    obtain ⟨k₁, hfree, h⟩ := bind_eq_ok.1 h
    obtain ⟨rfl, rfl⟩ := Prod.mk.inj (Except.ok.inj h)
    have htab : k₁.tables = k.tables := by
      rw [(kfree_untouched hfree).tables]
      unfold countEviction
      split <;> rfl
    exact .quiet (fun i => by rw [htab]) hvictim (.inl hwindow) (.inl hcleared)

/-- The steps of `kalloc_user` in a page fault. -/
theorem allocNext_track {a : AllocPc} {next : Next AllocPc (Option PA)}
    (hhidden : ∀ w, a.victim = some w → (k.tables.frameTable w.frame).evictable = false)
    (h : k.allocNext S p (pgRoundDown va) a = .ok (next, k')) :
    TrackStep p (.fault va (.alloc found a)) ((faultAlloced found next).getD (Pc.fault va) .user)
      k k' := by
  cases a with
  | need n =>
    obtain ⟨rfl, rfl⟩ := Prod.mk.inj (Except.ok.inj h)
    refine .quiet (fun _ => rfl) ?_ (.inl rfl) (.inl ?_) <;>
      (dsimp only [faultAlloced, Next.getD]; split <;> rfl)
  | evict n again e =>
    obtain ⟨⟨next', k₁⟩, hevict, h⟩ := bind_eq_ok.1 h
    obtain ⟨rfl, rfl⟩ := Prod.mk.inj (Except.ok.inj h)
    exact evictNext_track hhidden hevict (evicted_pc next')
  | pop n =>
    have hpop : k.allocPop n = (next, k') := Except.ok.inj h
    have htab := (allocPop_untouched hpop).tables
    unfold allocPop at hpop
    split at hpop <;>
      (obtain ⟨rfl, -⟩ := Prod.mk.inj hpop
       exact .quiet (fun i => by rw [htab]) rfl (.inl rfl) (.inl rfl))
  | canRetry n =>
    obtain ⟨rfl, rfl⟩ := Prod.mk.inj (Except.ok.inj h)
    split <;> exact .quiet (fun _ => rfl) rfl (.inl rfl) (.inl rfl)
  | register n pa =>
    have hreg : k.allocRegister p (pgRoundDown va) n pa = (next, k') := Except.ok.inj h
    unfold allocRegister at hreg
    split at hreg
    · rename_i t ht
      obtain ⟨rfl, rfl⟩ := Prod.mk.inj hreg
      cases found with
      | none => exact .of_register rfl rfl rfl rfl ht
      | some x => exact .of_register rfl rfl rfl rfl ht
    · obtain ⟨rfl, rfl⟩ := Prod.mk.inj hreg
      exact .quiet (fun _ => rfl) rfl (.inl rfl) (.inl rfl)
  | giveBack n pa =>
    obtain ⟨k₁, hfree, h⟩ := bind_eq_ok.1 h
    obtain ⟨rfl, rfl⟩ := Prod.mk.inj (Except.ok.inj h)
    exact .quiet (fun i => by rw [(kfree_untouched hfree).tables]) rfl (.inl rfl) (.inl rfl)

/-- A page fault that has mapped its page, or given up. -/
theorem faultMap_next {f : Found} {pa : PA} {next : Next FaultPc (Option PA)}
    (h : k.faultMap p va f pa = .ok (next, k')) :
    next = .ret none ∨ next = .go (.finish f pa) ∨ next = .go (.drop pa) := by
  unfold faultMap at h
  split at h
  · obtain ⟨rfl, -⟩ := Prod.mk.inj (Except.ok.inj h)
    exact .inl rfl
  · obtain ⟨⟨ok, k₁⟩, -, h⟩ := bind_eq_ok.1 h
    obtain ⟨rfl, -⟩ := Prod.mk.inj (Except.ok.inj h)
    cases ok
    · exact .inr (.inr rfl)
    · exact .inr (.inl rfl)

theorem faultEnter_next {next : Next FaultPc (Option PA)}
    (h : k.faultEnter p va = .ok (next, k')) :
    next = .ret none ∨ next = .go .touch ∨ next = .go .lookup := by
  unfold faultEnter at h
  split at h
  · obtain ⟨rfl, -⟩ := Prod.mk.inj (Except.ok.inj h)
    exact .inl rfl
  · split at h
    · obtain ⟨rfl, -⟩ := Prod.mk.inj (Except.ok.inj h)
      exact .inl rfl
    · obtain ⟨mapped, -, h⟩ := bind_eq_ok.1 h
      split at h <;> (obtain ⟨rfl, -⟩ := Prod.mk.inj (Except.ok.inj h); simp)

/-- The steps of a page fault. -/
theorem faultNext_track {f : FaultPc} {next : Next FaultPc (Option PA)}
    (hhidden : ∀ w, f.victim = some w → (k.tables.frameTable w.frame).evictable = false)
    (h : k.faultNext S p va f = .ok (next, k')) :
    TrackStep p (.fault va f) (next.getD (Pc.fault va) .user) k k' := by
  cases f with
  | enter =>
    have htab := (faultEnter_life h).1
    rcases faultEnter_next h with rfl | rfl | rfl <;>
      exact .quiet (fun i => by rw [htab]) rfl (.inl rfl) (.inl rfl)
  | touch =>
    obtain ⟨rfl, rfl⟩ := Prod.mk.inj (Except.ok.inj h)
    exact .quiet (Tables.sameEntries_setRefBit _ p _).frame rfl (.inl rfl) (.inl rfl)
  | addr =>
    obtain ⟨rfl, rfl⟩ := Prod.mk.inj (Except.ok.inj h)
    exact .quiet (fun _ => rfl) rfl (.inl rfl) (.inl rfl)
  | lookup =>
    rw [faultNext_lookup] at h
    obtain ⟨rfl, rfl⟩ := Prod.mk.inj (Except.ok.inj h)
    exact .quiet (fun _ => rfl) rfl (.inl rfl) (.inl rfl)
  | alloc found a =>
    obtain ⟨⟨next', k₁⟩, halloc, h⟩ := bind_eq_ok.1 h
    obtain ⟨rfl, rfl⟩ := Prod.mk.inj (Except.ok.inj h)
    exact allocNext_track hhidden halloc
  | read i slot pa =>
    have htab := (readSwap_life (S := S) slot pa k).1
    rw [faultNext_read] at h
    obtain ⟨rfl, rfl⟩ := Prod.mk.inj (Except.ok.inj h)
    cases (k.readSwap S slot pa).1 <;>
      exact .quiet (fun i => by rw [htab]) rfl (.inr rfl) (.inl rfl)
  | map found pa =>
    have htab := (faultMap_life h).1
    rcases faultMap_next h with rfl | rfl | rfl
    · exact .quiet (fun i => by rw [htab]) rfl (.inl rfl) (.inl rfl)
    · exact .quiet (fun i => by rw [htab]) rfl (.inl rfl) (.inl rfl)
    · exact .quiet (fun i => by rw [htab]) rfl (.inr rfl) (.inl rfl)
  | drop pa =>
    obtain ⟨rfl, rfl⟩ := Prod.mk.inj (Except.ok.inj h)
    exact .of_discards (Tables.freeFrameEntry_frame _ _ _) rfl rfl rfl rfl
  | dropFree pa =>
    obtain ⟨k₁, hfree, h⟩ := bind_eq_ok.1 h
    obtain ⟨rfl, rfl⟩ := Prod.mk.inj (Except.ok.inj h)
    exact .quiet (fun i => by rw [(kfree_untouched hfree).tables]) rfl (.inl rfl) (.inl rfl)
  | finish found pa =>
    obtain ⟨rfl, rfl⟩ := Prod.mk.inj (Except.ok.inj h)
    refine .quiet (fun i => ?_) rfl (.inl rfl) (.inl rfl)
    rw [← (k.tables.sameEntries_setRefBit p (pgRoundDown va)).frame i]
    match found with
    | some (j, some s) => rfl
    | some (j, none) => rfl
    | none => rfl

end Kernel

section Steps

variable {σ : Type} {S : SwapOps σ} {g g' : Shared σ} {p q : ProcIdx} {l l' : Pc} {a : Act}

theorem userNext_window (h : g.userNext p a = some (l', g')) : l'.window = none := by
  cases a with
  | go => cases h
  | fault va | exit status =>
    obtain ⟨rfl, -⟩ := Prod.mk.inj (Option.some.inj h)
    rfl
  | store va b =>
    obtain ⟨g₁, -, h⟩ := Option.map_eq_some_iff.1 h
    obtain ⟨rfl, -⟩ := Prod.mk.inj h
    rfl
  | sbrk n eager =>
    change g.userSbrk p n eager = _ at h
    unfold Shared.userSbrk at h
    split at h
    · rcases Shared.proceed_eq_some h with ⟨pc, k, -, rfl, -⟩ | ⟨sz, k, -, rfl, -⟩ <;> rfl
    · split at h
      · cases h
      · obtain ⟨rfl, -⟩ := Prod.mk.inj (Option.some.inj h)
        rfl
  | fork q =>
    obtain ⟨-, h⟩ := Option.ite_none_right_eq_some.1 h
    unfold Shared.userFork at h
    split at h
    · cases h
    all_goals
      obtain ⟨rfl, -⟩ := Prod.mk.inj (Option.some.inj h)
      rfl
  | wait q =>
    obtain ⟨-, h⟩ := Option.ite_none_right_eq_some.1 h
    obtain ⟨rfl, -⟩ := Prod.mk.inj (Option.some.inj h)
    rfl

theorem kernelNext_track
    (hhidden : ∀ w, l.hold.victim = some w → (g.kern.tables.frameTable w.frame).evictable = false)
    (h : g.kernelNext S p l = some (l', g')) : TrackStep p l l' g.kern g'.kern := by
  cases l with
  | user => cases h
  | fault va pc =>
    rcases Shared.proceed_eq_some h with ⟨pc', k, hr, rfl, rfl⟩ | ⟨r, k, hr, rfl, rfl⟩
    · exact Kernel.faultNext_track hhidden hr
    · exact Kernel.faultNext_track hhidden hr
  | grow pc =>
    rcases Shared.proceed_eq_some h with ⟨pc', k, hr, rfl, rfl⟩ | ⟨sz, k, hr, rfl, rfl⟩
    · exact .of_drops rfl rfl rfl ((Kernel.growNext_drops hr).mono fun _ _ => .inl)
    · refine .of_drops rfl rfl rfl ?_
      rw [setSize_tables]
      exact (Kernel.growNext_drops hr).mono fun _ _ => .inl
  | fork q pc =>
    have hdrops : ∀ {next k}, g.kern.forkNext S p q pc = .ok (next, k) →
        DropsOnly (fun r va => (Pc.fork q pc).dropping = some (r, va) ∨
          (Pc.fork q pc).clearing = some r) g.kern.tables k.tables := by
      intro next k hr
      refine (Kernel.forkNext_drops hr).mono fun r va hd => ?_
      rcases hd with hd | ⟨rfl, rfl⟩
      · exact .inl hd
      · exact .inr rfl
    rcases Shared.proceed_eq_some h with ⟨pc', k, hr, rfl, rfl⟩ | ⟨r, k, hr, rfl, rfl⟩
    · exact .of_drops rfl rfl rfl (hdrops hr)
    · exact .of_drops rfl rfl rfl (hdrops hr)
  | reap q pc =>
    have hdrops : ∀ {next k}, g.kern.freeNext p q pc = .ok (next, k) →
        DropsOnly (fun r va => (Pc.reap q pc).dropping = some (r, va) ∨
          (Pc.reap q pc).clearing = some r) g.kern.tables k.tables := by
      intro next k hr
      refine (Kernel.freeNext_drops hr).mono fun r va hd => ?_
      rcases hd with hd | ⟨rfl, rfl⟩
      · exact .inl hd
      · exact .inr rfl
    rcases Shared.proceed_eq_some h with ⟨pc', k, hr, rfl, rfl⟩ | ⟨r, k, hr, rfl, rfl⟩
    · exact .of_drops rfl rfl rfl (hdrops hr)
    · exact .of_drops rfl rfl rfl (hdrops hr)

/-- **What a step does to entries and victims.** -/
theorem next_track
    (hhidden : ∀ w, l.hold.victim = some w → (g.kern.tables.frameTable w.frame).evictable = false)
    (h : (procSystem S).next p a l g = some (l', g')) : TrackStep p l l' g.kern g'.kern := by
  rcases procSystem_next h with ⟨rfl, -, h⟩ | ⟨-, -, h⟩
  · obtain ⟨htab, hhold, -⟩ := userNext_tables h
    exact .of_drops rfl (by rw [hhold]; rfl) (userNext_window h) (.of_eq (by rw [htab]))
  · exact kernelNext_track hhidden h

end Steps

/-! ## Which pages have one entry -/

/-- A page has an entry in the frame table or is the victim of an eviction. -/
def HasTracker (t : Tables) (L : ProcIdx → Pc) (q : ProcIdx) (va : ℕ) : Prop :=
  (∃ i, (t.frameTable i).entry = (true, true, some q, va)) ∨
    ∃ r w, (L r).hold.victim = some w ∧ w.proc = some q ∧ w.va = va

/-- Pages have one entry or one eviction, and the pages `pg` have one. Those that a page fault has
not mapped yet, and those that an eviction has cleared, are not in `pg`. -/
structure Tracked (t : Tables) (L : ProcIdx → Pc) (pg : ProcIdx → ℕ → Bool) : Prop where
  frame_inj : ∀ i j q va, (t.frameTable i).entry = (true, true, some q, va) →
    (t.frameTable j).entry = (true, true, some q, va) → i = j
  victim_inj : ∀ r s w w' q, (L r).hold.victim = some w → (L s).hold.victim = some w' →
    w.proc = some q → w'.proc = some q → w.va = w'.va → r = s
  apart : ∀ r w i q, (L r).hold.victim = some w → w.proc = some q →
    (t.frameTable i).entry ≠ (true, true, some q, w.va)
  tracked : ∀ q va, pg q va = true → HasTracker t L q va
  window : ∀ q va, (L q).window = some va →
    (∃ i, (t.frameTable i).entry = (true, true, some q, va)) ∧ pg q va = false
  cleared : ∀ r w q, (L r).cleared = some w → w.proc = some q → pg q w.va = false

/-- How the pages change in a step: some are added that the page fault of `p` maps or whose eviction
by `p` is undone, and those that are unmapped or not mapped any more are dropped. -/
def PagesStep {σ : Type} (p : ProcIdx) (l l' : Pc) (k k' : Kernel σ)
    (pg pg' : ProcIdx → ℕ → Bool) : Prop :=
  ∀ q va, pg' q va = true → k'.mapped q va = true ∧
    (pg q va = true ∧ l.dropping ≠ some (q, va) ∧ l.clearing ≠ some q ∨
      q = p ∧ l.window = some va ∧ l'.window = none ∧ k'.tables = k.tables ∨
      ∃ w, l.hold.victim = some w ∧ l'.hold.victim = some w ∧ w.proc = some q ∧ w.va = va ∧
        l'.cleared = none)

namespace Tracked

variable {σ : Type} {k k' : Kernel σ} {L : ProcIdx → Pc} {pg pg' : ProcIdx → ℕ → Bool}
  {p q r s : ProcIdx} {l' : Pc} {w w' : Victim} {va : ℕ} {i j : FrameIdx}

section Step

variable (hok : Tracked k.tables L pg) (hstep : TrackStep p (L p) l' k k')
  (hpages : PagesStep p (L p) l' k k' pg pg')
  (hreg : ∀ va, (L p).registers = some va → ¬ HasTracker k.tables L p va)
include hstep

/-- A victim after the step: an old one, or the one that was selected. -/
theorem victim_cases (hr : (Function.update L p l' r).hold.victim = some w) :
    (L r).hold.victim = some w ∨ r = p ∧ (L p).selects = true ∧
      (k.tables.evictBegin k.levels).1 = some w ∧
      (k.tables.frameTable w.frame).entry = (true, true, w.proc, w.va) ∧
      (k'.tables.frameTable w.frame).evictable = false ∧
      ∀ j ≠ w.frame, (k'.tables.frameTable j).entry = (k.tables.frameTable j).entry := by
  by_cases hrp : r = p
  · subst hrp
    rw [Function.update_self] at hr
    rcases hstep.begun w hr with hold | hnew
    · exact .inl hold
    · exact .inr ⟨rfl, hnew⟩
  · rw [Function.update_of_ne hrp] at hr
    exact .inl hr

include hok hreg

/-- An entry that is made has no other one. -/
theorem made_alone (hi : (k'.tables.frameTable i).entry = (true, true, some q, va))
    (hne : (k'.tables.frameTable i).entry ≠ (k.tables.frameTable i).entry)
    (hj : (k.tables.frameTable j).entry = (true, true, some q, va)) : False := by
  obtain ⟨-, -, ⟨w, hw, hq, rfl⟩ | ⟨rfl, hr⟩⟩ := hstep.made i q va hi hne
  · exact hok.apart p w j q hw hq hj
  · exact hreg va hr (.inl ⟨j, hj⟩)

theorem step_frame_inj (hi : (k'.tables.frameTable i).entry = (true, true, some q, va))
    (hj : (k'.tables.frameTable j).entry = (true, true, some q, va)) : i = j := by
  by_contra hij
  by_cases hni : (k'.tables.frameTable i).entry = (k.tables.frameTable i).entry
  · by_cases hnj : (k'.tables.frameTable j).entry = (k.tables.frameTable j).entry
    · exact hij (hok.frame_inj i j q va (hni ▸ hi) (hnj ▸ hj))
    · exact hok.made_alone hstep hreg hj hnj (hni ▸ hi)
  · have hsame := (hstep.made i q va hi hni).1 j (Ne.symm hij)
    exact hok.made_alone hstep hreg hi hni (hsame ▸ hj)

omit hreg in
theorem step_victim_inj (hr : (Function.update L p l' r).hold.victim = some w)
    (hs : (Function.update L p l' s).hold.victim = some w') (hw : w.proc = some q)
    (hw' : w'.proc = some q) (hva : w.va = w'.va) : r = s := by
  rcases victim_cases hstep hr with hold | ⟨hrp, -, -, hentry, -⟩ <;>
    rcases victim_cases hstep hs with hold' | ⟨hsp, -, -, hentry', -⟩
  · exact hok.victim_inj r s w w' q hold hold' hw hw' hva
  · rw [hw'] at hentry'
    exact absurd (hva ▸ hentry') (hok.apart r w w'.frame q hold hw)
  · rw [hw] at hentry
    exact absurd (hva ▸ hentry) (hok.apart s w' w.frame q hold' hw')
  · rw [hrp, hsp]

theorem step_apart (hr : (Function.update L p l' r).hold.victim = some w) (hw : w.proc = some q) :
    (k'.tables.frameTable i).entry ≠ (true, true, some q, w.va) := by
  intro hi
  by_cases hne : (k'.tables.frameTable i).entry = (k.tables.frameTable i).entry
  · rcases victim_cases hstep hr with hr | ⟨-, -, -, hentry, hnot, -⟩
    · exact hok.apart r w i q hr hw (hne ▸ hi)
    · rw [hw] at hentry
      obtain rfl := hok.frame_inj i w.frame q w.va (hne ▸ hi) hentry
      simp only [Frame.entry, Prod.mk.injEq] at hi
      simp [Frame.evictable, hi] at hnot
  · obtain ⟨-, hnone, hcases⟩ := hstep.made i q w.va hi hne
    have hrp : r ≠ p := by
      rintro rfl
      simp [hnone] at hr
    rw [Function.update_of_ne hrp] at hr
    rcases hcases with ⟨w', hw', hq', hva⟩ | ⟨rfl, hr'⟩
    · exact hrp (hok.victim_inj r p w w' q hr hw' hw hq' hva.symm)
    · exact hreg w.va hr' (.inr ⟨r, w, hr, hw, rfl⟩)

omit hreg in
include hpages in
theorem step_tracked (hpg : pg' q va = true) :
    HasTracker k'.tables (Function.update L p l') q va := by
  have hvictim : ∀ {w}, l'.hold.victim = some w → w.proc = some q → w.va = va →
      HasTracker k'.tables (Function.update L p l') q va :=
    fun hw hq hva => .inr ⟨p, _, by rwa [Function.update_self], hq, hva⟩
  obtain ⟨-, ⟨hold, hdrop, hclear⟩ | ⟨rfl, hwin, -, htab⟩ | ⟨w, -, hw, hq, hva, -⟩⟩ :=
    hpages q va hpg
  · rcases hok.tracked q va hold with ⟨i, hi⟩ | ⟨r, w, hr, hq, rfl⟩
    · by_cases hne : (k'.tables.frameTable i).entry = (k.tables.frameTable i).entry
      · exact .inl ⟨i, hne ▸ hi⟩
      · rcases hstep.lost i q va hi hne with ⟨w, hw, hq, hva⟩ | ⟨rfl, hd, -⟩ | hd | hc
        · exact hvictim hw hq hva
        · simp [(hok.window q va (Pc.window_of_discards hd)).2] at hold
        · exact absurd hd hdrop
        · exact absurd hc hclear
    · by_cases hrp : r = p
      · subst hrp
        rcases hstep.ended w hr with hw | ⟨-, hc | hentry⟩
        · exact hvictim hw hq rfl
        · simp [hok.cleared r w q hc hq] at hold
        · exact .inl ⟨w.frame, hq ▸ hentry⟩
      · exact .inr ⟨r, w, by rwa [Function.update_of_ne hrp], hq, rfl⟩
  · rw [htab]
    exact .inl (hok.window q va hwin).1
  · exact hvictim hw hq hva

include hpages in
/-- A page that a page fault has registered and not mapped. -/
theorem step_window (hsel : ∀ w, (L p).selects = true → (k.tables.evictBegin k.levels).1 = some w →
      ∀ q va, (L q).window = some va → w.proc = some q → w.va ≠ va)
    (hown : ∀ q va, (L p).dropping = some (q, va) → q = p)
    (hclear : ∀ q, (L p).clearing = some q → (L q).window = none)
    (hq : (Function.update L p l' q).window = some va) :
    (∃ i, (k'.tables.frameTable i).entry = (true, true, some q, va)) ∧ pg' q va = false := by
  by_cases hqp : q = p
  · subst hqp
    rw [Function.update_self] at hq
    rcases hstep.window va hq with hold | ⟨hr, hmade⟩
    · obtain ⟨hv, hd, hc, -⟩ := Pc.window_spec hold
      obtain ⟨⟨i, hi⟩, hpg⟩ := hok.window q va hold
      refine ⟨⟨i, ?_⟩, ?_⟩
      · by_contra hne
        rcases hstep.lost i q va hi (hi ▸ hne) with ⟨w, hw, -⟩ | ⟨-, -, hnone⟩ | h | h
        · simp [(Pc.window_spec hq).1] at hw
        · simp [hnone] at hq
        · simp [hd] at h
        · simp [hc] at h
      · by_contra hpg'
        obtain ⟨-, ⟨h, -⟩ | ⟨-, -, hnone, -⟩ | ⟨w, hw, -⟩⟩ := hpages q va (by simpa using hpg')
        · simp [hpg] at h
        · simp [hnone] at hq
        · simp [hv] at hw
    · obtain ⟨hv, hw⟩ := Pc.registers_spec hr
      refine ⟨hmade, ?_⟩
      by_contra hpg'
      obtain ⟨-, ⟨h, -⟩ | ⟨-, h, -⟩ | ⟨w, h, -⟩⟩ := hpages q va (by simpa using hpg')
      · exact hreg va hr (hok.tracked q va h)
      · simp [hw] at h
      · simp [hv] at h
  · rw [Function.update_of_ne hqp] at hq
    obtain ⟨⟨i, hi⟩, hpg⟩ := hok.window q va hq
    refine ⟨⟨i, ?_⟩, ?_⟩
    · by_contra hne
      rcases hstep.lost i q va hi (hi ▸ hne) with ⟨w, hw, hwq, hva⟩ | ⟨h, -⟩ | h | h
      · rcases hstep.begun w hw with hold | ⟨hs, hb, -⟩
        · exact hok.apart p w i q hold hwq (hva ▸ hi)
        · exact hsel w hs hb q va hq hwq hva
      · exact hqp h
      · exact hqp (hown q va h)
      · simp [hclear q h] at hq
    · by_contra hpg'
      obtain ⟨-, ⟨h, -⟩ | ⟨h, -⟩ | ⟨w, hw, -, hwq, hva, -⟩⟩ := hpages q va (by simpa using hpg')
      · simp [hpg] at h
      · exact hqp h
      · exact hok.apart p w i q hw hwq (hva ▸ hi)

omit hreg in
include hpages in
theorem step_cleared (hmapped : ∀ q va, pg q va = true → k.mapped q va = true)
    (hr : (Function.update L p l' r).cleared = some w) (hw : w.proc = some q) :
    pg' q w.va = false := by
  by_contra hpg'
  obtain ⟨hmap', hcases⟩ := hpages q w.va (by simpa using hpg')
  by_cases hrp : r = p
  · subst hrp
    rw [Function.update_self] at hr
    have hvictim : (L r).hold.victim = some w := by
      rcases hstep.cleared w hr with h | h
      · exact Pc.victim_of_cleared h
      · exact h.1
    rcases hcases with ⟨hpg, -⟩ | ⟨-, hwin, -⟩ | ⟨_, -, -, -, -, hnone⟩
    · rcases hstep.cleared w hr with h | ⟨-, h⟩
      · simp [hok.cleared r w q h hw] at hpg
      · rcases h q hw with h | h
        · simp [hmapped q w.va hpg] at h
        · simp [hmap'] at h
    · simp [(Pc.window_spec hwin).1] at hvictim
    · simp [hnone] at hr
  · rw [Function.update_of_ne hrp] at hr
    have hvictim := Pc.victim_of_cleared hr
    rcases hcases with ⟨hpg, -⟩ | ⟨rfl, hwin, -⟩ | ⟨w', hw', -, hq', hva, -⟩
    · simp [hok.cleared r w q hr hw] at hpg
    · obtain ⟨i, hi⟩ := (hok.window q w.va hwin).1
      exact hok.apart r w i q hvictim hw hi
    · exact hrp (hok.victim_inj r p w w' q hvictim hw' hw hq' hva.symm)

end Step

/-- **One step keeps pages tracked**, if it selects no page that is not mapped yet and registers
none that has an entry or a victim. -/
theorem step (hok : Tracked k.tables L pg) (hstep : TrackStep p (L p) l' k k')
    (hpages : PagesStep p (L p) l' k k' pg pg')
    (hmapped : ∀ q va, pg q va = true → k.mapped q va = true)
    (hreg : ∀ va, (L p).registers = some va → ¬ HasTracker k.tables L p va)
    (hsel : ∀ w, (L p).selects = true → (k.tables.evictBegin k.levels).1 = some w →
      ∀ q va, (L q).window = some va → w.proc = some q → w.va ≠ va)
    (hown : ∀ q va, (L p).dropping = some (q, va) → q = p)
    (hclear : ∀ q, (L p).clearing = some q → (L q).window = none) :
    Tracked k'.tables (Function.update L p l') pg' where
  frame_inj _ _ _ _ := hok.step_frame_inj hstep hreg
  victim_inj _ _ _ _ _ := hok.step_victim_inj hstep
  apart _ _ _ _ := hok.step_apart hstep hreg
  tracked _ _ := hok.step_tracked hstep hpages
  window _ _ := hok.step_window hstep hpages hreg hsel hown hclear
  cleared _ _ _ := hok.step_cleared hstep hpages hmapped

end Tracked

/-! ## Runs -/

/-- The page that a page fault maps next. -/
def Pc.maps : Pc → Option ℕ
  | .fault va (.map ..) => some (pgRoundDown va)
  | _ => none

/-- The page fault has mapped its page. -/
def Pc.finishes : Pc → Bool
  | .fault _ (.finish ..) => true
  | _ => false

/-- The victim whose page table entry is looked at next. -/
def Pc.updates : Pc → Option Victim
  | .fault _ (.alloc _ (.evict _ _ (.update _ v))) => some v
  | _ => none

/-- The victim whose page table entry is put back next. -/
def Pc.restores : Pc → Option Victim
  | .fault _ (.alloc _ (.evict _ _ (.restore v _ _))) => some v
  | _ => none

/-- The pages that were mapped by a page fault and neither unmapped nor evicted since, and whether
the page that an eviction by a process has unmapped was one of them. A page counts as unmapped from
the section in which `uvmunmap` or `free_proc_swap_slots` drops its entry. -/
structure Installed where
  page : ProcIdx → ℕ → Bool
  taken : ProcIdx → Bool

def Installed.next {σ : Type} (p : ProcIdx) (r r' : Pc × Shared σ) (x : Installed) : Installed where
  page q va := r'.2.kern.mapped q va &&
    (x.page q va && decide (r.1.dropping ≠ some (q, va)) && decide (r.1.clearing ≠ some q) ||
      decide (q = p) && decide (r.1.maps = some va) && r'.1.finishes ||
      x.taken p && r.1.restores.any fun w => decide (w.proc = some q ∧ w.va = va))
  taken := Function.update x.taken p <|
    match r.1.updates with
    | some w => w.proc.any fun q => x.page q w.va
    | none => x.taken p

section Runs

variable {σ : Type} {S : SwapOps σ} {p q : ProcIdx} {a : Act} {l l' : Pc}

theorem maps_window {g g' : Shared σ} {va : ℕ} (hmaps : l.maps = some va)
    (hfinishes : l'.finishes = true) (h : (procSystem S).next p a l g = some (l', g')) :
    l.window = some va ∧ l'.window = none ∧ g'.kern.tables = g.kern.tables := by
  unfold Pc.maps at hmaps
  split at hmaps
  · rename_i found pa
    refine ⟨hmaps, ?_, ?_⟩
    · unfold Pc.finishes at hfinishes
      split at hfinishes
      · rfl
      · cases hfinishes
    · rcases procSystem_next h with ⟨hl, -⟩ | ⟨-, -, h⟩
      · cases hl
      · rcases Shared.proceed_eq_some h with ⟨pc', k, hr, -, rfl⟩ | ⟨r, k, hr, -, rfl⟩
        · exact (Kernel.faultMap_life hr).1
        · exact (Kernel.faultMap_life hr).1
  · cases hmaps

theorem kernelNext_fault (g : Shared σ) (p : ProcIdx) (va : ℕ) (pc : FaultPc) :
    g.kernelNext S p (.fault va pc) =
      g.proceed (.fault va) (fun _ k => { g with kern := k }) (g.kern.faultNext S p va pc) := rfl

theorem restores_victim {g g' : Shared σ} {w : Victim} (hw : l.restores = some w)
    (h : (procSystem S).next p a l g = some (l', g')) :
    l.hold.victim = some w ∧ l'.hold.victim = some w ∧ l'.cleared = none := by
  unfold Pc.restores at hw
  split at hw
  · obtain rfl := Option.some.inj hw
    rcases procSystem_next h with ⟨hl, -⟩ | ⟨-, -, h⟩
    · cases hl
    · rw [kernelNext_fault] at h
      rcases Shared.proceed_eq_some h with ⟨pc', k, hr, rfl, rfl⟩ | ⟨r, k, hr, rfl, rfl⟩
      · obtain ⟨hgo, -⟩ := Prod.mk.inj (Except.ok.inj hr)
        obtain rfl := Next.go.inj hgo
        exact ⟨rfl, rfl, rfl⟩
      · cases (Prod.mk.inj (Except.ok.inj hr)).1
  · cases hw

theorem next_pages {g g' : Shared σ} (x : Installed)
    (h : (procSystem S).next p a l g = some (l', g')) :
    PagesStep p l l' g.kern g'.kern x.page (x.next p (l, g) (l', g')).page := by
  intro q va hpg
  simp only [Installed.next, Bool.and_eq_true, Bool.or_eq_true, decide_eq_true_eq,
    Option.any_eq_true_iff_get] at hpg
  obtain ⟨hmapped, (⟨⟨hold, hdrop⟩, hclear⟩ | ⟨⟨rfl, hmaps⟩, hfin⟩) | ⟨-, hres, hw⟩⟩ := hpg
  · exact ⟨hmapped, .inl ⟨hold, hdrop, hclear⟩⟩
  · exact ⟨hmapped, .inr (.inl ⟨rfl, maps_window hmaps hfin h⟩)⟩
  · obtain ⟨hv, hv', hc⟩ := restores_victim (Option.some_get hres).symm h
    exact ⟨hmapped, .inr (.inr ⟨_, hv, hv', hw.1, hw.2, hc⟩)⟩

variable {c c₀ : Cfg ProcIdx Pc (Shared σ × Installed)} {g : Shared σ × Installed}

/-- A page is registered only while it has no entry and no eviction has it, and no eviction selects
a page that a page fault has registered and not mapped yet. -/
structure TracksOnce (c : Cfg ProcIdx Pc (Shared σ × Installed)) (p : ProcIdx) (_ : Act) :
    Prop where
  registers : ∀ va, (c.loc p).registers = some va →
    ¬ HasTracker c.mem.1.kern.tables c.loc p va
  selects : ∀ w, (c.loc p).selects = true →
    (c.mem.1.kern.tables.evictBegin c.mem.1.kern.levels).1 = some w →
    ∀ q va, (c.loc q).window = some va → w.proc = some q → w.va ≠ va

/-- The invariant of runs. -/
structure TrackInv (c : Cfg ProcIdx Pc (Shared σ × Installed)) : Prop where
  life : LifeOk c.erase
  owner : OwnerOk c.erase
  frames : FramesOk c.mem.1.kern.tables (holds c.erase)
  tracked : Tracked c.mem.1.kern.tables c.loc c.mem.2.page
  mapped : ∀ q va, c.mem.2.page q va = true → c.mem.1.kern.mapped q va = true

theorem Pc.target_of_clearing (h : l.clearing = some q) : l.target = some q := by
  unfold Pc.clearing at h
  split at h
  · exact h
  · exact h
  · cases h

theorem TrackInv.next (h : TrackInv c) (hok : TracksOnce c p a)
    (hn : ((procSystem S).withGhost Installed.next).next p a (c.loc p) c.mem = some (l, g)) :
    TrackInv ⟨Function.update c.loc p l, g⟩ := by
  obtain ⟨hstep, hg⟩ := System.withGhost_next hn
  have hstep' : (procSystem S).next p a (c.erase.loc p) c.erase.mem = some (l, g.1) := hstep
  have hpages := next_pages c.mem.2 hstep
  have hhidden : ∀ w, (c.loc p).hold.victim = some w →
      (c.mem.1.kern.tables.frameTable w.frame).evictable = false :=
    fun w hw => h.frames.victim_not_evictable hw
  refine ⟨h.life.next hstep', h.owner.next hstep', ?_, ?_, fun q va hpg => ?_⟩
  · change FramesOk _ (holds ⟨Function.update c.erase.loc p l, g.1⟩)
    rw [holds_update]
    exact h.frames.step (next_tables (h.owner p) hstep').1
  · rw [hg]
    refine h.tracked.step (next_track hhidden hstep) hpages h.mapped hok.registers hok.selects
      (fun q va hq => ?_) fun q hq => ?_
    · have howner := Pc.owner_of_dropping hq
      rcases h.owner p with hnone | hp
      · exact absurd (hnone.symm.trans howner) nofun
      · exact Option.some.inj (howner.symm.trans hp)
    · have huser : c.loc q = .user := h.life.target_user (Pc.target_of_clearing hq)
      rw [huser]
      rfl
  · exact (hpages q va (by rw [← hg]; exact hpg)).1

/-- Every page that a page fault has mapped, of a process that is not inside `vmfault`, has one used
entry in the frame table or is the victim of an eviction; and there are at most as many as frames.
-/
structure PagesTracked (c : Cfg ProcIdx Pc (Shared σ × Installed)) : Prop where
  one : ∀ q va, (∀ va' pc, c.loc q ≠ .fault va' pc) → c.mem.2.page q va = true →
    (∃! i, (c.mem.1.kern.tables.frameTable i).used = true ∧
      (c.mem.1.kern.tables.frameTable i).proc = some q ∧
      (c.mem.1.kern.tables.frameTable i).va = va) ∨
    ∃ r w, (c.loc r).hold.victim = some w ∧ w.proc = some q ∧ w.va = va
  card : {x : ProcIdx × ℕ | c.mem.2.page x.1 x.2 = true}.encard ≤ maxFrames

/-- The frame of a page. -/
def FrameOf (t : Tables) (L : ProcIdx → Pc) (x : ProcIdx × ℕ) (i : FrameIdx) : Prop :=
  (t.frameTable i).entry = (true, true, some x.1, x.2) ∨
    ∃ r w, (L r).hold.victim = some w ∧ w.proc = some x.1 ∧ w.va = x.2 ∧ w.frame = i

/-- Different pages have different frames. -/
theorem FramesOk.frameOf_inj {t : Tables} {L : ProcIdx → Pc} {x y : ProcIdx × ℕ} {i : FrameIdx}
    (h : FramesOk t fun r => (L r).hold) (hx : FrameOf t L x i) (hy : FrameOf t L y i) : x = y := by
  have hnot : ∀ {r w z}, (L r).hold.victim = some w → w.frame = i →
      (t.frameTable i).entry ≠ (true, true, z) := by
    rintro r w z hw rfl hentry
    simpa using (h.victim r w hw).1.symm.trans hentry
  rcases hx with hx | ⟨r, w, hw, hwx, hvx, hi⟩ <;> rcases hy with hy | ⟨s, w', hw', hwy, hvy, hi'⟩
  · have heq : x.1 = y.1 ∧ x.2 = y.2 := by simpa using hx.symm.trans hy
    exact Prod.ext heq.1 heq.2
  · exact absurd hx (hnot hw' hi')
  · exact absurd hy (hnot hw hi)
  · obtain rfl := h.victim_inj r s w w' hw hw' (hi.trans hi'.symm)
    obtain rfl := Option.some.inj (hw.symm.trans hw')
    exact Prod.ext (Option.some.inj (hwx.symm.trans hwy)) (hvx.symm.trans hvy)

theorem TrackInv.pagesTracked (h : TrackInv c) : PagesTracked c where
  one q va _ hpg := by
    rcases h.tracked.tracked q va hpg with ⟨i, hi⟩ | hvictim
    · refine .inl ⟨i, ?_, ?_⟩
      · simp only [Frame.entry, Prod.mk.injEq] at hi
        exact ⟨hi.1, hi.2.2⟩
      · rintro j ⟨hused, hproc, hva⟩
        have huser : (c.mem.1.kern.tables.frameTable j).userFrame = true := by
          by_contra hnot
          obtain ⟨r, w, hw, rfl⟩ := h.frames.hidden j hused (by simpa using hnot)
          have hnone : (c.mem.1.kern.tables.frameTable w.frame).proc = none :=
            congrArg (·.2.2.1) (h.frames.victim r w hw).1
          simp [hnone] at hproc
        exact h.tracked.frame_inj j i q va (by simp [Frame.entry, hused, huser, hproc, hva]) hi
    · exact .inr hvictim
  card := by
    have hframe : ∀ x : ProcIdx × ℕ, c.mem.2.page x.1 x.2 = true →
        ∃ i, FrameOf c.mem.1.kern.tables c.loc x i := by
      intro x hx
      rcases h.tracked.tracked x.1 x.2 hx with ⟨i, hi⟩ | ⟨r, w, hw, hq, hva⟩
      · exact ⟨i, .inl hi⟩
      · exact ⟨w.frame, .inr ⟨r, w, hw, hq, hva, rfl⟩⟩
    choose f hf using hframe
    have hcard : (Set.univ : Set FrameIdx).encard = maxFrames := by simp [Set.encard_univ]
    rw [← hcard]
    refine Set.encard_le_encard_of_injOn
      (f := fun x => if hx : c.mem.2.page x.1 x.2 = true then f x hx else ⟨0, by decide⟩)
      (fun _ _ => Set.mem_univ _) fun x hx y hy heq => ?_
    have hx' : c.mem.2.page x.1 x.2 = true := hx
    have hy' : c.mem.2.page y.1 y.2 = true := hy
    simp only [hx', hy', dif_pos] at heq
    exact h.frames.frameOf_inj (hf x hx') (heq ▸ hf y hy')

/-- **Pages that page faults have mapped stay tracked**, in every run that registers a page only
while it has no entry and selects none before it is mapped. -/
theorem installed_tracked (hidle : Idle c₀.erase)
    (hframes : FramesOk c₀.mem.1.kern.tables fun _ => .none)
    (htracked : Tracked c₀.mem.1.kern.tables (fun _ => .user) c₀.mem.2.page)
    (hmapped : ∀ q va, c₀.mem.2.page q va = true → c₀.mem.1.kern.mapped q va = true)
    (hrun : ((procSystem S).withGhost Installed.next).Reaches TracksOnce c₀ c) :
    PagesTracked c := by
  have hloc : c₀.loc = fun _ => .user := funext hidle.user
  have hinv : TrackInv c := hrun.inv (fun _ _ _ _ _ hok h hn => h.next hok hn)
    ⟨hidle.lifeOk, hidle.ownerOk, hidle.holds ▸ hframes, hloc ▸ htracked, hmapped⟩
  exact hinv.pagesTracked

end Runs

/-! ## An entry that is dropped before its page is mapped -/

instance (t : Tables) (L : ProcIdx → Pc) (q : ProcIdx) (va : ℕ) : Decidable (HasTracker t L q va) :=
  decidable_of_iff ((∃ i, (t.frameTable i).entry = (true, true, some q, va)) ∨
      ∃ r, (L r).hold.victim.any fun w => decide (w.proc = some q ∧ w.va = va)) <| by
    refine or_congr_right (exists_congr fun r => ?_)
    simp [Option.any_eq_true]

instance {σ : Type} (c : Cfg ProcIdx Pc (Shared σ × Installed)) (p : ProcIdx) (a : Act) :
    Decidable (TracksOnce c p a) :=
  decidable_of_iff ((∀ va ∈ (c.loc p).registers, ¬ HasTracker c.mem.1.kern.tables c.loc p va) ∧
      ((c.loc p).selects = true →
        ∀ w ∈ (c.mem.1.kern.tables.evictBegin c.mem.1.kern.levels).1,
          ∀ q, ∀ va ∈ (c.loc q).window, w.proc = some q → w.va ≠ va))
    ⟨fun h => ⟨h.1, fun w hs hw => h.2 hs w hw⟩, fun h => ⟨h.1, fun hs w => h.2 w hs⟩⟩

/-- Two processes of one page each, which were never touched, and one free page. -/
def onePage : Cfg ProcIdx Pc (Shared Unit × Installed) where
  loc := fun _ => .user
  mem :=
    ({ locked := fun _ => false
       kern :=
        { tables := .init
          freelist := [pageNo 6]
          mem := fun _ => 0
          pts := fun root =>
            if root = pageNo 0 then Kernel.smallTable (pageNo 1) (pageNo 2) fun _ => none
            else Kernel.smallTable (pageNo 4) (pageNo 5) fun _ => none
          procs := fun p =>
            if p = proc₀ then ⟨.running, pgSize, some (pageNo 0), none, 0, 0, 0, 0, 0, 0, 0⟩
            else if p = proc₁ then ⟨.running, pgSize, some (pageNo 3), none, 0, 0, 0, 0, 0, 0, 0⟩
            else ⟨.unused, 0, none, none, 0, 0, 0, 0, 0, 0, 0⟩
          swap := ()
          kernEnd := pageNo 0
          trampoline := 0x80000000 } },
      ⟨fun _ _ => false, fun _ => false⟩)

theorem onePage_idle : Idle onePage.erase where
  user _ := rfl
  unlocked _ := rfl
  table := by decide +kernel

theorem onePage_frames : FramesOk onePage.mem.1.kern.tables fun _ => .none where
  count := by decide +kernel
  hidden i hi := by cases hi
  victim _ _ hv := by cases hv
  victim_inj _ _ _ _ hv := by cases hv
  owned i hi := by cases hi

theorem onePage_tracked :
    Tracked onePage.mem.1.kern.tables (fun _ => .user) onePage.mem.2.page where
  frame_inj i _ _ _ hi := by cases hi
  victim_inj _ _ _ _ _ hv := by cases hv
  apart _ _ _ _ hv := by cases hv
  tracked _ _ hpg := by cases hpg
  window _ _ hw := by cases hw
  cleared _ _ _ hw := by cases hw

/-- The page fault of `proc₀`, up to where its frame is registered. -/
def registerPart : List (ProcIdx × Act) := (proc₀, .fault 0) :: List.replicate 5 (proc₀, .go)

/-- The rest of it. -/
def mapPart : List (ProcIdx × Act) := List.replicate 2 (proc₀, .go)

/-- A page fault of `proc₁`, for `n` steps. -/
def evictingPart (n : ℕ) : List (ProcIdx × Act) :=
  (proc₁, .fault 0) :: List.replicate n (proc₁, .go)

/-- `proc₁` has selected the page of `proc₀`, after it was mapped. -/
theorem installed_tracked_onePage : Idle onePage.erase ∧ ∃ c,
    ((procSystem nullSwap).withGhost Installed.next).Reaches TracksOnce onePage c ∧
      c.mem.2.page proc₀ 0 = true ∧ (holds c.erase proc₁).victim.isSome ∧ PagesTracked c := by
  have hrun : (((procSystem nullSwap).withGhost Installed.next).execWhile TracksOnce
      (registerPart ++ mapPart ++ evictingPart 6) onePage).map (fun c =>
        (c.mem.2.page proc₀ 0, (holds c.erase proc₁).victim.isSome)) = some (true, true) := by
    decide +kernel
  obtain ⟨c, hc, hobs⟩ := Option.map_eq_some_iff.1 hrun
  obtain ⟨hpage, hvictim⟩ := Prod.mk.inj hobs
  have hreach := System.reaches_of_execWhile hc
  exact ⟨onePage_idle, c, hreach, hpage, hvictim,
    installed_tracked onePage_idle onePage_frames onePage_tracked nofun hreach⟩

/-- The eviction of `proc₁` finds the page of `proc₀` registered and not mapped, and drops its
entry. Then the page is mapped. -/
theorem untracked_page : Idle onePage.erase ∧ ∃ c,
    ((procSystem nullSwap).withGhost Installed.next).Reaches System.any onePage c ∧
      (∀ p, c.loc p = .user) ∧ c.mem.2.page proc₀ 0 = true ∧
      (∀ i, (c.mem.1.kern.tables.frameTable i).used = false) ∧ ¬ PagesTracked c := by
  have hrun : (((procSystem nullSwap).withGhost Installed.next).exec
      (registerPart ++ evictingPart 9 ++ mapPart) onePage).map (fun c =>
        (decide (∀ p, c.loc p = .user), c.mem.2.page proc₀ 0,
          decide (∀ i, (c.mem.1.kern.tables.frameTable i).used = false))) =
      some (true, true, true) := by
    decide +kernel
  obtain ⟨c, hc, hobs⟩ := Option.map_eq_some_iff.1 hrun
  simp only [Prod.mk.injEq, decide_eq_true_eq] at hobs
  obtain ⟨huser, hpage, hunused⟩ := hobs
  refine ⟨onePage_idle, c, System.reaches_of_exec hc, huser, hpage, hunused, fun htracked => ?_⟩
  rcases htracked.one proc₀ 0 (by simp [huser]) hpage with ⟨i, ⟨hi, -⟩, -⟩ | ⟨r, w, hw, -⟩
  · simp [hunused i] at hi
  · rw [huser r] at hw
    cases hw

end Xv6Swap.Paging
