import Xv6Swap.Paging.Invisible

/-!
# Replacing an address space

The end of `exec`: the process gets a page table that was built for it, and the old one is freed
with `proc_freepagetable` while the process is the current one. By then the old table is no longer
the table of the current process, so `uvmunmap` takes it for the table of another process and leaves
the frame table and the swap map alone (`procFreepagetable_ignores`). What the process had there
stays (`execCommit_discards_iff`).
-/

namespace Xv6Swap.Paging.Kernel

open Raid (Byte Page pgSize)

variable {σ : Type} {S : SwapOps σ} {L : SwapLaws S} {k k' : Kernel σ} {g g' : Ghost}
  {t : Tables} {old new root pa : PA} {n v : ℕ} {p q cur : ProcIdx}

/-- `p->pagetable = pagetable; p->sz = sz` -/
def switchTable (p : ProcIdx) (pagetable : PA) (sz : ℕ) (k : Kernel σ) : Kernel σ :=
  k.setProc p fun proc => { proc with pagetable := some pagetable, sz := sz }

/-- The commit of `exec`: the page table and the size are replaced, then the old table is freed. -/
def execCommit (p : ProcIdx) (pagetable : PA) (sz : ℕ) (k : Kernel σ) : Result (Kernel σ) :=
  match (k.procs p).pagetable with
  | none => .ok (k.switchTable p pagetable sz)
  | some oldpagetable =>
    (k.switchTable p pagetable sz).procFreepagetable p oldpagetable (k.procs p).sz

/-! ## Freeing a table that is not the current one -/

/-- The state with other tables. -/
def withTables (t : Tables) (k : Kernel σ) : Kernel σ := { k with tables := t }

/-- Where `root` is not the page table of `cur`, the computation does the same whatever the frame
table and the swap map hold, and leaves them and the processes alone. -/
def Ignores (t : Tables) (cur : ProcIdx) (root : PA) (f : Kernel σ → Result (Kernel σ)) : Prop :=
  ∀ k, (k.procs cur).pagetable ≠ some root →
    f (k.withTables t) = (f k).map (withTables t) ∧ ∀ k', f k = .ok k' → k'.procs = k.procs

/-- A step that succeeds on every state. -/
theorem Ignores.ok {f : Kernel σ → Kernel σ} (hf : ∀ k, f (k.withTables t) = (f k).withTables t)
    (hprocs : ∀ k, (f k).procs = k.procs) : Ignores t cur root fun k => .ok (f k) :=
  fun k _ => ⟨congrArg Except.ok (hf k), fun _ h => Except.ok.inj h ▸ hprocs k⟩

theorem Ignores.bind {f f' : Kernel σ → Result (Kernel σ)} (hf : Ignores t cur root f)
    (hf' : Ignores t cur root f') : Ignores t cur root fun k => f k >>= f' := by
  intro k hk
  obtain ⟨heq, hprocs⟩ := hf k hk
  simp only [heq]
  cases hfk : f k with
  | error e => exact ⟨rfl, nofun⟩
  | ok k₁ =>
    have hk₁ := hprocs k₁ hfk
    obtain ⟨heq', hprocs'⟩ := hf' k₁ (hk₁ ▸ hk)
    exact ⟨heq', fun k' h => (hprocs' k' h).trans hk₁⟩

theorem Ignores.foldlM {α : Type} {f : Kernel σ → α → Result (Kernel σ)}
    (hf : ∀ a, Ignores t cur root fun k => f k a) (l : List α) :
    Ignores t cur root fun k => l.foldlM f k := by
  induction l with
  | nil => exact .ok (fun _ => rfl) fun _ => rfl
  | cons a l ih =>
    simp only [List.foldlM_cons]
    exact (hf a).bind ih

theorem kfree_ignores (pa : PA) : Ignores (σ := σ) t cur root fun k => k.kfree pa := by
  intro k _
  have hend : (k.withTables t).kernEnd = k.kernEnd := rfl
  by_cases hpa : pa % pgSize ≠ 0 ∨ pa < k.kernEnd ∨ phystop ≤ pa
  · simp only [kfree, hend, if_pos hpa]
    exact ⟨rfl, fun _ h => by cases h⟩
  · simp only [kfree, hend, if_neg hpa]
    exact ⟨rfl, fun _ h => Except.ok.inj h ▸ rfl⟩

/-- `uvmunmap` for no process looks for frame entries that have no process. -/
theorem unmapPage_ignores (ht : ∀ a, t.freeFrameEntry none a = t) (doFree : Bool) (a : ℕ) :
    Ignores (σ := σ) t cur root fun k => k.unmapPage none root doFree a := by
  intro k hk
  by_cases ha : maxVa ≤ a
  · simp [unmapPage, ha, Except.map]
  have hat : (k.withTables t).pteAt root a = k.pteAt root a := rfl
  cases hpte : k.pteAt root a with
  | none => cases doFree <;> simp [unmapPage, ha, hat, hpte, Except.map]
  | some e =>
    have hclear : Ignores (σ := σ) t cur root fun k => .ok (k.setLeaf root a none) :=
      .ok (fun _ => rfl) fun _ => rfl
    cases doFree with
    | false =>
      have hrun : ∀ k : Kernel σ, k.pteAt root a = some e →
          k.unmapPage none root false a = .ok (k.setLeaf root a none) := by
        intro k hpte
        simp only [unmapPage, ha, hpte]
        rfl
      simp only [hrun k hpte, hrun (k.withTables t) hpte]
      exact hclear k hk
    | true =>
      have hrun : ∀ k : Kernel σ, k.pteAt root a = some e →
          k.unmapPage none root true a =
            (k.withTables (k.tables.freeFrameEntry none a)).kfree e.pa >>=
              fun k => .ok (k.setLeaf root a none) := by
        intro k hpte
        simp only [unmapPage, ha, hpte]
        rfl
      obtain ⟨heq, hprocs⟩ := ((kfree_ignores e.pa).bind hclear)
        (k.withTables (k.tables.freeFrameEntry none a)) hk
      simp only [hrun k hpte, hrun (k.withTables t) hpte]
      refine ⟨?_, hprocs⟩
      rw [← heq]
      simp only [withTables, ht]

theorem unmapLoop_ignores (ht : ∀ a, t.freeFrameEntry none a = t) (doFree : Bool) (n a : ℕ) :
    Ignores (σ := σ) t cur root fun k => k.unmapLoop none root doFree n a := by
  induction n generalizing a with
  | zero => exact .ok (fun _ => rfl) fun _ => rfl
  | succ n ih => exact (unmapPage_ignores ht doFree a).bind (ih _)

theorem uvmunmap_ignores (ht : ∀ a, t.freeFrameEntry none a = t) (va n : ℕ) (doFree : Bool) :
    Ignores (σ := σ) t cur root fun k => k.uvmunmap cur root va n doFree := by
  intro k hk
  have howner : ∀ k : Kernel σ, (k.procs cur).pagetable ≠ some root →
      k.unmapOwner cur root = none := fun k hk => if_neg hk
  by_cases hva : va % pgSize ≠ 0
  · simp only [uvmunmap, if_pos hva]
    exact ⟨rfl, fun _ h => by cases h⟩
  · simp only [uvmunmap, if_neg hva, howner k hk, howner (k.withTables t) hk]
    exact unmapLoop_ignores ht doFree n va k hk

theorem freewalkLeaves_ignores (j : ℕ) (pg : PA) :
    Ignores (σ := σ) t cur root fun k => k.freewalkLeaves root j pg := by
  intro k hk
  have hpts : (k.withTables t).pts = k.pts := rfl
  by_cases hany : ((List.range 512).any fun i => ((k.pts root).leaf (512 * j + i)).isSome) = true
  · simp only [freewalkLeaves, hpts, if_pos hany]
    exact ⟨rfl, fun _ h => by cases h⟩
  · simp only [freewalkLeaves, hpts, if_neg hany]
    exact kfree_ignores pg k hk

theorem freewalkLowEntry_ignores (j : ℕ) :
    Ignores (σ := σ) t cur root fun k => k.freewalkLowEntry root j := by
  intro k hk
  have hpts : (k.withTables t).pts = k.pts := rfl
  simp only [freewalkLowEntry, hpts]
  cases (k.pts root).low j with
  | none => exact ⟨rfl, fun _ h => Except.ok.inj h ▸ rfl⟩
  | some pg =>
    have hclear : Ignores (σ := σ) t cur root fun k => .ok (k.setPt root
        { k.pts root with low := Function.update (k.pts root).low j none }) :=
      .ok (fun _ => rfl) fun _ => rfl
    exact (freewalkLeaves_ignores j pg).bind hclear k hk

theorem freewalkLow_ignores (js : List ℕ) :
    Ignores (σ := σ) t cur root fun k => k.freewalkLow root js :=
  .foldlM freewalkLowEntry_ignores js

theorem freewalkMidEntry_ignores (i : ℕ) :
    Ignores (σ := σ) t cur root fun k => k.freewalkMidEntry root i := by
  intro k hk
  have hpts : (k.withTables t).pts = k.pts := rfl
  simp only [freewalkMidEntry, hpts]
  cases (k.pts root).mid i with
  | none => exact ⟨rfl, fun _ h => Except.ok.inj h ▸ rfl⟩
  | some pg =>
    have hclear : Ignores (σ := σ) t cur root fun k => .ok (k.setPt root
        { k.pts root with mid := Function.update (k.pts root).mid i none }) :=
      .ok (fun _ => rfl) fun _ => rfl
    exact (freewalkLow_ignores _).bind ((kfree_ignores pg).bind hclear) k hk

theorem freewalkMid_ignores (is : List ℕ) :
    Ignores (σ := σ) t cur root fun k => k.freewalkMid root is :=
  .foldlM freewalkMidEntry_ignores is

theorem freewalk_ignores : Ignores (σ := σ) t cur root fun k => k.freewalk root :=
  (freewalkMid_ignores _).bind (kfree_ignores root)

/-- **`proc_freepagetable`** on a page table that is not the one of the current process does not
touch the frame table and the swap map. -/
theorem procFreepagetable_ignores (ht : ∀ a, t.freeFrameEntry none a = t) (sz : ℕ) :
    Ignores (σ := σ) t cur root fun k => k.procFreepagetable cur root sz := by
  refine (uvmunmap_ignores ht _ _ _).bind ((uvmunmap_ignores ht _ _ _).bind ?_)
  by_cases hsz : 0 < sz
  · simpa only [uvmfree, if_pos hsz] using (uvmunmap_ignores ht _ _ _).bind freewalk_ignores
  · simpa only [uvmfree, if_neg hsz] using freewalk_ignores

/-! ## What remains of the old address space -/

/-- Between operations, with a page table that is built for an image of size `sz` and belongs to no
process yet. -/
def Prepared (k : Kernel σ) (pagetable : PA) (sz : ℕ) : Prop :=
  ∃ g, Inv k g ∧ Synced k g ∧ Unowned g pagetable ∧ g.size pagetable = some (npages sz)

/-- Nothing in the frame table and the swap map is for the process. -/
structure Untracked (t : Tables) (p : ProcIdx) : Prop where
  frame : ∀ i, (t.frameTable i).used = true → (t.frameTable i).proc ≠ some p
  swap : ∀ i, (t.swapMap i).used = true → (t.swapMap i).proc ≠ some p

/-- The old address space that `p` had in `k` is gone in `k'`: there are no entries for it, its
slots are free, and a page fault on a page that the process has by a lazy `sbrk` leads to a zero
page. -/
structure Discarded (S : SwapOps σ) (k : Kernel σ) (p : ProcIdx) (k' : Kernel σ) : Prop where
  untracked : Untracked k'.tables p
  slots : ∀ i s, (k.tables.swapMap i).used = true → (k.tables.swapMap i).proc = some p →
    (k.tables.swapMap i).swapSlot = some s → k'.tables.swapUsed s = false
  zero : ∀ (n : Int32) (addr : ℕ) (k₁ : Kernel σ) (va : ℕ), 0 ≤ n.toInt →
    k'.sysSbrk p n.toInt false = .ok (some addr, k₁) → va < (k₁.procs p).sz →
    k₁.pte k₁.roots p (va / pgSize) = none →
    ∃ r k₂, k₁.vmfault S p va = .ok (r, k₂) ∧ ∀ pa, r = some pa → k₂.mem pa = 0

section Commit

variable {sz : ℕ}

/-- The ghost state in which `p` has another page table. -/
def giveTable (g : Ghost) (p : ProcIdx) (pagetable : PA) : Ghost :=
  { g with own := Function.update g.own p (some pagetable) }

/-- The state before the old table is freed, with any tables that suit it. -/
theorem Inv.switch (h : Inv k g) (hs : Synced k g) (hun : Unowned g new)
    (hn : g.size new = some n) {t : Tables}
    (ht : TablesOk t (giveTable g p new).np (k.pte (giveTable g p new).own) none) (sz : ℕ) :
    Inv ((k.switchTable p new sz).withTables t) (giveTable g p new) where
  pages := h.pages
  pt := h.pt
  own_size q root hq := by
    by_cases hqp : q = p
    · obtain rfl : new = root := by simpa [giveTable, hqp] using hq
      exact Option.isSome_iff_exists.2 ⟨n, hn⟩
    · exact h.own_size q root (by simpa [giveTable, hqp] using hq)
  own_inj q q' root hq hq' := by
    by_cases hqp : q = p <;> by_cases hqp' : q' = p
    · rw [hqp, hqp']
    · obtain rfl : new = root := by simpa [giveTable, hqp] using hq
      exact absurd (by simpa [giveTable, hqp'] using hq') (hun q')
    · obtain rfl : new = root := by simpa [giveTable, hqp'] using hq'
      exact absurd (by simpa [giveTable, hqp] using hq) (hun q)
    · exact h.own_inj q q' root (by simpa [giveTable, hqp] using hq)
        (by simpa [giveTable, hqp'] using hq')
  trapframe q pa hq := by
    refine h.trapframe q pa ?_
    rw [← hq]
    by_cases hqp : q = p <;> simp [withTables, switchTable, setProc, hqp]
  tables := by
    rw [show (giveTable g p new).pend = none from hs.pend]
    exact ht

/-- The old table is freed, and the frame table and the swap map stay. -/
theorem execCommit_freed (h : Inv k g) (hs : Synced k g) (hun : Unowned g new)
    (hn : g.size new = some (npages sz)) (hold : (k.procs p).pagetable = some old) {t : Tables}
    (ht : TablesOk t (giveTable g p new).np (k.pte (giveTable g p new).own) none) :
    ∃ k' g', k.execCommit p new sz = .ok (k'.withTables k.tables) ∧
      Freed L old ((k.switchTable p new sz).withTables t) (giveTable g p new) k' g' := by
  have ho : g.own p = some old := (hs.own p).trans hold
  have hne : new ≠ old := by
    rintro rfl
    exact hun p ho
  have hun' : Unowned (giveTable g p new) old := by
    intro q hq
    by_cases hqp : q = p
    · exact hne (by simpa [giveTable, hqp] using hq)
    · exact hqp (h.own_inj q p old (by simpa [giveTable, hqp] using hq) ho)
  have hcur : ((k.switchTable p new sz).procs p).pagetable ≠ some old := by
    simpa [switchTable, setProc] using hne
  obtain ⟨k', g', heq, hf⟩ := procFreepagetable_spec (L := L) (h.switch hs hun hn ht sz)
    (hs.size p old hold) hun' hcur
  refine ⟨k', g', ?_, hf⟩
  obtain ⟨hrun, -⟩ := procFreepagetable_ignores h.tables.freeFrame_none (k.procs p).sz
    ((k.switchTable p new sz).withTables t) hcur
  simp only [execCommit, hold]
  exact hrun.trans (congrArg (Except.map (withTables k.tables)) heq)

/-- Tables that hold nothing suit every state. -/
theorem tablesOk_init (np : ProcIdx → ℕ) (pte : ProcIdx → ℕ → Option Pte) :
    TablesOk .init np pte none := by
  refine ⟨?_, ?_, ?_, fun _ => rfl, ?_, ?_⟩ <;>
    simp [Tables.init, Frame.clear, SwapEntry.clear, SwapEntry.Holds]

/-- Where nothing is for `p`, its page table does not matter. -/
theorem Untracked.tablesOk (hno : Untracked k.tables p) (h : Inv k g) (hs : Synced k g) :
    TablesOk k.tables (giveTable g p new).np (k.pte (giveTable g p new).own) none := by
  have hother : ∀ q w, q ≠ p → (giveTable g p new).np q = g.np q ∧
      k.pte (giveTable g p new).own q w = k.pte g.own q w := by
    intro q w hq
    simp [giveTable, Ghost.np, pte, hq]
  refine (hs.pend ▸ h.tables).congr (fun i q w hi hlt => ?_) fun i q w hi hlt => ?_
  · have hq : q ≠ p := by
      rintro rfl
      simp only [Frame.entry, Prod.mk.injEq] at hi
      exact hno.frame i hi.1 hi.2.2.1
    exact ⟨(hother q w hq).1 ▸ hlt, (hother q w hq).2⟩
  · have hq : q ≠ p := by
      rintro rfl
      exact hno.swap i hi.1 hi.2.1
    exact ⟨(hother q w hq).1 ▸ hlt, (hother q w hq).2⟩

/-- Where nothing is for `p`, the new address space is a sound one. -/
theorem Untracked.execCommit_sound (hno : Untracked k.tables p) (h : Inv k g) (hs : Synced k g)
    (hun : Unowned g new) (hn : g.size new = some (npages sz))
    (hold : (k.procs p).pagetable = some old) (L : SwapLaws S) :
    ∃ k' g', k.execCommit p new sz = .ok k' ∧ Inv k' g' ∧ Synced k' g' ∧
      (k'.procs p).pagetable = some new := by
  have ho : g.own p = some old := (hs.own p).trans hold
  obtain ⟨k', g', heq, hf⟩ := execCommit_freed (L := L) h hs hun hn hold
    (hno.tablesOk h hs)
  have htab : k'.withTables k.tables = k' := by
    rw [show k.tables = k'.tables from hf.tables.symm]
    rfl
  rw [htab] at heq
  have hprocs : k'.procs = (k.switchTable p new sz).procs := hf.procs
  refine ⟨k', g', heq, hf.inv, ⟨fun q => ?_, fun q root hq => ?_, hf.pend.trans hs.pend⟩, ?_⟩
  · rw [hf.own, hprocs]
    by_cases hqp : q = p <;> simp [giveTable, switchTable, setProc, hqp, hs.own]
  · rw [hprocs] at hq ⊢
    rw [hf.size]
    by_cases hqp : q = p
    · subst hqp
      obtain rfl : new = root := by simpa [switchTable, setProc] using hq
      have hne : new ≠ old := by
        rintro rfl
        exact hun q ho
      simpa [hne, switchTable, setProc, giveTable] using hn
    · replace hq : (k.procs q).pagetable = some root := by
        simpa [switchTable, setProc, hqp] using hq
      have hne : root ≠ old := by
        rintro rfl
        exact hqp (h.own_inj q p root ((hs.own q).trans hq) ho)
      simpa [hne, switchTable, setProc, giveTable, hqp] using hs.size q root hq
  · rw [hprocs]
    simp [switchTable, setProc]

end Commit

/-- A page fault on a page that has neither a page table entry nor an entry in the swap map leads to
a zero page. -/
theorem vmfault_zero (L : SwapLaws S) (h : Inv k g) (hs : Synced k g)
    (hroot : (k.procs p).pagetable = some root) {va : ℕ} (hva : va < (k.procs p).sz)
    (hpte : k.pte k.roots p (va / pgSize) = none)
    (hswap : ∀ i, (k.tables.swapMap i).used = true → (k.tables.swapMap i).proc ≠ some p) :
    ∃ r k', k.vmfault S p va = .ok (r, k') ∧ ∀ pa, r = some pa → k'.mem pa = 0 := by
  obtain ⟨r, k', g', heq, hf⟩ := vmfault_spec L h hs hroot hva
  refine ⟨r, k', heq, fun pa hr => ?_⟩
  obtain ⟨perm, hmap, -⟩ := hf.mapped pa hr
  have hlog := hf.logical p (va / pgSize) (lt_trapframe h hs hroot hva)
  rw [hs.roots_eq] at hpte
  have hno : k.swapPage L p (va / pgSize) = none :=
    swapPage_none fun i hi => hswap i hi.1 hi.2.1
  simpa [Kernel.logical, hmap, hpte, hno] using hlog

theorem sysSbrk_lazy_tables {n : ℤ} {r : Option ℕ} (hn : 0 ≤ n)
    (h : k.sysSbrk p n false = .ok (r, k')) : k'.tables = k.tables := by
  simp only [sysSbrk, Bool.false_or, decide_eq_true_eq, if_neg (not_lt.2 hn)] at h
  split at h
  · exact (Prod.mk.inj (Except.ok.inj h)).2 ▸ rfl
  · split at h
    · exact (Prod.mk.inj (Except.ok.inj h)).2 ▸ rfl
    · exact (Prod.mk.inj (Except.ok.inj h)).2 ▸ rfl

/-- **`exec` discards nothing** of what the frame table and the swap map hold, so the paging state
of the old address space is gone afterwards exactly if there was none. -/
theorem execCommit_discards_iff (L : SwapLaws S) {sz : ℕ} (h : Prepared k new sz)
    (hold : (k.procs p).pagetable = some old) :
    ∃ k', k.execCommit p new sz = .ok k' ∧ k'.tables = k.tables ∧
      (Discarded S k p k' ↔ Untracked k.tables p) := by
  obtain ⟨g, hinv, hs, hun, hn⟩ := h
  obtain ⟨k', g', heq, -⟩ := execCommit_freed (L := L) hinv hs hun hn hold (tablesOk_init _ _)
  refine ⟨_, heq, rfl, fun hd => hd.untracked, fun hno => ⟨hno, fun i s hi hp => ?_, ?_⟩⟩
  · exact absurd hp (hno.swap i hi)
  · obtain ⟨k'', g'', heq', hinv', hs', hnew⟩ := hno.execCommit_sound hinv hs hun hn hold L
    obtain rfl := Except.ok.inj (heq.symm.trans heq')
    intro n addr k₁ va hpos hsbrk hva hpte
    obtain ⟨r, k₁', g₁, hsbrk', hinv₁, hs₁, -, hres⟩ := sysSbrk_spec L hinv' hs' hnew
      (n := n.toInt) n.le_toInt n.toInt_lt false
    obtain ⟨rfl, rfl⟩ := Prod.mk.inj (Except.ok.inj (hsbrk.symm.trans hsbrk'))
    have hroot : (k₁.procs p).pagetable = some new := by
      have := congrArg ProcCore.pagetable ((hres rfl).core p)
      exact this.trans (by simpa [Proc.core] using hnew)
    have htab : k₁.tables = k.tables := (sysSbrk_lazy_tables hpos hsbrk).trans rfl
    exact vmfault_zero L hinv₁ hs₁ hroot hva hpte (htab ▸ hno.swap)

/-! ## A page of the old image -/

/-- A page table for fewer than 512 pages. -/
def smallTable (mid low : PA) (leaf : ℕ → Option Pte) : PageTable where
  mid i := if i = 0 then some mid else none
  low j := if j = 0 then some low else none
  leaf := leaf

theorem smallTable_ok {use : PA → Use} {mid low : PA} {leaf : ℕ → Option Pte}
    (hroot : use root = .root) (hmid : use mid = .mid root 0) (hlow : use low = .low root 0)
    (hleaf : ∀ v pte, leaf v = some pte → v < n ∧ use pte.pa = .user root v) (hn : n ≤ 512) :
    PtOk (smallTable mid low leaf) use root n where
  root_use := hroot
  mid_lt i pg hi := by
    obtain ⟨rfl, -⟩ : i = 0 ∧ mid = pg := by simpa [smallTable] using hi
    decide
  mid_use i pg hi := by
    obtain ⟨rfl, rfl⟩ : i = 0 ∧ mid = pg := by simpa [smallTable] using hi
    exact hmid
  low_use j pg hj := by
    obtain ⟨rfl, rfl⟩ : j = 0 ∧ low = pg := by simpa [smallTable] using hj
    exact hlow
  low_mid j pg hj := by
    obtain ⟨rfl, -⟩ : j = 0 ∧ low = pg := by simpa [smallTable] using hj
    rfl
  leaf_low v pte hv := by
    have hv' : v < n := (hleaf v pte hv).1
    simp [smallTable, Nat.div_eq_of_lt (hv'.trans_le hn)]
  leaf_use v pte hv := .inr (hleaf v pte hv)
  bound := hn.trans (by decide)

/-- The pages in use by two page tables: the one of the process and one with two pages. -/
def imageUses : List (PA × Use) :=
  let page (i : ℕ) : PA := 0x80100000 + i * pgSize
  [(page 0, .root), (page 1, .mid (page 0) 0), (page 2, .low (page 0) 0),
    (page 3, .root), (page 4, .mid (page 3) 0), (page 5, .low (page 3) 0),
    (page 6, .user (page 3) 0), (page 7, .user (page 3) 1), (page 8, .free), (page 9, .free)]

def oldRoot : PA := 0x80100000

def newRoot : PA := 0x80103000

/-- A process of three pages, the last one of which is in swap, and the table of its new image of
two pages. -/
def image : Kernel Raid.Dev where
  tables := oneSwapped soleProc 2
  freelist := [0x80108000, 0x80109000]
  mem := fun _ => 0
  pts := fun root =>
    if root = newRoot then
      smallTable 0x80104000 0x80105000 fun v =>
        if v < 2 then some ⟨0x80106000 + v * pgSize, .userRw⟩ else none
    else smallTable 0x80101000 0x80102000 fun _ => none
  procs := fun p =>
    if p = soleProc then ⟨.running, 3 * pgSize, some oldRoot, none, 0, 0, 0, 0, 0, 0, 0⟩
    else ⟨.unused, 0, none, none, 0, 0, 0, 0, 0, 0, 0⟩
  swap := ((raidSwap .raid5).write ⟨0, maxSwapPages_pos⟩ (fun _ => 9) Raid.blankDev).2
  kernEnd := oldRoot
  trampoline := 0x80000000

def imageGhost : Ghost where
  use pa := (imageUses.lookup pa).getD .kernel
  size root := if root = newRoot then some 2 else if root = oldRoot then some 3 else none
  own p := if p = soleProc then some oldRoot else none
  pend := none

theorem image_pages : PagesOk image.freelist image.kernEnd imageGhost.use where
  free_use := by decide
  nodup := by decide
  managed pa hpa := by
    have hall : ∀ x ∈ imageUses, x.1 % pgSize = 0 ∧ image.kernEnd ≤ x.1 ∧ x.1 < phystop := by
      decide
    cases hl : imageUses.lookup pa with
    | none => simp [imageGhost, hl] at hpa
    | some u =>
      obtain ⟨l₁, l₂, heq, -⟩ := List.lookup_eq_some_iff.1 hl
      exact hall (pa, u) (heq ▸ by simp)

theorem image_newTable : PtOk (image.pts newRoot) imageGhost.use newRoot 2 := by
  refine smallTable_ok (by decide) (by decide) (by decide) (fun v pte hv => ?_) (by decide)
  obtain ⟨hlt, hpte⟩ := Option.ite_none_right_eq_some.1 hv
  obtain rfl := Option.some.inj hpte
  have hall : ∀ v < 2, imageGhost.use (0x80106000 + v * pgSize) = .user newRoot v := by decide
  exact ⟨hlt, hall v hlt⟩

theorem image_oldTable : PtOk (image.pts oldRoot) imageGhost.use oldRoot 3 :=
  smallTable_ok (by decide) (by decide) (by decide) nofun (by decide)

theorem image_prepared : image.Prepared newRoot (2 * pgSize) := by
  have hown : ∀ {p root}, imageGhost.own p = some root → p = soleProc ∧ root = oldRoot := by
    intro p root ho
    simpa [imageGhost, eq_comm] using ho
  have hroots : ∀ p, imageGhost.own p = (image.procs p).pagetable := by
    intro p
    by_cases hp : p = soleProc <;> simp [imageGhost, image, hp]
  refine ⟨imageGhost, ⟨image_pages, fun root n hn => ?_, fun p root ho => ?_,
    fun p q root hp hq => ?_, fun p pa hpa => ?_, oneSwapped_ok (by decide) (by decide)⟩,
    ⟨hroots, fun p root hp => ?_, rfl⟩, fun p hp => ?_, rfl⟩
  · by_cases hnew : root = newRoot
    · obtain rfl : 2 = n := by simpa [imageGhost, hnew] using hn
      exact hnew ▸ image_newTable
    · obtain ⟨rfl, rfl⟩ : root = oldRoot ∧ 3 = n := by simpa [imageGhost, hnew] using hn
      exact image_oldTable
  · obtain ⟨-, rfl⟩ := hown ho
    rfl
  · rw [(hown hp).1, (hown hq).1]
  · by_cases hp : p = soleProc <;> simp [image, hp] at hpa
  · obtain ⟨rfl, rfl⟩ := hown ((hroots p).trans hp)
    rfl
  · exact absurd (hown hp).2 (by decide)

theorem image_discards_iff : image.Prepared newRoot (2 * pgSize) ∧
    ∃ k', image.execCommit soleProc newRoot (2 * pgSize) = .ok k' ∧ k'.tables = image.tables ∧
      (Discarded (raidSwap .raid5) image soleProc k' ↔ Untracked image.tables soleProc) :=
  ⟨image_prepared, execCommit_discards_iff (raidSwapLaws .raid5) image_prepared rfl⟩

/-- After the `exec` and a lazy `sbrk` of one page: the first entry of the swap map after the
`exec`, and a byte of the page that the page fault on the new page leads to. -/
def imageRun : Result (SwapEntry × Option Byte) := do
  let k ← image.execCommit soleProc newRoot (2 * pgSize)
  let (_, k₁) ← k.sysSbrk soleProc pgSize false
  let (r, k₂) ← k₁.vmfault (raidSwap .raid5) soleProc (2 * pgSize)
  return (k.tables.swapMap ⟨0, maxSwapPages_pos⟩, r.map fun pa => k₂.mem pa ⟨0, by decide⟩)

theorem imageRun_eq : imageRun =
    .ok (⟨true, some soleProc, 2 * pgSize, some ⟨0, by decide⟩⟩, some 9) := by
  decide +kernel

/-- The page of the old image is read back in the new one. -/
theorem image_not_discarded : image.Prepared newRoot (2 * pgSize) ∧
    (image.procs soleProc).pagetable = some oldRoot ∧
    ∃ k' addr k₁ pa k₂, image.execCommit soleProc newRoot (2 * pgSize) = .ok k' ∧
      k'.sysSbrk soleProc pgSize false = .ok (addr, k₁) ∧
      k₁.vmfault (raidSwap .raid5) soleProc (2 * pgSize) = .ok (some pa, k₂) ∧
      k₂.mem pa ≠ 0 ∧ ¬ Discarded (raidSwap .raid5) image soleProc k' := by
  refine ⟨image_prepared, rfl, ?_⟩
  have hrun := imageRun_eq
  unfold imageRun at hrun
  cases hexec : image.execCommit soleProc newRoot (2 * pgSize) with
  | error e => simp [hexec, Bind.bind, Except.bind] at hrun
  | ok k' =>
    rw [hexec, ok_bind] at hrun
    cases hsbrk : k'.sysSbrk soleProc pgSize false with
    | error e => simp [hsbrk, Bind.bind, Except.bind] at hrun
    | ok r =>
      obtain ⟨addr, k₁⟩ := r
      rw [hsbrk, ok_bind] at hrun
      cases hfault : k₁.vmfault (raidSwap .raid5) soleProc (2 * pgSize) with
      | error e => simp [hfault, Bind.bind, Except.bind] at hrun
      | ok r =>
        obtain ⟨r, k₂⟩ := r
        simp only [hfault, ok_bind] at hrun
        obtain ⟨hentry, hbyte⟩ := Prod.mk.inj (Except.ok.inj hrun)
        obtain ⟨pa, rfl, hpa⟩ := Option.map_eq_some_iff.1 hbyte
        refine ⟨k', addr, k₁, pa, k₂, rfl, hsbrk, hfault, fun h0 => ?_, fun hd => ?_⟩
        · rw [h0] at hpa
          exact absurd hpa (by decide)
        · exact hd.untracked.swap ⟨0, by decide⟩ (by rw [hentry]) (by rw [hentry])

end Xv6Swap.Paging.Kernel
