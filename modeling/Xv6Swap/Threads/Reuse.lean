import Xv6Swap.Threads.Slots

/-!
# Reuse of process slots

Entries of the frame table and the swap map name a process by its slot in `proc[]`, and slots are
used again. `Tags` records, as a history variable, for which incarnation of its process each entry
was made. If `free_proc_swap_slots` runs only while no eviction has a page of the process
(`FreesSettled`), every entry is for a process that exists and for its present incarnation
(`entries_current`); if not, an eviction can record a page of a process that is gone
(`outlived_entry`).
-/

namespace Xv6Swap.Paging

open Interleave (System Cfg)
open Raid (pgSize)
open Tables (SameEntries Begun)

/-- The incarnation of each process, and the one that each entry and each victim was made for. -/
structure Tags where
  gen : ProcIdx → ℕ
  frame : FrameIdx → ℕ
  swap : SlotIdx → ℕ
  victim : ProcIdx → ℕ

namespace Tags

/-- The incarnation that `p` makes an entry of `o` for: at the end of an eviction that of the
victim, and otherwise the present one. -/
def made (x : Tags) (p : ProcIdx) (evicted : Bool) (o : Option ProcIdx) : ℕ :=
  if evicted then x.victim p else o.elim 0 x.gen

/-- A step of `p` from `h` and `t` to `h'` and `t'`: the entries that it has changed get new tags,
and a new victim gets the tag of its entry. -/
def retag (p : ProcIdx) (h h' : Hold) (t t' : Tables) (x : Tags) : Tags :=
  { x with
    frame := fun i =>
      if (t'.frameTable i).entry = (t.frameTable i).entry then x.frame i
      else x.made p (h.victim.map Victim.frame = some i) (t'.frameTable i).proc
    swap := fun s =>
      if t'.swapMap s = t.swapMap s then x.swap s
      else x.made p (h.victim.map Victim.slot = some s) (t'.swapMap s).proc
    victim := Function.update x.victim p <|
      match h.victim, h'.victim with
      | none, some v => x.frame v.frame
      | _, _ => x.victim p }

/-- A process that is allocated is a new incarnation. -/
def born {σ : Type} (k k' : Kernel σ) (x : Tags) : Tags :=
  { x with
    gen := fun q =>
      if (k.procs q).state = .unused ∧ (k'.procs q).state ≠ .unused then x.gen q + 1
      else x.gen q }

def next {σ : Type} (p : ProcIdx) (r r' : Pc × Shared σ) (x : Tags) : Tags :=
  (x.retag p r.1.hold r'.1.hold r.2.kern.tables r'.2.kern.tables).born r.2.kern r'.2.kern

end Tags

/-- Every entry and every victim is of a process in `A`, and for its present incarnation. -/
structure TagsOk (t : Tables) (H : ProcIdx → Hold) (A : ProcIdx → Prop) (x : Tags) : Prop where
  frame : ∀ i q, (t.frameTable i).evictable = true → (t.frameTable i).proc = some q →
    A q ∧ x.frame i = x.gen q
  swap : ∀ s q, (t.swapMap s).used = true → (t.swapMap s).proc = some q →
    A q ∧ x.swap s = x.gen q
  victim : ∀ p v q, (H p).victim = some v → v.proc = some q → A q ∧ x.victim p = x.gen q

namespace TagsOk

variable {t t' : Tables} {H : ProcIdx → Hold} {A A' : ProcIdx → Prop} {x : Tags} {p q : ProcIdx}
  {h : Hold}

/-- It is enough to look at the entries that a step has changed and at a new victim. -/
theorem retag (hok : TagsOk t H A x)
    (hframe : ∀ i q, (t'.frameTable i).entry ≠ (t.frameTable i).entry →
      (t'.frameTable i).evictable = true → (t'.frameTable i).proc = some q →
      A q ∧ x.made p ((H p).victim.map Victim.frame = some i) (some q) = x.gen q)
    (hswap : ∀ s q, t'.swapMap s ≠ t.swapMap s → (t'.swapMap s).used = true →
      (t'.swapMap s).proc = some q →
      A q ∧ x.made p ((H p).victim.map Victim.slot = some s) (some q) = x.gen q)
    (hvictim : ∀ v q, h.victim = some v → v.proc = some q → (H p).victim = some v ∨
      (H p).victim = none ∧ A q ∧ x.frame v.frame = x.gen q) :
    TagsOk t' (Function.update H p h) A (x.retag p (H p) h t t') := by
  refine ⟨fun i q hi hq => ?_, fun s q hs hq => ?_, fun r v q hr hq => ?_⟩
  · by_cases heq : (t'.frameTable i).entry = (t.frameTable i).entry
    · have huser : (t'.frameTable i).evictable = (t.frameTable i).evictable := by
        simp only [Frame.entry, Prod.mk.injEq] at heq
        simp [Frame.evictable, heq]
      have hproc : (t'.frameTable i).proc = (t.frameTable i).proc := congrArg (·.2.2.1) heq
      obtain ⟨hA, htag⟩ := hok.frame i q (huser ▸ hi) (hproc ▸ hq)
      exact ⟨hA, by simpa [Tags.retag, heq] using htag⟩
    · obtain ⟨hA, htag⟩ := hframe i q heq hi hq
      exact ⟨hA, by simpa [Tags.retag, heq, hq] using htag⟩
  · by_cases heq : t'.swapMap s = t.swapMap s
    · rw [heq] at hs hq
      obtain ⟨hA, htag⟩ := hok.swap s q hs hq
      exact ⟨hA, by simpa [Tags.retag, heq] using htag⟩
    · obtain ⟨hA, htag⟩ := hswap s q heq hs hq
      exact ⟨hA, by simpa [Tags.retag, heq, hq] using htag⟩
  · by_cases hrp : r = p
    · subst hrp
      replace hr : h.victim = some v := by simpa using hr
      rcases hvictim v q hr hq with hold | ⟨hnone, hA, htag⟩
      · obtain ⟨hA, htag⟩ := hok.victim r v q hold hq
        exact ⟨hA, by simpa [Tags.retag, hold] using htag⟩
      · exact ⟨hA, by simpa [Tags.retag, hnone, hr] using htag⟩
    · obtain ⟨hA, htag⟩ := hok.victim r v q (by simpa [hrp] using hr) hq
      exact ⟨hA, by simpa [Tags.retag, hrp] using htag⟩

/-- Steps that change neither entries nor the victim, or drop some. -/
theorem drop (hok : TagsOk t H A x)
    (hframe : ∀ i, (t'.frameTable i).entry = (t.frameTable i).entry ∨
      (t'.frameTable i).evictable = false)
    (hswap : ∀ s, t'.swapMap s = t.swapMap s ∨ (t'.swapMap s).used = false)
    (hvictim : h.victim = none ∨ h.victim = (H p).victim) :
    TagsOk t' (Function.update H p h) A (x.retag p (H p) h t t') := by
  refine hok.retag (fun i q hne hi => ?_) (fun s q hne hs => ?_) fun v q hv hq => ?_
  · rcases hframe i with heq | hnot
    · exact absurd heq hne
    · simp [hnot] at hi
  · rcases hswap s with heq | hnot
    · exact absurd heq hne
    · simp [hnot] at hs
  · rcases hvictim with hnone | hsame
    · simp [hnone] at hv
    · exact .inl (hsame ▸ hv)

/-- An entry that `p` makes outside an eviction is for the present incarnation. -/
theorem made_now (hnone : (H p).victim = none) {α : Type} [DecidableEq α] (f : Victim → α) (y : α) :
    x.made p ((H p).victim.map f = some y) (some q) = x.gen q := by
  simp [Tags.made, hnone]

theorem alloc_step (hok : TagsOk t H A x) (hp : A p) {va : ℕ} {v v' : Option Victim}
    {found found' : Found} (hH : H p = ⟨v, none, found⟩) (he : AllocEffect p va v t v' t') :
    TagsOk t' (Function.update H p ⟨v', none, found'⟩) A
      (x.retag p (H p) ⟨v', none, found'⟩ t t') := by
  cases he with
  | same hsame =>
    exact hok.drop (fun i => .inl (hsame.frame i)) (fun s => .inl (by rw [hsame.swapMap]))
      (.inr (by rw [hH]))
  | @begun v _ _ hb =>
    refine hok.retag (fun i q hne hi => ?_) (fun s q hne => ?_) fun w q hw hq => .inr ?_
    · by_cases hiv : i = v.frame
      · simp [hiv, hb.hidden, Frame.evictable] at hi
      · exact absurd (hb.frame i hiv) hne
    · exact absurd (by rw [hb.swapMap]) hne
    · obtain rfl := Option.some.inj hw
      have hentry := hb.entry
      simp only [Frame.entry, Prod.mk.injEq] at hentry
      exact ⟨by rw [hH], hok.frame v.frame q (by simp [Frame.evictable, hentry])
        (hentry.2.2.1.trans hq)⟩
  | @abort v =>
    refine hok.drop (fun i => ?_) (fun s => .inl rfl) (.inl rfl)
    by_cases hiv : i = v.frame
    · exact .inr (by simp [hiv, Tables.evictAbort, Tables.setFrame, Tables.decCount, Frame.clear,
        Frame.evictable])
    · exact .inl (by simp [hiv, Tables.evictAbort, Tables.setFrame, Tables.decCount,
        Tables.setSwapUsed])
  | @undo v =>
    refine hok.retag (fun i q hne hi hq => ?_) (fun s q hne => absurd rfl hne) (by simp)
    by_cases hiv : i = v.frame
    · subst hiv
      have hq' : v.proc = some q := by
        simpa [Tables.evictUndo, Tables.restoreVictimFrame, Tables.setFrame] using hq
      obtain ⟨hA, htag⟩ := hok.victim p v q (by rw [hH]) hq'
      exact ⟨hA, by simpa [Tags.made, hH] using htag⟩
    · exact absurd (by simp [hiv, Tables.evictUndo, Tables.restoreVictimFrame, Tables.setFrame,
        Tables.setSwapUsed]) hne
  | @publish v =>
    refine hok.retag (fun i q hne hi => ?_) (fun s q hne hs hq => ?_) (by simp)
    · by_cases hiv : i = v.frame
      · simp [hiv, Tables.evictPublish, Tables.setFrame, Tables.decCount, Frame.evictable] at hi
      · exact absurd (by simp [hiv, Tables.evictPublish, Tables.setFrame, Tables.decCount,
          Tables.setSwap]) hne
    · by_cases hsv : s = v.slot
      · subst hsv
        have hq' : v.proc = some q := by
          simpa [Tables.evictPublish, Tables.setFrame, Tables.decCount, Tables.setSwap] using hq
        obtain ⟨hA, htag⟩ := hok.victim p v q (by rw [hH]) hq'
        exact ⟨hA, by simpa [Tags.made, hH] using htag⟩
      · exact absurd (by simp [hsv, Tables.evictPublish, Tables.setFrame, Tables.decCount,
          Tables.setSwap]) hne
  | register hreg =>
    obtain ⟨j, -, rfl⟩ := Tables.registerUserFrame_eq_some hreg
    refine hok.retag (fun i q hne hi hq => ?_) (fun s q hne => absurd rfl hne) (by simp)
    by_cases hij : i = j
    · subst hij
      obtain rfl : p = q := by simpa [Tables.setFrame] using hq
      exact ⟨hp, made_now (by rw [hH]) Victim.frame i⟩
    · exact absurd (by simp [Tables.setFrame, hij]) hne

/-- What one step does to the tables, if the process that it makes an entry for exists. -/
theorem step {l : Pc} (hok : TagsOk t H A x) (hp : A p)
    (hinsert : ∀ q n dst, l = .fork q (.insert n dst) → A q)
    (hs : TableStep p l (H p) t h t') :
    TagsOk t' (Function.update H p h) A (x.retag p (H p) h t t') := by
  generalize hH : H p = h₀ at hs
  rw [← hH]
  cases hs with
  | same hsame =>
    exact hok.drop (fun i => .inl (hsame.frame i)) (fun s => .inl (by rw [hsame.swapMap]))
      (.inr (by rw [hH]))
  | forget | lookup | unreserve =>
    exact hok.drop (fun i => .inl rfl) (fun s => .inl rfl) (.inl rfl)
  | alloc he => exact hok.alloc_step hp hH he
  | @freeFrame o va =>
    refine hok.drop (fun i => ?_) (fun s => .inl ?_) (.inl rfl)
    · rcases t.freeFrameEntry_frame o va i with heq | ⟨-, hclear⟩
      · exact .inl (by rw [heq])
      · exact .inr (by rw [hclear]; rfl)
    · unfold Tables.freeFrameEntry
      split <;> rfl
  | @finish va i slot =>
    have hsame := t.sameEntries_setRefBit p va
    refine hok.drop (fun j => .inl ?_) (fun s => ?_) (.inl rfl)
    · rw [← hsame.frame]
      cases slot <;> rfl
    · by_cases hsi : s = i
      · exact .inr (by simp [hsi, Tables.releaseSwap, Tables.setSwap, SwapEntry.clear])
      · rw [← hsame.swapMap]
        exact .inl (by cases slot <;>
          simp [hsi, Tables.releaseSwap, Tables.releaseSlot, Tables.setSwap, Tables.setSwapUsed])
  | @freeSwap va =>
    refine hok.drop (fun j => .inl ?_) (fun s => ?_) (.inl rfl)
    · rw [(t.freeSwapEntry_frameTable p va).1]
    · unfold Tables.freeSwapEntry
      split
      · rename_i i _
        by_cases hsi : s = i
        · exact .inr (by simp [hsi, Tables.releaseSwap, Tables.setSwap, SwapEntry.clear])
        · exact .inl (by simp [Tables.releaseSwap, Tables.setSwap, hsi,
            (t.releaseSlot_frameTable _).2.1])
      · exact .inl rfl
  | reserve hres =>
    obtain ⟨-, rfl⟩ := Tables.reserveSlot_eq_some hres
    exact hok.drop (fun i => .inl rfl) (fun s => .inl rfl) (.inl rfl)
  | @insert q n i dst _ hl hi =>
    refine hok.retag (fun i q hne => absurd rfl hne) (fun s r hne hs hr => ?_)
      (by rintro _ _ ⟨⟩)
    by_cases hsi : s = i
    · subst hsi
      obtain rfl : q = r := by simpa [Tables.setSwap] using hr
      exact ⟨hinsert q n dst hl, made_now (by rw [hH]) Victim.slot s⟩
    · exact absurd (by simp [Tables.setSwap, hsi]) hne
  | @freeProc q =>
    have hf := t.freeProcSwapSlots_spec q
    refine hok.drop (fun i => ?_) (fun s => ?_) (.inl rfl)
    · rw [hf.frame]
      split
      · exact .inr rfl
      · exact .inl rfl
    · rw [hf.swapMap]
      split
      · exact .inr rfl
      · exact .inl rfl

end TagsOk

/-! ## Processes that are being freed -/

/-- The tables hold nothing of the process any more. -/
def FreePc.emptied : FreePc → Bool
  | .trapframe | .slots => false
  | .detach | .pages _ | .walk _ | .reset => true

/-- The process that is being freed and whose entries are freed already. -/
def Pc.freeing : Pc → Option ProcIdx
  | .fork q (.free pc) | .reap q pc => if pc.emptied then some q else none
  | _ => none

/-- The process whose entries are freed in the next step. -/
def Pc.clearing : Pc → Option ProcIdx
  | .fork q (.free .slots) | .reap q .slots => some q
  | _ => none

theorem Pc.target_of_freeing {l : Pc} {q : ProcIdx} (h : l.freeing = some q) :
    l.target = some q := by
  cases l with
  | user | fault | grow => cases h
  | fork r pc =>
    cases pc with
    | free pc => exact (Option.ite_none_right_eq_some.1 h).2
    | page | lookup | read | reserve | write | unreserve | insert | err | undo => cases h
  | reap r pc => exact (Option.ite_none_right_eq_some.1 h).2

namespace Kernel

variable {σ : Type} {S : SwapOps σ} {k k' : Kernel σ} {p q cur : ProcIdx}

/-- A process with a page table has its entries freed before it is emptied. -/
theorem freeNext_emptied {pc pc' : FreePc} (hq : (k.procs q).pagetable.isSome)
    (h : k.freeNext cur q pc = .ok (.go pc', k')) (he : pc'.emptied = true) :
    pc.emptied = true ∨ pc = .slots ∧ k'.tables = k.tables.freeProcSwapSlots q := by
  cases pc with
  | trapframe =>
    obtain ⟨k₁, hfree, h⟩ := bind_eq_ok.1 h
    obtain ⟨hgo, rfl⟩ := Prod.mk.inj (Except.ok.inj h)
    have hq' : (k₁.procs q).pagetable.isSome := by
      rw [(freeTrapframe_life hfree).2.pagetable]
      exact hq
    rw [if_pos hq'] at hgo
    cases hgo
    cases he
  | slots =>
    have hk : { k with tables := k.tables.freeProcSwapSlots q } = k' :=
      (Prod.mk.inj (Except.ok.inj h)).2
    exact .inr ⟨rfl, by rw [← hk]⟩
  | detach | pages | walk | reset => exact .inl rfl

theorem forkNext_emptied {pc : ForkPc} {f : FreePc} (hq : (k.procs q).pagetable.isSome)
    (h : k.forkNext S p q pc = .ok (.go (.free f), k')) (he : f.emptied = true) :
    ∃ f₀, pc = .free f₀ ∧
      (f₀.emptied = true ∨ f₀ = .slots ∧ k'.tables = k.tables.freeProcSwapSlots q) := by
  -- elsewhere `freeproc` is entered at its start
  have hstart : ∀ next : Next Unmapping Unit, forkUnmapped next ≠ .free f := by
    rintro (u | u) heq
    · cases heq
    · cases heq
      cases he
  cases pc with
  | page i =>
    change k.copyPage p q i = _ at h
    unfold copyPage at h
    split at h
    · cases h
    · split at h
      · cases h
      · obtain ⟨⟨pc, k₁⟩, hcopy, h⟩ := bind_eq_ok.1 h
        obtain ⟨hgo, -⟩ := Prod.mk.inj (Except.ok.inj h)
        obtain rfl := Next.go.inj hgo
        rcases (copyResident_untouched hcopy).2 with hpc | hpc <;> cases hpc
  | lookup i =>
    obtain ⟨hgo, -⟩ := Prod.mk.inj (Except.ok.inj h)
    have hpc := Next.go.inj hgo
    unfold copyLookup at hpc
    split at hpc <;> cases hpc
  | read i src =>
    obtain ⟨⟨pc, k₁⟩, hread, h⟩ := bind_eq_ok.1 h
    obtain ⟨hgo, -⟩ := Prod.mk.inj (Except.ok.inj h)
    obtain rfl := Next.go.inj hgo
    rcases (copyRead_life hread).2.2 with hpc | ⟨tmp, hpc⟩ <;> cases hpc
  | reserve i tmp =>
    obtain ⟨⟨pc, k₁⟩, hreserve, h⟩ := bind_eq_ok.1 h
    obtain ⟨hgo, -⟩ := Prod.mk.inj (Except.ok.inj h)
    obtain rfl := Next.go.inj hgo
    rcases (copyReserve_life hreserve).2 with ⟨-, hpc⟩ | ⟨dst, -, hpc⟩ <;> cases hpc
  | write i tmp dst =>
    obtain ⟨⟨pc, k₁⟩, hwrite, h⟩ := bind_eq_ok.1 h
    obtain ⟨hgo, -⟩ := Prod.mk.inj (Except.ok.inj h)
    obtain rfl := Next.go.inj hgo
    rcases (copyWrite_life hwrite).2.2 with hpc | hpc <;> cases hpc
  | unreserve i tmp dst =>
    obtain ⟨k₁, hfree, h⟩ := bind_eq_ok.1 h
    cases h
  | insert i dst =>
    have hgo := Except.ok.inj h
    unfold copyInsert at hgo
    split at hgo <;> cases hgo
  | err i =>
    obtain ⟨hgo, -⟩ := Prod.mk.inj (Except.ok.inj h)
    have hpc := Next.go.inj hgo
    unfold copyErr at hpc
    split at hpc
    · cases hpc
      cases he
    · exact absurd hpc (hstart _)
  | undo u =>
    obtain ⟨⟨next, k₁⟩, hunmap, h⟩ := bind_eq_ok.1 h
    obtain ⟨hgo, -⟩ := Prod.mk.inj (Except.ok.inj h)
    exact absurd (Next.go.inj hgo) (hstart _)
  | free f₀ =>
    obtain ⟨⟨next, k₁⟩, hfree, h⟩ := bind_eq_ok.1 h
    cases next with
    | go f₁ =>
      obtain ⟨hgo, rfl⟩ := Prod.mk.inj (Except.ok.inj h)
      obtain rfl := ForkPc.free.inj (Next.go.inj hgo)
      exact ⟨f₀, rfl, freeNext_emptied hq hfree he⟩
    | ret r => cases (Prod.mk.inj (Except.ok.inj h)).1

end Kernel

section Steps

variable {σ : Type} {S : SwapOps σ} {c : Cfg ProcIdx Pc (Shared σ)} {g : Shared σ} {p q : ProcIdx}
  {l : Pc} {a : Act}

/-- A process is emptied by freeing its entries. -/
theorem next_freeing (h : LifeOk c) (hn : (procSystem S).next p a (c.loc p) c.mem = some (l, g))
    (hq : l.freeing = some q) : (c.loc p).freeing = some q ∨
      (c.loc p).clearing = some q ∧
        g.kern.tables = c.mem.kern.tables.freeProcSwapSlots q := by
  have htable : ∀ r, (c.loc p).target = some r → (c.mem.kern.procs r).pagetable.isSome :=
    fun r hr => h.table r (h.target p r hr).2.2
  rcases procSystem_next hn with ⟨hl, -, hu⟩ | ⟨-, -, hk⟩
  · -- from user mode `freeproc` is at its start
    rcases next_life hn with ⟨-, ht⟩ | _ | _ | _ | _ | _ | _
    · have := Pc.target_of_freeing hq
      rw [ht, hl] at this
      cases this
    all_goals cases hq
  · cases hloc : c.loc p with
    | user =>
      rw [hloc] at hk
      cases hk
    | fault va pc =>
      rw [hloc] at hk
      rcases Shared.proceed_eq_some hk with ⟨_, _, _, rfl, rfl⟩ | ⟨_, _, _, rfl, rfl⟩ <;> cases hq
    | grow pc =>
      rw [hloc] at hk
      rcases Shared.proceed_eq_some hk with ⟨_, _, _, rfl, rfl⟩ | ⟨_, _, _, rfl, rfl⟩ <;> cases hq
    | fork r pc =>
      have hr := htable r (by rw [hloc]; rfl)
      rw [hloc] at hk
      rcases Shared.proceed_eq_some hk with ⟨pc', k, hfork, rfl, rfl⟩ | ⟨_, _, _, rfl, rfl⟩
      · cases pc' with
        | free f =>
          obtain ⟨he, hrq⟩ := Option.ite_none_right_eq_some.1 hq
          obtain rfl := Option.some.inj hrq
          obtain ⟨f₀, rfl, he₀ | ⟨rfl, htab⟩⟩ := Kernel.forkNext_emptied hr hfork he
          · exact .inl (if_pos he₀)
          · exact .inr ⟨rfl, htab⟩
        | page | lookup | read | reserve | write | unreserve | insert | err | undo => cases hq
      · cases hq
    | reap r pc =>
      have hr := htable r (by rw [hloc]; rfl)
      rw [hloc] at hk
      rcases Shared.proceed_eq_some hk with ⟨pc', k, hfree, rfl, rfl⟩ | ⟨_, _, _, rfl, rfl⟩
      · obtain ⟨he, hrq⟩ := Option.ite_none_right_eq_some.1 hq
        obtain rfl := Option.some.inj hrq
        rcases Kernel.freeNext_emptied hr hfree he with he₀ | ⟨rfl, htab⟩
        · exact .inl (if_pos he₀)
        · exact .inr ⟨rfl, htab⟩
      · cases hq

/-- The process exists and its entries have not been freed. -/
def Lives (c : Cfg ProcIdx Pc (Shared σ)) (q : ProcIdx) : Prop :=
  (c.mem.kern.procs q).state ≠ .unused ∧ ∀ r, (c.loc r).freeing ≠ some q

theorem Lives.next (hq : Lives c q) (hn : (procSystem S).next p a (c.loc p) c.mem = some (l, g))
    (hl : l.freeing ≠ some q) : Lives ⟨Function.update c.loc p l, g⟩ q := by
  refine ⟨?_, fun r => ?_⟩
  · have hbut : ∀ {r k}, r ≠ q → c.mem.kern.SameLifeBut r k → (k.procs q).state ≠ .unused :=
      fun hr h => (congrArg Prod.fst (h q hr.symm)).trans_ne hq.1
    cases next_life hn with
    | keep hlife => exact (hlife.state q).trans_ne hq.1
    | exit status =>
      by_cases hqp : q = p
      · simp [hqp, Kernel.kexit, Kernel.setProc]
      · exact hbut (Ne.symm hqp) (c.mem.kern.setProc_sameLifeBut p fun proc =>
          { proc with xstate := status, state := .zombie })
    | forkFail _ hr hsame | fork _ hr _ hsame =>
      refine hbut ?_ hsame
      rintro rfl
      exact hq.1 hr
    | wait => exact hq.1
    | @forked r i hloc =>
      by_cases hqr : q = r
      · simp [hqr, Shared.setLock, Kernel.forkDone, Kernel.setProc]
      · exact hbut (Ne.symm hqr) (Kernel.forkDone_sameLifeBut p r _)
    | @freed r hloc =>
      refine hbut ?_ (Kernel.resetProc_sameLifeBut r _)
      rintro rfl
      refine hq.2 p ?_
      rcases hloc with hloc | hloc <;> rw [hloc] <;> rfl
  · change (Function.update c.loc p l r).freeing ≠ some q
    by_cases hr : r = p
    · rwa [hr, Function.update_self]
    · rw [Function.update_of_ne hr]
      exact hq.2 r

theorem LifeOk.lives (h : LifeOk c) (hp : c.mem.runs p = true) : Lives c p := by
  refine ⟨fun hun => ?_, fun r hr => ?_⟩
  · simp [Shared.runs, hun, ProcState.runs] at hp
  · simp [(h.target r p (Pc.target_of_freeing hr)).2.1] at hp

/-- A child whose pages are copied exists. -/
theorem LifeOk.lives_target (h : LifeOk c) (hq : (c.loc p).target = some q)
    (hnot : (c.loc p).freeing = none) : Lives c q := by
  refine ⟨(h.target p q hq).2.2, fun r hr => ?_⟩
  obtain rfl := h.target_inj r p q (Pc.target_of_freeing hr) hq
  simp [hnot] at hr

end Steps

/-! ## Runs -/

/-- An entry or a victim is of the process `q`. -/
def Named (t : Tables) (H : ProcIdx → Hold) (q : ProcIdx) : Prop :=
  (∃ i, t.OwnFrame q i) ∨ (∃ s, t.OwnSwap q s) ∨
    ∃ p v, (H p).victim = some v ∧ v.proc = some q

theorem TagsOk.born {σ : Type} {t : Tables} {H : ProcIdx → Hold} {A A' : ProcIdx → Prop} {x : Tags}
    {k k' : Kernel σ} (hok : TagsOk t H A x)
    (hA : ∀ q, Named t H q → A q → A' q ∧ (k.procs q).state ≠ .unused) :
    TagsOk t H A' (x.born k k') := by
  have hgen : ∀ q, (k.procs q).state ≠ .unused → (x.born k k').gen q = x.gen q :=
    fun q hq => by simp [Tags.born, hq]
  refine ⟨fun i q hi hq => ?_, fun s q hs hq => ?_, fun p v q hv hq => ?_⟩
  · obtain ⟨hAq, htag⟩ := hok.frame i q hi hq
    obtain ⟨hA', hstate⟩ := hA q (.inl ⟨i, hi, hq⟩) hAq
    exact ⟨hA', htag.trans (hgen q hstate).symm⟩
  · obtain ⟨hAq, htag⟩ := hok.swap s q hs hq
    obtain ⟨hA', hstate⟩ := hA q (.inr (.inl ⟨s, hs, hq⟩)) hAq
    exact ⟨hA', htag.trans (hgen q hstate).symm⟩
  · obtain ⟨hAq, htag⟩ := hok.victim p v q hv hq
    obtain ⟨hA', hstate⟩ := hA q (.inr (.inr ⟨p, v, hv, hq⟩)) hAq
    exact ⟨hA', htag.trans (hgen q hstate).symm⟩

section Runs

variable {σ : Type} {S : SwapOps σ} {c c₀ : Cfg ProcIdx Pc (Shared σ × Tags)} {p q : ProcIdx}
  {a : Act} {l : Pc} {g : Shared σ × Tags}

/-- `free_proc_swap_slots` runs only while no eviction has a page of the process as its victim. -/
def FreesSettled (c : Cfg ProcIdx Pc (Shared σ × Tags)) (p : ProcIdx) (_ : Act) : Prop :=
  ∀ q, (c.loc p).clearing = some q →
    ∀ r v, (c.loc r).hold.victim = some v → v.proc ≠ some q

/-- The invariant of runs. -/
structure ReuseInv (c : Cfg ProcIdx Pc (Shared σ × Tags)) : Prop where
  life : LifeOk c.erase
  owner : OwnerOk c.erase
  tags : TagsOk c.mem.1.kern.tables (holds c.erase) (Lives c.erase) c.mem.2

/-- After its entries are freed nothing is of the process. -/
theorem not_named_of_freed (hok : FreesSettled c p a) {l : Pc} {g : Shared σ}
    (hclear : (c.loc p).clearing = some q) (hl : l.freeing = some q)
    (htab : g.kern.tables = c.mem.1.kern.tables.freeProcSwapSlots q) :
    ¬ Named g.kern.tables (holds ⟨Function.update c.loc p l, g⟩) q := by
  have hf := c.mem.1.kern.tables.freeProcSwapSlots_spec q
  rw [htab]
  rintro (⟨i, hi, hq⟩ | ⟨s, hs, hq⟩ | ⟨r, v, hv, hq⟩)
  · rw [hf.frame] at hi hq
    split at hi
    · cases hi
    · rename_i hown
      rw [if_neg hown] at hq
      exact hown ⟨hi, hq⟩
  · rw [hf.swapMap] at hs hq
    split at hs
    · cases hs
    · rename_i hown
      rw [if_neg hown] at hq
      exact hown ⟨hs, hq⟩
  · by_cases hr : r = p
    · have hnone : l.hold.victim = none := by
        cases l with
        | user | grow | reap | fork => rfl
        | fault => cases hl
      simp [holds, hr, hnone] at hv
    · refine hok q hclear r v ?_ hq
      simpa [holds, hr] using hv

theorem ReuseInv.next (h : ReuseInv c) (hok : FreesSettled c p a)
    (hn : ((procSystem S).withGhost Tags.next).next p a (c.loc p) c.mem = some (l, g)) :
    ReuseInv ⟨Function.update c.loc p l, g⟩ := by
  obtain ⟨hstep, hg⟩ := System.withGhost_next hn
  have hstep' : (procSystem S).next p a (c.erase.loc p) c.erase.mem = some (l, g.1) := hstep
  have hp : c.erase.mem.runs p = true := by
    rcases procSystem_next hstep' with ⟨-, hp, -⟩ | ⟨hl, -⟩
    · exact hp
    · exact h.life.runs p hl
  refine ⟨h.life.next hstep', h.owner.next hstep', ?_⟩
  have htags := h.tags.step (h.life.lives hp) (fun q n dst hl => ?_)
    (next_tables (h.owner p) hstep').1
  · rw [hg]
    change TagsOk g.1.kern.tables (holds ⟨Function.update c.erase.loc p l, g.1⟩) _ _
    rw [holds_update]
    refine TagsOk.born htags fun q hnamed hq => ⟨?_, hq.1⟩
    refine hq.next hstep' fun hfree => ?_
    rcases next_freeing h.life hstep' hfree with hold | ⟨hclear, htab⟩
    · exact hq.2 p hold
    · rw [← holds_update (g := g.1)] at hnamed
      exact not_named_of_freed hok hclear hfree htab hnamed
  · exact h.life.lives_target (by rw [hl]; rfl) (by rw [hl]; rfl)

/-- Every entry is of a process that exists and was made for its present incarnation; in particular
a page fault finds no page of an earlier one. -/
structure EntriesCurrent (c : Cfg ProcIdx Pc (Shared σ × Tags)) : Prop where
  swap : ∀ s q, (c.mem.1.kern.tables.swapMap s).used = true →
    (c.mem.1.kern.tables.swapMap s).proc = some q →
    (c.mem.1.kern.procs q).state ≠ .unused ∧ c.mem.2.swap s = c.mem.2.gen q
  frame : ∀ i q, (c.mem.1.kern.tables.frameTable i).used = true →
    (c.mem.1.kern.tables.frameTable i).userFrame = true →
    (c.mem.1.kern.tables.frameTable i).proc = some q →
    (c.mem.1.kern.procs q).state ≠ .unused ∧ c.mem.2.frame i = c.mem.2.gen q
  found : ∀ q va s, c.mem.1.kern.tables.findSwap q va = some s → c.mem.2.swap s = c.mem.2.gen q

/-- **No entry outlives its process**, in every run in which the entries of a process are freed only
while no eviction has a page of it. -/
theorem entries_current (hidle : Idle c₀.erase)
    (h₀ : TagsOk c₀.mem.1.kern.tables (fun _ => .none)
      (fun q => (c₀.mem.1.kern.procs q).state ≠ .unused) c₀.mem.2)
    (hrun : ((procSystem S).withGhost Tags.next).Reaches FreesSettled c₀ c) :
    EntriesCurrent c := by
  have hlives : Lives c₀.erase = fun q => (c₀.mem.1.kern.procs q).state ≠ .unused := by
    funext q
    refine propext ⟨fun h => h.1, fun h => ⟨h, fun r => ?_⟩⟩
    rw [hidle.user r]
    nofun
  have hinv : ReuseInv c := hrun.inv (fun _ _ _ _ _ hok h hn => h.next hok hn)
    ⟨hidle.lifeOk, hidle.ownerOk, by rw [hidle.holds, hlives]; exact h₀⟩
  refine ⟨fun s q hs hq => ?_, fun i q hi hu hq => ?_, fun q va s hs => ?_⟩
  · obtain ⟨hlives, htag⟩ := hinv.tags.swap s q hs hq
    exact ⟨hlives.1, htag⟩
  · obtain ⟨hlives, htag⟩ := hinv.tags.frame i q (by simp [Frame.evictable, hi, hu]) hq
    exact ⟨hlives.1, htag⟩
  · obtain ⟨hused, hq, -⟩ := Tables.findSwap_eq_some hs
    exact (hinv.tags.swap s q hused hq).2

end Runs

/-! ## A page of a process that is freed while it is evicted -/

instance {σ : Type} (c : Cfg ProcIdx Pc (Shared σ × Tags)) (p : ProcIdx) (a : Act) :
    Decidable (FreesSettled c p a) :=
  decidable_of_iff (∀ q, (c.loc p).clearing = some q →
      ∀ r, (c.loc r).hold.victim.bind Victim.proc ≠ some q) <| by
    refine forall_congr' fun q => imp_congr_right fun _ => forall_congr' fun r => ?_
    simp [Option.bind_eq_some_iff]

/-- A process that has exited and has one page, which is resident, and two other processes, of one
page each. There are no free pages. -/
def exited : Cfg ProcIdx Pc (Shared Unit × Tags) where
  loc := fun _ => .user
  mem :=
    ({ locked := fun _ => false
       kern :=
        { tables :=
            { Tables.init with
              frameTable := fun i =>
                if i.val = 0 then ⟨true, true, some proc₂, 0, false⟩ else .clear
              userFrameCount := 1 }
          freelist := []
          mem := fun _ => 0
          pts := fun root =>
            if root = pageNo 6 then
              Kernel.smallTable (pageNo 7) (pageNo 8) fun v =>
                if v = 0 then some ⟨pageNo 9, .userRw⟩ else none
            else if root = pageNo 3 then Kernel.smallTable (pageNo 4) (pageNo 5) fun _ => none
            else Kernel.smallTable (pageNo 1) (pageNo 2) fun _ => none
          procs := fun p =>
            if p = proc₀ then ⟨.running, pgSize, some (pageNo 0), none, 0, 0, 0, 0, 0, 0, 0⟩
            else if p = proc₁ then ⟨.running, pgSize, some (pageNo 3), none, 0, 0, 0, 0, 0, 0, 0⟩
            else if p = proc₂ then ⟨.zombie, pgSize, some (pageNo 6), none, 0, 0, 0, 0, 0, 0, 0⟩
            else ⟨.unused, 0, none, none, 0, 0, 0, 0, 0, 0, 0⟩
          swap := ()
          kernEnd := pageNo 0
          trampoline := 0x80000000 } },
      ⟨fun _ => 0, fun _ => 0, fun _ => 0, fun _ => 0⟩)

theorem exited_idle : Idle exited.erase where
  user _ := rfl
  unlocked _ := rfl
  table := by decide +kernel

theorem exited_tags : TagsOk exited.mem.1.kern.tables (fun _ => .none)
    (fun q => (exited.mem.1.kern.procs q).state ≠ .unused) exited.mem.2 where
  frame i q hi hq := by
    refine ⟨?_, rfl⟩
    revert i q
    decide +kernel
  swap s q hs hq := by
    revert s q
    decide +kernel
  victim _ _ _ hv := by cases hv

/-- `proc₁` takes a page fault, up to where the page of `proc₂` is no longer mapped. -/
def beginEviction : List (ProcIdx × Act) := (proc₁, .fault 0) :: List.replicate 7 (proc₁, .go)

/-- The page of `proc₂` is written and recorded. -/
def endEviction : List (ProcIdx × Act) := List.replicate 2 (proc₁, .go)

/-- `proc₀` waits for `proc₂`. -/
def reaping : List (ProcIdx × Act) := (proc₀, .wait proc₂) :: List.replicate 6 (proc₀, .go)

theorem entries_current_exited : Idle exited.erase ∧ ∃ c,
    ((procSystem nullSwap).withGhost Tags.next).Reaches FreesSettled exited c ∧
      (c.mem.1.kern.procs proc₂).state = .unused ∧ EntriesCurrent c := by
  have hrun : (((procSystem nullSwap).withGhost Tags.next).execWhile FreesSettled
      (beginEviction ++ endEviction ++ reaping) exited).map
        (fun c => (c.mem.1.kern.procs proc₂).state) = some .unused := by
    decide +kernel
  obtain ⟨c, hc, hstate⟩ := Option.map_eq_some_iff.1 hrun
  have hreach := System.reaches_of_execWhile hc
  exact ⟨exited_idle, c, hreach, hstate, entries_current exited_idle exited_tags hreach⟩

/-- `proc₂` is freed while its page is written to swap, and then the page is recorded. -/
theorem outlived_entry : Idle exited.erase ∧ ∃ c,
    ((procSystem nullSwap).withGhost Tags.next).Reaches System.any exited c ∧
      (c.mem.1.kern.procs proc₂).state = .unused ∧
      (c.mem.1.kern.tables.swapMap slot₀).Holds proc₂ 0 ∧ ¬ EntriesCurrent c := by
  have hrun : (((procSystem nullSwap).withGhost Tags.next).exec
      (beginEviction ++ reaping ++ endEviction) exited).map
        (fun c => ((c.mem.1.kern.procs proc₂).state, c.mem.1.kern.tables.swapMap slot₀)) =
      some (.unused, ⟨true, some proc₂, 0, some slot₀⟩) := by
    decide +kernel
  obtain ⟨c, hc, hobs⟩ := Option.map_eq_some_iff.1 hrun
  obtain ⟨hstate, hentry⟩ := Prod.mk.inj hobs
  refine ⟨exited_idle, c, System.reaches_of_exec hc, hstate, by simp [hentry, SwapEntry.Holds],
    fun hcur => ?_⟩
  exact (hcur.swap slot₀ proc₂ (by rw [hentry]) (by rw [hentry])).1 hstate

end Xv6Swap.Paging
