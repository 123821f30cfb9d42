import Xv6Swap.Paging.Exec
import Xv6Swap.Threads.Effects

/-!
# Swap slots

The bookkeeping of swap slots under concurrency. `SlotsOk`: the entry `i` of the swap map is for the
slot `i`, a slot in use is named by its entry or reserved by one process, and a page fault that has
found an entry still finds it there at its end. All sections keep it, except the one with which
`uvmcopy` records the page of a child: that takes the first unused entry, which need not be the one
of the reserved slot. If it is (`InsertsInOrder`), the bookkeeping is a bijection in all runs
(`slots_bijective`); if not, the eviction that later gets the slot of the entry overwrites it
(`overwritten_entry`).
-/

namespace Xv6Swap.Paging

open Interleave (System Cfg)
open Raid (pgSize)
open Tables (SameEntries Begun)

/-- The swap slot that a process has reserved. -/
def Hold.slot (h : Hold) : Option SlotIdx :=
  match h.victim with
  | .some v => some v.slot
  | .none => h.dst

/-- The bookkeeping of swap slots while the processes hold `H`. -/
structure SlotsOk (t : Tables) (H : ProcIdx → Hold) : Prop where
  own : ∀ i, (t.swapMap i).used = true → (t.swapMap i).swapSlot = some i ∧ t.swapUsed i = true
  named : ∀ s, t.swapUsed s = true → (t.swapMap s).used = true ∨ ∃ p, (H p).slot = some s
  slot : ∀ p s, (H p).slot = some s → t.swapUsed s = true ∧ (t.swapMap s).used = false
  slot_inj : ∀ p q s, (H p).slot = some s → (H q).slot = some s → p = q
  found : ∀ p i s, (H p).found = some (i, s) →
    (t.swapMap i).used = true ∧ (t.swapMap i).proc = some p ∧ s = some i

namespace SlotsOk

variable {t t' : Tables} {H : ProcIdx → Hold} {p q : ProcIdx} {h : Hold} {s i : SlotIdx}

theorem found_of_update (hfound : h.found = (H p).found ∨ h.found = none)
    {x : SlotIdx × Option SlotIdx} (hq : (Function.update H p h q).found = some x) :
    (H q).found = some x := by
  by_cases hqp : q = p
  · subst hqp
    rw [Function.update_self] at hq
    rcases hfound with hf | hf
    · exact hf ▸ hq
    · simp [hf] at hq
  · rwa [Function.update_of_ne hqp] at hq

theorem slot_of_update (hslot : h.slot = none) (hq : (Function.update H p h q).slot = some s) :
    q ≠ p ∧ (H q).slot = some s := by
  by_cases hqp : q = p
  · simp [hqp, hslot] at hq
  · exact ⟨hqp, by rwa [Function.update_of_ne hqp] at hq⟩

theorem slot_update (hslot : h.slot = (H p).slot) (q : ProcIdx) :
    (Function.update H p h q).slot = (H q).slot := by
  by_cases hq : q = p
  · rw [hq, Function.update_self, hslot]
  · rw [Function.update_of_ne hq]

/-- Only the swap map, the used slots, and the slots and entries that are held matter. -/
theorem congr (hok : SlotsOk t H) (hmap : t'.swapMap = t.swapMap) (hused : t'.swapUsed = t.swapUsed)
    (hslot : h.slot = (H p).slot) (hfound : h.found = (H p).found ∨ h.found = none) :
    SlotsOk t' (Function.update H p h) := by
  have hslots := slot_update hslot
  refine ⟨?_, ?_, ?_, ?_, fun q i s hq => ?_⟩
  · rw [hmap, hused]
    exact hok.own
  · simp only [hmap, hused, hslots]
    exact hok.named
  · simp only [hmap, hused, hslots]
    exact hok.slot
  · simp only [hslots]
    exact hok.slot_inj
  · rw [hmap]
    exact hok.found q i s (found_of_update hfound hq)

/-- A process that holds no slot reserves one. -/
theorem reserve (hok : SlotsOk t H) (hfree : t.swapUsed s = false) (hnone : (H p).slot = none)
    (hmap : t'.swapMap = t.swapMap) (hused : t'.swapUsed = Function.update t.swapUsed s true)
    (hslot : h.slot = some s) (hfound : h.found = (H p).found ∨ h.found = none) :
    SlotsOk t' (Function.update H p h) := by
  have hunused : (t.swapMap s).used = false := by
    by_contra hu
    simp [(hok.own s (by simpa using hu)).2] at hfree
  have hother : ∀ q s', (H q).slot = some s' → s' ≠ s := by
    rintro q s' hq rfl
    simp [(hok.slot q s' hq).1] at hfree
  refine ⟨fun i hi => ?_, fun s' hs' => ?_, fun q s' hq => ?_, fun q q' s' hq hq' => ?_,
    fun q i s' hq => ?_⟩
  · rw [hmap] at hi ⊢
    obtain ⟨hi', hu⟩ := hok.own i hi
    exact ⟨hi', by simp [hused, Function.update_apply, hu]⟩
  · by_cases hss : s' = s
    · exact .inr ⟨p, by rw [Function.update_self, hslot, hss]⟩
    · rw [hused, Function.update_of_ne hss] at hs'
      rw [hmap]
      rcases hok.named s' hs' with hu | ⟨q, hq⟩
      · exact .inl hu
      · have hqp : q ≠ p := by
          rintro rfl
          simp [hnone] at hq
        exact .inr ⟨q, by rwa [Function.update_of_ne hqp]⟩
  · rw [hmap, hused]
    by_cases hqp : q = p
    · subst hqp
      obtain rfl : s = s' := by simpa [hslot] using hq
      exact ⟨by simp, hunused⟩
    · rw [Function.update_of_ne hqp] at hq
      obtain ⟨hu, hm⟩ := hok.slot q s' hq
      exact ⟨by simp [Function.update_apply, hu], hm⟩
  · by_cases hqp : q = p <;> by_cases hqp' : q' = p
    · rw [hqp, hqp']
    · obtain rfl : s = s' := by simpa [hqp, hslot] using hq
      exact absurd rfl (hother q' s (by simpa [hqp'] using hq'))
    · obtain rfl : s = s' := by simpa [hqp', hslot] using hq'
      exact absurd rfl (hother q s (by simpa [hqp] using hq))
    · exact hok.slot_inj q q' s' (by simpa [hqp] using hq) (by simpa [hqp'] using hq')
  · rw [hmap]
    exact hok.found q i s' (found_of_update hfound hq)

/-- A process gives its reserved slot back. -/
theorem release (hok : SlotsOk t H) (hs : (H p).slot = some s) (hmap : t'.swapMap = t.swapMap)
    (hused : t'.swapUsed = Function.update t.swapUsed s false) (hslot : h.slot = none)
    (hfound : h.found = (H p).found ∨ h.found = none) : SlotsOk t' (Function.update H p h) := by
  have hsm := (hok.slot p s hs).2
  refine ⟨fun i hi => ?_, fun s' hs' => ?_, fun q s' hq => ?_, fun q q' s' hq hq' => ?_,
    fun q i s' hq => ?_⟩
  · rw [hmap] at hi ⊢
    have his : i ≠ s := by
      rintro rfl
      simp [hsm] at hi
    rw [hused, Function.update_of_ne his]
    exact hok.own i hi
  · have hss : s' ≠ s := by
      rintro rfl
      simp [hused] at hs'
    rw [hused, Function.update_of_ne hss] at hs'
    rw [hmap]
    rcases hok.named s' hs' with hu | ⟨q, hq⟩
    · exact .inl hu
    · have hqp : q ≠ p := by
        rintro rfl
        exact hss (Option.some.inj (hq.symm.trans hs))
      exact .inr ⟨q, by rwa [Function.update_of_ne hqp]⟩
  · obtain ⟨hqp, hq⟩ := slot_of_update hslot hq
    have hss : s' ≠ s := by
      rintro rfl
      exact hqp (hok.slot_inj q p s' hq hs)
    rw [hmap, hused, Function.update_of_ne hss]
    exact hok.slot q s' hq
  · exact hok.slot_inj q q' s' (slot_of_update hslot hq).2 (slot_of_update hslot hq').2
  · rw [hmap]
    exact hok.found q i s' (found_of_update hfound hq)

/-- The page of the reserved slot is recorded in the entry of the slot. -/
theorem record (hok : SlotsOk t H) (hs : (H p).slot = some s) {owner : Option ProcIdx} {va : ℕ}
    (hmap : t'.swapMap = Function.update t.swapMap s ⟨true, owner, va, some s⟩)
    (hused : t'.swapUsed = t.swapUsed) (hslot : h.slot = none)
    (hfound : h.found = (H p).found ∨ h.found = none) : SlotsOk t' (Function.update H p h) := by
  obtain ⟨hsu, hsm⟩ := hok.slot p s hs
  refine ⟨fun i hi => ?_, fun s' hs' => ?_, fun q s' hq => ?_, fun q q' s' hq hq' => ?_,
    fun q i s' hq => ?_⟩
  · rw [hused]
    by_cases his : i = s
    · subst his
      exact ⟨by simp [hmap], hsu⟩
    · rw [hmap, Function.update_of_ne his] at hi ⊢
      exact hok.own i hi
  · by_cases hss : s' = s
    · exact .inl (by simp [hmap, hss])
    · rw [hused] at hs'
      rw [hmap, Function.update_of_ne hss]
      rcases hok.named s' hs' with hu | ⟨q, hq⟩
      · exact .inl hu
      · have hqp : q ≠ p := by
          rintro rfl
          exact hss (Option.some.inj (hq.symm.trans hs))
        exact .inr ⟨q, by rwa [Function.update_of_ne hqp]⟩
  · obtain ⟨hqp, hq⟩ := slot_of_update hslot hq
    have hss : s' ≠ s := by
      rintro rfl
      exact hqp (hok.slot_inj q p s' hq hs)
    rw [hmap, hused, Function.update_of_ne hss]
    exact hok.slot q s' hq
  · exact hok.slot_inj q q' s' (slot_of_update hslot hq).2 (slot_of_update hslot hq').2
  · obtain ⟨hu, hrest⟩ := hok.found q i s' (found_of_update hfound hq)
    have his : i ≠ s := by
      rintro rfl
      simp [hsm] at hu
    rw [hmap, Function.update_of_ne his]
    exact ⟨hu, hrest⟩

/-- The used entries `P` are freed, none of which another process has found. -/
theorem clear (hok : SlotsOk t H) {P : SlotIdx → Prop} [DecidablePred P]
    (hP : ∀ i, P i → (t.swapMap i).used = true)
    (hmap : ∀ i, t'.swapMap i = if P i then .clear else t.swapMap i)
    (hused : ∀ i, t'.swapUsed i = if P i then false else t.swapUsed i)
    (hslot : h.slot = (H p).slot)
    (hfound : ∀ q i s, (Function.update H p h q).found = some (i, s) →
      (H q).found = some (i, s) ∧ ¬ P i) : SlotsOk t' (Function.update H p h) := by
  have hslots := slot_update hslot
  have hmap' : ∀ {i}, (t'.swapMap i).used = true → ¬ P i ∧ t'.swapMap i = t.swapMap i := by
    intro i hi
    by_cases hPi : P i
    · simp [hmap, hPi, SwapEntry.clear] at hi
    · exact ⟨hPi, by rw [hmap, if_neg hPi]⟩
  refine ⟨fun i hi => ?_, fun s hs => ?_, fun q s hq => ?_, ?_, fun q i s hq => ?_⟩
  · obtain ⟨hPi, heq⟩ := hmap' hi
    rw [heq] at hi ⊢
    rw [hused, if_neg hPi]
    exact hok.own i hi
  · by_cases hPs : P s
    · simp [hused, hPs] at hs
    · rw [hused, if_neg hPs] at hs
      simp only [hmap, if_neg hPs, hslots]
      exact hok.named s hs
  · obtain ⟨hu, hm⟩ := hok.slot q s (hslots q ▸ hq)
    have hPs : ¬ P s := fun hPs => by simp [hP s hPs] at hm
    rw [hmap, hused, if_neg hPs, if_neg hPs]
    exact ⟨hu, hm⟩
  · simp only [hslots]
    exact hok.slot_inj
  · obtain ⟨hq', hPi⟩ := hfound q i s hq
    rw [hmap, if_neg hPi]
    exact hok.found q i s hq'

/-! ## Steps -/

theorem alloc_step (hok : SlotsOk t H) {va : ℕ} {v v' : Option Victim} {found found' : Found}
    (hp : H p = ⟨v, none, found⟩) (he : AllocEffect p va v t v' t')
    (hfound : found' = found ∨ found' = none) :
    SlotsOk t' (Function.update H p ⟨v', none, found'⟩) := by
  have hf : found' = (H p).found ∨ found' = none := by
    rw [hp]
    exact hfound
  cases he with
  | same hsame => exact hok.congr hsame.swapMap hsame.swapUsed (by rw [hp]; rfl) hf
  | @begun v _ _ hbegun =>
    exact hok.reserve hbegun.free (by rw [hp]; rfl) hbegun.swapMap hbegun.swapUsed rfl hf
  | @abort v => exact hok.release (by rw [hp]; rfl) rfl rfl rfl hf
  | @undo v => exact hok.release (by rw [hp]; rfl) rfl rfl rfl hf
  | @publish v => exact hok.record (by rw [hp]; rfl) rfl rfl rfl hf
  | register hreg =>
    obtain ⟨i, -, rfl⟩ := Tables.registerUserFrame_eq_some hreg
    exact hok.congr rfl rfl (by rw [hp]; rfl) hf

theorem releaseSwap_own (t : Tables) (i : SlotIdx) :
    (∀ j, (t.releaseSwap i (some i)).swapMap j = if j = i then .clear else t.swapMap j) ∧
      ∀ j, (t.releaseSwap i (some i)).swapUsed j = if j = i then false else t.swapUsed j := by
  constructor <;> intro j <;>
    simp [Tables.releaseSwap, Tables.releaseSlot, Tables.setSwap, Tables.setSwapUsed,
      Function.update_apply]

/-- A page fault finds an entry of its process, or none. -/
theorem find (hok : SlotsOk t H) (hp : H p = .none) {found : Found}
    (hfound : ∀ i s, found = some (i, s) →
      (t.swapMap i).used = true ∧ (t.swapMap i).proc = some p ∧ s = some i) :
    SlotsOk t (Function.update H p ⟨none, none, found⟩) := by
  have hslots := slot_update (H := H) (p := p) (h := ⟨none, none, found⟩) (by rw [hp]; rfl)
  refine ⟨hok.own, ?_, ?_, ?_, fun q i s hq => ?_⟩
  · simp only [hslots]
    exact hok.named
  · simp only [hslots]
    exact hok.slot
  · simp only [hslots]
    exact hok.slot_inj
  · by_cases hqp : q = p
    · subst hqp
      rw [Function.update_self] at hq
      exact hfound i s hq
    · rw [Function.update_of_ne hqp] at hq
      exact hok.found q i s hq

/-- A process frees an entry of its own, which it may have found by a page fault. -/
theorem free_own (hok : SlotsOk t H) (hi : (t.swapMap i).used = true)
    (hproc : (t.swapMap i).proc = some p) (hslot : h.slot = (H p).slot) (hfound : h.found = none)
    (hmap : t'.swapMap = t.swapMap) (hused : t'.swapUsed = t.swapUsed) :
    SlotsOk (t'.releaseSwap i (some i)) (Function.update H p h) := by
  obtain ⟨hmap', hused'⟩ := releaseSwap_own t' i
  refine hok.clear (P := (· = i)) (by rintro j rfl; exact hi) (fun j => by rw [hmap', hmap])
    (fun j => by rw [hused', hused]) hslot fun q j s hq => ?_
  have hold := found_of_update (.inr hfound) hq
  refine ⟨hold, ?_⟩
  rintro rfl
  obtain ⟨-, hproc', -⟩ := hok.found q j s hold
  obtain rfl : p = q := Option.some.inj (hproc.symm.trans hproc')
  simp [hfound] at hq

theorem freeProc (hok : SlotsOk t H) (hslot : h.slot = (H p).slot)
    (hfound : h.found = (H p).found ∨ h.found = none) (hq : (H q).found = none) :
    SlotsOk (t.freeProcSwapSlots q) (Function.update H p h) := by
  have hfreed := t.freeProcSwapSlots_spec q
  refine hok.clear (P := t.OwnSwap q) (fun i hi => hi.1) hfreed.swapMap (fun s => ?_) hslot
    fun r i s hr => ?_
  · rw [hfreed.swapUsed]
    have hiff : (∃ i, t.OwnSwap q i ∧ (t.swapMap i).swapSlot = some s) ↔ t.OwnSwap q s := by
      constructor
      · rintro ⟨i, hi, hs⟩
        obtain rfl : i = s := Option.some.inj ((hok.own i hi.1).1.symm.trans hs)
        exact hi
      · exact fun hs => ⟨s, hs, (hok.own s hs.1).1⟩
    simp only [hiff]
  · have hold := found_of_update hfound hr
    refine ⟨hold, fun hown => ?_⟩
    obtain ⟨-, hproc, -⟩ := hok.found r i s hold
    obtain rfl : q = r := Option.some.inj (hown.2.symm.trans hproc)
    simp [hq] at hold

/-- The first unused entry is the one of the reserved slot if all entries before it are used. -/
theorem find_unused (hok : SlotsOk t H) (hs : (H p).slot = some s)
    (hbelow : ∀ s' < s, (t.swapMap s').used = true)
    (hi : (Fin.find? fun i => !(t.swapMap i).used) = some i) : i = s := by
  have hunused : (t.swapMap i).used = false := by
    simpa using Fin.eq_true_of_find?_eq_some hi
  have hle : i ≤ s := by
    by_contra hlt
    have := Fin.eq_false_of_find?_eq_some_of_lt hi s (not_le.1 hlt)
    simp [(hok.slot p s hs).2] at this
  refine le_antisymm hle (not_lt.1 fun hlt => ?_)
  simp [hbelow i hlt] at hunused

/-- **Every step keeps the bookkeeping**, if `uvmcopy` records pages in the entries of their
slots. -/
theorem step (hok : SlotsOk t H) {l : Pc} (hs : TableStep p l (H p) t h t')
    (htarget : ∀ q, l.target = some q → (H q).found = none)
    (hins : ∀ q n dst, l = .fork q (.insert n dst) → ∀ s < dst, (t.swapMap s).used = true) :
    SlotsOk t' (Function.update H p h) := by
  generalize hp : H p = h₀ at hs
  cases hs with
  | same hsame => exact hok.congr hsame.swapMap hsame.swapUsed (by rw [hp]) (.inl (by rw [hp]))
  | forget => exact hok.congr rfl rfl (by rw [hp]; rfl) (.inr rfl)
  | lookup va =>
    refine hok.find hp fun i s his => ?_
    obtain ⟨j, hj, hjs⟩ := Option.map_eq_some_iff.1 his
    obtain ⟨rfl, rfl⟩ := Prod.mk.inj hjs
    obtain ⟨hu, hproc, -⟩ := Tables.findSwap_eq_some hj
    exact ⟨hu, hproc, (hok.own j hu).1⟩
  | alloc he hfound => exact hok.alloc_step hp he hfound
  | freeFrame ho =>
    refine hok.congr ?_ ?_ (by rw [hp]) (.inr rfl) <;>
      (unfold Tables.freeFrameEntry; split <;> rfl)
  | @finish va i slot =>
    have hsame := t.sameEntries_setRefBit p va
    obtain ⟨hu, hproc, rfl⟩ := hok.found p i slot (by rw [hp])
    exact hok.free_own hu hproc (by rw [hp]; rfl) rfl hsame.swapMap hsame.swapUsed
  | @freeSwap va =>
    unfold Tables.freeSwapEntry
    split
    · rename_i i hfind
      obtain ⟨hu, hproc, -⟩ := Tables.findSwap_eq_some hfind
      rw [(hok.own i hu).1]
      exact hok.free_own hu hproc (by rw [hp]) rfl rfl rfl
    · exact hok.congr rfl rfl (by rw [hp]) (.inr rfl)
  | reserve hres =>
    obtain ⟨hfree, rfl⟩ := Tables.reserveSlot_eq_some hres
    exact hok.reserve hfree (by rw [hp]; rfl) rfl rfl rfl (.inr rfl)
  | unreserve => exact hok.release (by rw [hp]; rfl) rfl rfl rfl (.inr rfl)
  | @insert q n i dst _ hl hi =>
    have hdst : (H p).slot = some dst := by rw [hp]; rfl
    obtain rfl := hok.find_unused hdst (hins q n dst hl) hi
    exact hok.record hdst rfl rfl rfl (.inr rfl)
  | freeProc hq => exact hok.freeProc (by rw [hp]) (.inr rfl) (htarget _ hq)

end SlotsOk

/-! ## Runs -/

section Runs

variable {σ : Type} {S : SwapOps σ} {c c₀ : Cfg ProcIdx Pc (Shared σ)} {p : ProcIdx} {a : Act}
  {l : Pc} {g : Shared σ}

/-- Where `uvmcopy` is about to record the page of a child, all entries of the swap map before the
reserved slot are used. -/
def InsertsInOrder (c : Cfg ProcIdx Pc (Shared σ)) (p : ProcIdx) (_ : Act) : Prop :=
  ∀ q n dst, c.loc p = .fork q (.insert n dst) →
    ∀ s < dst, (c.mem.kern.tables.swapMap s).used = true

/-- The invariant of runs. -/
structure SlotsInv (c : Cfg ProcIdx Pc (Shared σ)) : Prop where
  life : LifeOk c
  owner : OwnerOk c
  slots : SlotsOk c.mem.kern.tables (holds c)

theorem SlotsInv.next (h : SlotsInv c) (hok : InsertsInOrder c p a)
    (hn : (procSystem S).next p a (c.loc p) c.mem = some (l, g)) :
    SlotsInv ⟨Function.update c.loc p l, g⟩ := by
  refine ⟨h.life.next hn, h.owner.next hn, ?_⟩
  rw [holds_update]
  refine h.slots.step (next_tables (h.owner p) hn).1 (fun q hq => ?_) hok
  rw [holds, h.life.target_user hq]
  rfl

/-- Used entries name different slots, which are in use; a slot in use is named by one used entry or
reserved by one process. -/
structure SlotsBijective (c : Cfg ProcIdx Pc (Shared σ)) : Prop where
  inj : ∀ i j, (c.mem.kern.tables.swapMap i).used = true →
    (c.mem.kern.tables.swapMap j).used = true →
    (c.mem.kern.tables.swapMap i).swapSlot = (c.mem.kern.tables.swapMap j).swapSlot → i = j
  used : ∀ i, (c.mem.kern.tables.swapMap i).used = true → ∃ s,
    (c.mem.kern.tables.swapMap i).swapSlot = some s ∧ c.mem.kern.tables.swapUsed s = true
  named : ∀ s, c.mem.kern.tables.swapUsed s = true →
    (∃! i, (c.mem.kern.tables.swapMap i).used = true ∧
      (c.mem.kern.tables.swapMap i).swapSlot = some s) ∧ (∀ p, (holds c p).slot ≠ some s) ∨
    (∀ i, (c.mem.kern.tables.swapMap i).used = true →
      (c.mem.kern.tables.swapMap i).swapSlot ≠ some s) ∧ ∃! p, (holds c p).slot = some s

/-- A step that frees used entries at most. -/
def KeepsEntries (t t' : Tables) : Prop :=
  ∀ i, (t.swapMap i).used = true → t'.swapMap i = t.swapMap i ∨ t'.swapMap i = .clear

theorem SlotsOk.bijective (h : SlotsOk c.mem.kern.tables (holds c)) : SlotsBijective c where
  inj i j hi hj hij := by
    rw [(h.own i hi).1, (h.own j hj).1] at hij
    exact Option.some.inj hij
  used i hi := ⟨i, h.own i hi⟩
  named s hs := by
    by_cases hu : (c.mem.kern.tables.swapMap s).used = true
    · refine .inl ⟨⟨s, ⟨hu, (h.own s hu).1⟩, fun i hi => ?_⟩, fun p hp => ?_⟩
      · exact Option.some.inj ((h.own i hi.1).1.symm.trans hi.2)
      · simp [(h.slot p s hp).2] at hu
    · obtain ⟨p, hp⟩ := (h.named s hs).resolve_left hu
      refine .inr ⟨fun i hi his => ?_, p, hp, fun q hq => h.slot_inj q p s hq hp⟩
      obtain rfl : i = s := Option.some.inj ((h.own i hi).1.symm.trans his)
      exact hu hi

theorem keepsEntries_of_eq {t t' : Tables} (h : t'.swapMap = t.swapMap) : KeepsEntries t t' :=
  fun i _ => .inl (congrFun h i)

theorem keepsEntries_setSwap {t t' : Tables} {i : SlotIdx} {e : SwapEntry}
    (hi : (t.swapMap i).used = false ∨ e = .clear)
    (h : t'.swapMap = Function.update t.swapMap i e) : KeepsEntries t t' := by
  intro j hj
  by_cases hji : j = i
  · subst hji
    rcases hi with hi | rfl
    · simp [hi] at hj
    · exact .inr (by simp [h])
  · exact .inl (by simp [h, hji])

theorem SlotsOk.keepsEntries {t t' : Tables} {H : ProcIdx → Hold} {h : Hold} (hok : SlotsOk t H)
    (hs : TableStep p l (H p) t h t') : KeepsEntries t t' := by
  generalize hp : H p = h₀ at hs
  cases hs with
  | same hsame => exact keepsEntries_of_eq hsame.swapMap
  | forget | lookup | unreserve => exact keepsEntries_of_eq rfl
  | alloc he =>
    cases he with
    | same hsame => exact keepsEntries_of_eq hsame.swapMap
    | begun hbegun => exact keepsEntries_of_eq hbegun.swapMap
    | abort | undo => exact keepsEntries_of_eq rfl
    | @publish v =>
      exact keepsEntries_setSwap (.inl (hok.slot p v.slot (by rw [hp]; rfl)).2) rfl
    | register hreg =>
      obtain ⟨i, -, rfl⟩ := Tables.registerUserFrame_eq_some hreg
      exact keepsEntries_of_eq rfl
  | freeFrame ho =>
    refine keepsEntries_of_eq ?_
    unfold Tables.freeFrameEntry
    split <;> rfl
  | @finish va i slot =>
    refine keepsEntries_setSwap (i := i) (.inr rfl) ?_
    rw [← (t.sameEntries_setRefBit p va).swapMap]
    cases slot <;> rfl
  | freeSwap =>
    unfold Tables.freeSwapEntry
    split
    case h_1 i _ =>
      refine keepsEntries_setSwap (i := i) (.inr rfl) ?_
      unfold Tables.releaseSwap Tables.releaseSlot
      split <;> rfl
    case h_2 => exact keepsEntries_of_eq rfl
  | reserve hres =>
    obtain ⟨-, rfl⟩ := Tables.reserveSlot_eq_some hres
    exact keepsEntries_of_eq rfl
  | insert hl hi =>
    refine keepsEntries_setSwap (.inl ?_) rfl
    simpa using Fin.eq_true_of_find?_eq_some hi
  | @freeProc q =>
    intro i _
    rw [(t.freeProcSwapSlots_spec q).swapMap]
    split
    · exact .inr rfl
    · exact .inl rfl

/-- **The bookkeeping of swap slots is a bijection**, and no step overwrites a used entry, in every
run in which `uvmcopy` finds all entries before its reserved slot used when it records a page. -/
theorem slots_bijective (hidle : Idle c₀) (h₀ : SlotsOk c₀.mem.kern.tables fun _ => .none)
    (hrun : (procSystem S).Reaches InsertsInOrder c₀ c) :
    SlotsBijective c ∧ ∀ p a l g, InsertsInOrder c p a →
      (procSystem S).next p a (c.loc p) c.mem = some (l, g) →
      KeepsEntries c.mem.kern.tables g.kern.tables := by
  have hinv : SlotsInv c := hrun.inv (fun _ _ _ _ _ hok h hn => h.next hok hn)
    ⟨hidle.lifeOk, hidle.ownerOk, hidle.holds ▸ h₀⟩
  exact ⟨hinv.slots.bijective, fun p a l g _ hn =>
    hinv.slots.keepsEntries (next_tables (hinv.owner p) hn).1⟩

end Runs

/-! ## A page of a child that is recorded late -/

instance {σ : Type} (c : Cfg ProcIdx Pc (Shared σ)) (p : ProcIdx) (a : Act) :
    Decidable (InsertsInOrder c p a) :=
  match h : c.loc p with
  | .fork q (.insert n dst) =>
    decidable_of_iff (∀ s < dst, (c.mem.kern.tables.swapMap s).used = true) <| by
      refine ⟨fun hs _ _ _ heq => ?_, fun hs => hs q n dst h⟩
      obtain ⟨rfl, h'⟩ := Pc.fork.inj (h.symm.trans heq)
      obtain ⟨rfl, rfl⟩ := ForkPc.insert.inj h'
      exact hs
  | .user | .fault .. | .grow _ | .reap .. => isTrue fun _ _ _ heq => by simp [h] at heq
  | .fork _ (.page _) | .fork _ (.lookup _) | .fork _ (.read ..) | .fork _ (.reserve ..)
  | .fork _ (.write ..) | .fork _ (.unreserve ..) | .fork _ (.err _) | .fork _ (.undo ..)
  | .fork _ (.free _) => isTrue fun _ _ _ heq => by simp [h] at heq

/-- Two processes whose first pages are in swap, `proc₁` in the slot 0 and `proc₀` in the slot 1.
There are as many free pages as the `fork` of `proc₀` needs. -/
def bothSwapped : Cfg ProcIdx Pc (Shared Unit) where
  loc := fun _ => .user
  mem :=
    { locked := fun _ => false
      kern :=
        { tables :=
            { Tables.init with
              swapUsed := fun s => s.val < 2
              swapMap := fun s =>
                if s.val = 0 then ⟨true, some proc₁, 0, some s⟩
                else if s.val = 1 then ⟨true, some proc₀, 0, some s⟩ else .clear }
          freelist := [pageNo 6, pageNo 7, pageNo 8, pageNo 9, pageNo 10]
          mem := fun _ => 0
          pts := fun root =>
            if root = pageNo 0 then Kernel.smallTable (pageNo 1) (pageNo 2) fun _ => none
            else Kernel.smallTable (pageNo 4) (pageNo 5) fun _ => none
          procs := fun p =>
            if p = proc₀ then ⟨.running, pgSize, some (pageNo 0), none, 0, 0, 0, 0, 0, 0, 0⟩
            else if p = proc₁ then
              ⟨.running, 2 * pgSize, some (pageNo 3), none, 0, 0, 0, 0, 0, 0, 0⟩
            else ⟨.unused, 0, none, none, 0, 0, 0, 0, 0, 0, 0⟩
          swap := ()
          kernEnd := pageNo 0
          trampoline := 0x80000000 } }

theorem bothSwapped_idle : Idle bothSwapped where
  user _ := rfl
  unlocked _ := rfl
  table := by decide +kernel

theorem bothSwapped_slots : SlotsOk bothSwapped.mem.kern.tables fun _ => .none where
  own := by decide +kernel
  named s hs := .inl (by revert s; decide +kernel)
  slot _ _ hs := by cases hs
  slot_inj _ _ _ hs := by cases hs
  found _ _ _ hf := by cases hf

/-- `proc₀` forks, up to where the page of the child is recorded. -/
def forkPart : List (ProcIdx × Act) := (proc₀, .fork proc₂) :: List.replicate 5 (proc₀, .go)

/-- `proc₁` takes a page fault on its first page. -/
def faultPart : List (ProcIdx × Act) := (proc₁, .fault 0) :: List.replicate 8 (proc₁, .go)

/-- `proc₁` takes a page fault on its second page, up to where the eviction of its first one is
about to be recorded. -/
def evictPart : List (ProcIdx × Act) := (proc₁, .fault pgSize) :: List.replicate 8 (proc₁, .go)

theorem slots_bijective_bothSwapped :
    Idle bothSwapped ∧ SlotsOk bothSwapped.mem.kern.tables (fun _ => .none) ∧
      ∃ c, (procSystem nullSwap).Reaches InsertsInOrder bothSwapped c ∧ SlotsBijective c := by
  have hrun : ((procSystem nullSwap).execWhile InsertsInOrder
      (forkPart ++ (proc₀, .go) :: faultPart ++ evictPart) bothSwapped).isSome := by
    decide +kernel
  have hreach := System.reaches_of_execWhile (Option.some_get hrun).symm
  exact ⟨bothSwapped_idle, bothSwapped_slots, _, hreach,
    (slots_bijective bothSwapped_idle bothSwapped_slots hreach).1⟩

/-- The run in which the first page of `proc₁` leaves the swap before the child's page is recorded.
-/
def lateInsert : List (ProcIdx × Act) := forkPart ++ faultPart ++ (proc₀, .go) :: evictPart

/-- The eviction of `proc₁` overwrites the entry of the child's page, whose slot stays in use. -/
theorem overwritten_entry :
    Idle bothSwapped ∧ SlotsOk bothSwapped.mem.kern.tables (fun _ => .none) ∧
      ∃ c c', (procSystem nullSwap).Reaches System.any bothSwapped c ∧
        (procSystem nullSwap).step c proc₁ .go = some c' ∧
        ¬ KeepsEntries c.mem.kern.tables c'.mem.kern.tables ∧ ¬ SlotsBijective c' := by
  have hrun : (((procSystem nullSwap).exec lateInsert bothSwapped).bind fun c =>
      ((procSystem nullSwap).step c proc₁ .go).map fun c' =>
        ((c.mem.kern.tables.swapMap slot₀, c'.mem.kern.tables.swapMap slot₀),
          c'.mem.kern.tables.swapUsed slot₂,
          decide (∃ i, (c'.mem.kern.tables.swapMap i).used = true ∧
            (c'.mem.kern.tables.swapMap i).swapSlot = some slot₂),
          decide (∃ p, (holds c' p).slot = some slot₂))) =
      some ((⟨true, some proc₂, 0, some slot₂⟩, ⟨true, some proc₁, 0, some slot₀⟩), true, false,
        false) := by
    decide +kernel
  obtain ⟨c, hc, hc'⟩ := Option.bind_eq_some_iff.1 hrun
  obtain ⟨c', hstep, heq⟩ := Option.map_eq_some_iff.1 hc'
  simp only [Prod.mk.injEq, decide_eq_false_iff_not] at heq
  obtain ⟨⟨hbefore, hafter⟩, hused, hentry, hheld⟩ := heq
  refine ⟨bothSwapped_idle, bothSwapped_slots, c, c', System.reaches_of_exec hc, hstep,
    fun hkeep => ?_, fun hbij => ?_⟩
  · rcases hkeep slot₀ (by rw [hbefore]) with h | h
    · rw [hbefore, hafter] at h
      exact absurd h (by decide)
    · rw [hafter] at h
      exact absurd h (by decide)
  · rcases hbij.named slot₂ hused with ⟨⟨i, hi, -⟩, -⟩ | ⟨-, p, hp, -⟩
    · exact hentry ⟨i, hi⟩
    · exact hheld ⟨p, hp⟩

end Xv6Swap.Paging
