import Xv6Swap.Paging.Entries
import Xv6Swap.Threads.Slots

/-!
# The frame table

The bookkeeping of frames under concurrency. `FramesOk`: `user_frame_count` is the number of used
entries, an entry that is used but not a user frame is hidden by one eviction, and every other used
entry has a process. All sections keep it, in all runs (`frames_exact`).
-/

namespace Xv6Swap.Paging

open Interleave (System Cfg)
open Raid (pgSize)
open Tables (SameEntries Begun mem_usedFrames)

/-- The bookkeeping of frames while the processes hold `H`. -/
structure FramesOk (t : Tables) (H : ProcIdx → Hold) : Prop where
  count : t.userFrameCount = t.usedFrames.card
  hidden : ∀ i, (t.frameTable i).used = true → (t.frameTable i).userFrame = false →
    ∃ p v, (H p).victim = some v ∧ v.frame = i
  victim : ∀ p v, (H p).victim = some v →
    (t.frameTable v.frame).entry = (true, false, none, 0) ∧ v.proc ≠ none
  victim_inj : ∀ p q v w, (H p).victim = some v → (H q).victim = some w → v.frame = w.frame → p = q
  owned : ∀ i, (t.frameTable i).evictable = true → (t.frameTable i).proc ≠ none

namespace FramesOk

variable {t t' : Tables} {H : ProcIdx → Hold} {p q : ProcIdx} {h : Hold} {v w : Victim}

theorem victim_of_update (hnone : h.victim = none)
    (hq : (Function.update H p h q).victim = some w) : q ≠ p ∧ (H q).victim = some w := by
  by_cases hqp : q = p
  · simp [hqp, hnone] at hq
  · exact ⟨hqp, by rwa [Function.update_of_ne hqp] at hq⟩

theorem victim_update (hvictim : h.victim = (H p).victim) (q : ProcIdx) :
    (Function.update H p h q).victim = (H q).victim := by
  by_cases hq : q = p
  · rw [hq, Function.update_self, hvictim]
  · rw [Function.update_of_ne hq]

theorem used_of_entry {f f' : Frame} (hf : f'.entry = f.entry) : f'.used = f.used :=
  congrArg (·.1) hf

theorem userFrame_of_entry {f f' : Frame} (hf : f'.entry = f.entry) :
    f'.userFrame = f.userFrame :=
  congrArg (·.2.1) hf

theorem proc_of_entry {f f' : Frame} (hf : f'.entry = f.entry) : f'.proc = f.proc :=
  congrArg (·.2.2.1) hf

theorem evictable_of_entry {f f' : Frame} (hf : f'.entry = f.entry) :
    f'.evictable = f.evictable := by
  rw [Frame.evictable, Frame.evictable, used_of_entry hf, userFrame_of_entry hf]

/-- The frame of a victim is not evictable. -/
theorem victim_not_evictable (hok : FramesOk t H) (hv : (H p).victim = some v) :
    (t.frameTable v.frame).evictable = false := by
  have hentry := (hok.victim p v hv).1
  simp only [Frame.entry, Prod.mk.injEq] at hentry
  simp [Frame.evictable, hentry]

/-- Only the entries of the frame table and the victims matter. -/
theorem congr (hok : FramesOk t H) (hframe : ∀ i, (t'.frameTable i).entry = (t.frameTable i).entry)
    (hcount : t'.userFrameCount = t.userFrameCount) (hvictim : h.victim = (H p).victim) :
    FramesOk t' (Function.update H p h) := by
  have hv := victim_update hvictim
  refine ⟨?_, fun i hi hu => ?_, fun q w hq => ?_, ?_, fun i hi => ?_⟩
  · rw [hcount, hok.count, Tables.usedFrames_congr fun i => used_of_entry (hframe i)]
  · simp only [hv]
    exact hok.hidden i (used_of_entry (hframe i) ▸ hi) (userFrame_of_entry (hframe i) ▸ hu)
  · rw [hframe]
    exact hok.victim q w (hv q ▸ hq)
  · simp only [hv]
    exact hok.victim_inj
  · rw [proc_of_entry (hframe i)]
    exact hok.owned i (evictable_of_entry (hframe i) ▸ hi)

/-- A process that holds no victim hides the entry of one. -/
theorem hide (hok : FramesOk t H) (hb : Begun t t' v) (hnone : (H p).victim = none)
    (hvictim : h.victim = some v) : FramesOk t' (Function.update H p h) := by
  have hev : (t.frameTable v.frame).evictable = true := by
    have hentry := hb.entry
    simp only [Frame.entry, Prod.mk.injEq] at hentry
    simp [Frame.evictable, hentry]
  have hused : (t.frameTable v.frame).used = true := congrArg (·.1) hb.entry
  have hother : ∀ q w, (H q).victim = some w → w.frame ≠ v.frame := by
    intro q w hq heq
    simp [← heq, hok.victim_not_evictable hq] at hev
  refine ⟨?_, fun i hi hu => ?_, fun q w hq => ?_, fun q q' w w' hq hq' hw => ?_, fun i hi => ?_⟩
  · have hsame : ∀ i, (t'.frameTable i).used = (t.frameTable i).used := by
      intro i
      by_cases hi : i = v.frame
      · rw [hi, hb.hidden, hused]
      · exact used_of_entry (hb.frame i hi)
    rw [hb.count, hok.count, Tables.usedFrames_congr hsame]
  · by_cases hiv : i = v.frame
    · exact ⟨p, v, by rw [Function.update_self, hvictim], hiv.symm⟩
    · obtain ⟨q, w, hq, hw⟩ := hok.hidden i (used_of_entry (hb.frame i hiv) ▸ hi)
        (userFrame_of_entry (hb.frame i hiv) ▸ hu)
      have hqp : q ≠ p := by
        rintro rfl
        simp [hnone] at hq
      exact ⟨q, w, by rwa [Function.update_of_ne hqp], hw⟩
  · by_cases hqp : q = p
    · obtain rfl : v = w := by simpa [hqp, hvictim] using hq
      refine ⟨by rw [hb.hidden]; rfl, ?_⟩
      have := hok.owned _ hev
      rwa [show (t.frameTable v.frame).proc = v.proc from congrArg (·.2.2.1) hb.entry] at this
    · rw [Function.update_of_ne hqp] at hq
      rw [hb.frame _ (hother q w hq)]
      exact hok.victim q w hq
  · by_cases hqp : q = p <;> by_cases hqp' : q' = p
    · rw [hqp, hqp']
    · obtain rfl : v = w := by simpa [hqp, hvictim] using hq
      exact absurd hw.symm (hother q' w' (by simpa [hqp'] using hq'))
    · obtain rfl : v = w' := by simpa [hqp', hvictim] using hq'
      exact absurd hw (hother q w (by simpa [hqp] using hq))
    · exact hok.victim_inj q q' w w' (by simpa [hqp] using hq) (by simpa [hqp'] using hq') hw
  · by_cases hiv : i = v.frame
    · simp [hiv, hb.hidden, Frame.evictable] at hi
    · rw [proc_of_entry (hb.frame i hiv)]
      exact hok.owned i (evictable_of_entry (hb.frame i hiv) ▸ hi)

/-- The end of an eviction: the entry of the victim is dropped and the counter lowered, or the entry
is a user frame again. -/
theorem settle (hok : FramesOk t H) (hv : (H p).victim = some v) {f : Frame}
    (hf : f.used = false ∨ f.entry = (true, true, v.proc, v.va))
    (hframe : t'.frameTable = Function.update t.frameTable v.frame f)
    (hcount : t'.userFrameCount = if f.used then t.userFrameCount else t.userFrameCount - 1)
    (hnone : h.victim = none) : FramesOk t' (Function.update H p h) := by
  obtain ⟨hentry, hproc⟩ := hok.victim p v hv
  have hused : (t.frameTable v.frame).used = true := congrArg (·.1) hentry
  have hself : t'.frameTable v.frame = f := by rw [hframe, Function.update_self]
  have hother : ∀ {i}, i ≠ v.frame → t'.frameTable i = t.frameTable i :=
    fun hi => by rw [hframe, Function.update_of_ne hi]
  have hkeep : ∀ q w, (Function.update H p h q).victim = some w →
      (H q).victim = some w ∧ w.frame ≠ v.frame := by
    intro q w hq
    obtain ⟨hqp, hq⟩ := victim_of_update hnone hq
    exact ⟨hq, fun heq => hqp (hok.victim_inj q p w v hq hv heq)⟩
  refine ⟨?_, fun i hi hu => ?_, fun q w hq => ?_, fun q q' w w' hq hq' hw => ?_, fun i hi => ?_⟩
  · rw [hcount, hok.count]
    cases hfu : f.used with
    | true =>
      rw [if_pos rfl, Tables.usedFrames_congr fun i => ?_]
      by_cases hi : i = v.frame
      · rw [hi, hself, hfu, hused]
      · rw [hother hi]
    | false =>
      have herase : t'.usedFrames = t.usedFrames.erase v.frame :=
        Tables.usedFrames_erase (by rw [hself, hfu]) fun i hi => by rw [hother hi]
      rw [if_neg (by simp), herase, Finset.card_erase_of_mem (mem_usedFrames.2 hused)]
  · have hiv : i ≠ v.frame := by
      rintro rfl
      rw [hself] at hi hu
      rcases hf with hf | hf
      · simp [hf] at hi
      · simp [show f.userFrame = true from congrArg (·.2.1) hf] at hu
    rw [hother hiv] at hi hu
    obtain ⟨q, w, hq, hw⟩ := hok.hidden i hi hu
    have hqp : q ≠ p := by
      rintro rfl
      obtain rfl := Option.some.inj (hq.symm.trans hv)
      exact hiv hw.symm
    exact ⟨q, w, by rwa [Function.update_of_ne hqp], hw⟩
  · obtain ⟨hq, hne⟩ := hkeep q w hq
    rw [hother hne]
    exact hok.victim q w hq
  · exact hok.victim_inj q q' w w' (hkeep q w hq).1 (hkeep q' w' hq').1 hw
  · by_cases hiv : i = v.frame
    · subst hiv
      rw [hself] at hi ⊢
      rcases hf with hf | hf
      · simp [Frame.evictable, hf] at hi
      · rwa [show f.proc = v.proc from congrArg (·.2.2.1) hf]
    · rw [hother hiv] at hi ⊢
      exact hok.owned i hi

/-- `register_user_frame` -/
theorem register {va : ℕ} (hok : FramesOk t H) (hreg : t.registerUserFrame p va = some t')
    (hvictim : h.victim = (H p).victim) : FramesOk t' (Function.update H p h) := by
  obtain ⟨i, hi, rfl⟩ := Tables.registerUserFrame_eq_some hreg
  have hv := victim_update hvictim
  have hself : (t.setFrame i ⟨true, true, some p, va, true⟩).frameTable i =
      ⟨true, true, some p, va, true⟩ := by simp [Tables.setFrame]
  have hother : ∀ j ≠ i, (t.setFrame i ⟨true, true, some p, va, true⟩).frameTable j =
      t.frameTable j := fun j hj => by simp [Tables.setFrame, hj]
  refine ⟨?_, fun j hj hu => ?_, fun q w hq => ?_, ?_, fun j hj => ?_⟩
  · have hins : Tables.usedFrames { t.setFrame i ⟨true, true, some p, va, true⟩ with
        userFrameCount := t.userFrameCount + 1 } = insert i t.usedFrames :=
      Tables.usedFrames_insert (by simp [hself]) fun j hj => by simp [hother j hj]
    rw [hins, Finset.card_insert_of_notMem (by simp [mem_usedFrames, hi]), ← hok.count]
  · dsimp only at hj hu
    have hji : j ≠ i := by
      rintro rfl
      simp [hself] at hu
    rw [hother j hji] at hj hu
    simp only [hv]
    exact hok.hidden j hj hu
  · rw [hv] at hq
    have hwi : w.frame ≠ i := by
      rintro rfl
      simp [show (t.frameTable w.frame).used = true from
        congrArg (·.1) (hok.victim q w hq).1] at hi
    dsimp only
    rw [hother _ hwi]
    exact hok.victim q w hq
  · simp only [hv]
    exact hok.victim_inj
  · dsimp only at hj ⊢
    by_cases hji : j = i
    · simp [hji, hself]
    · rw [hother j hji] at hj ⊢
      exact hok.owned j hj

/-- The evictable entries `P` are cleared and the counter is lowered by their number. -/
theorem clear (hok : FramesOk t H) {P : FrameIdx → Prop} [DecidablePred P]
    (hP : ∀ i, P i → (t.frameTable i).evictable = true)
    (hframe : ∀ i, t'.frameTable i = if P i then .clear else t.frameTable i)
    (hcount : t'.userFrameCount = t.userFrameCount - (Finset.univ.filter P).card)
    (hvictim : h.victim = (H p).victim) : FramesOk t' (Function.update H p h) := by
  have hv := victim_update hvictim
  have hold : ∀ {i}, (t'.frameTable i).used = true → t'.frameTable i = t.frameTable i := by
    intro i hi
    by_cases hPi : P i
    · simp [hframe, hPi, Frame.clear] at hi
    · rw [hframe, if_neg hPi]
  refine ⟨?_, fun i hi hu => ?_, fun q w hq => ?_, ?_, fun i hi => ?_⟩
  · have hsub : t'.usedFrames = t.usedFrames \ Finset.univ.filter P := by
      ext i
      by_cases hPi : P i <;> simp [mem_usedFrames, hframe, hPi, Frame.clear]
    have hle : Finset.univ.filter P ⊆ t.usedFrames := by
      intro i hi
      have := hP i (Finset.mem_filter.1 hi).2
      simp only [Frame.evictable, Bool.and_eq_true] at this
      exact mem_usedFrames.2 this.1
    rw [hcount, hsub, Finset.card_sdiff_of_subset hle, hok.count]
  · rw [hold hi] at hu
    simp only [hv]
    exact hok.hidden i (hold hi ▸ hi) hu
  · rw [hv] at hq
    have hPw : ¬ P w.frame := fun hPw => by
      simpa [hok.victim_not_evictable hq] using hP _ hPw
    rw [hframe, if_neg hPw]
    exact hok.victim q w hq
  · simp only [hv]
    exact hok.victim_inj
  · have hi' := hi
    simp only [Frame.evictable, Bool.and_eq_true] at hi'
    rw [hold hi'.1] at hi ⊢
    exact hok.owned i hi

/-! ## Steps -/

theorem alloc_step (hok : FramesOk t H) {va : ℕ} {v v' : Option Victim} {found found' : Found}
    (hp : H p = ⟨v, none, found⟩) (he : AllocEffect p va v t v' t') :
    FramesOk t' (Function.update H p ⟨v', none, found'⟩) := by
  cases he with
  | same hsame => exact hok.congr hsame.frame hsame.count (by rw [hp])
  | begun hbegun => exact hok.hide hbegun (by rw [hp]) rfl
  | abort => exact hok.settle (f := .clear) (by rw [hp]) (.inl rfl) rfl rfl rfl
  | @undo v =>
    exact hok.settle (f := ⟨true, true, v.proc, v.va, true⟩) (by rw [hp]) (.inr rfl) rfl rfl rfl
  | @publish v =>
    exact hok.settle (f := { t.frameTable v.frame with used := false }) (by rw [hp]) (.inl rfl)
      rfl rfl rfl
  | register hreg => exact hok.register hreg (by rw [hp])

/-- One entry is cleared by a search for it. -/
theorem freeFrame (hok : FramesOk t H) (hp : H p = .none) (o : Option ProcIdx) (va : ℕ) :
    FramesOk (t.freeFrameEntry o va) (Function.update H p .none) := by
  unfold Tables.freeFrameEntry
  split
  · rename_i i hfind
    have hentry := Tables.findFrame_eq_some hfind
    simp only [Frame.entry, Prod.mk.injEq] at hentry
    refine hok.clear (P := fun j => j = i) (fun j hj => ?_) (fun j => ?_) ?_ (by rw [hp])
    · simp [hj, Frame.evictable, hentry]
    · simp [Tables.decCount, Tables.setFrame, Function.update_apply]
    · simp [Tables.decCount, Tables.setFrame, Finset.filter_eq']
  · exact hok.congr (fun _ => rfl) rfl (by rw [hp])

theorem freeProc (hok : FramesOk t H) (hp : H p = .none) (q : ProcIdx) :
    FramesOk (t.freeProcSwapSlots q) (Function.update H p .none) := by
  have hf := t.freeProcSwapSlots_spec q
  refine hok.clear (P := t.OwnFrame q) (fun i hi => hi.1) hf.frame ?_ (by rw [hp])
  rw [hf.count]
  rfl

/-- What one step does to the tables keeps the bookkeeping. -/
theorem step {l : Pc} (hok : FramesOk t H) (hs : TableStep p l (H p) t h t') :
    FramesOk t' (Function.update H p h) := by
  generalize hp : H p = h₀ at hs
  cases hs with
  | same hsame => exact hok.congr hsame.frame hsame.count (by rw [hp])
  | forget | lookup | unreserve | insert => exact hok.congr (fun _ => rfl) rfl (by rw [hp]; rfl)
  | alloc he => exact hok.alloc_step hp he
  | @freeFrame o va => exact hok.freeFrame hp o va
  | @finish va i slot =>
    have hsame := t.sameEntries_setRefBit p va
    refine hok.congr (fun j => ?_) ?_ (by rw [hp]; rfl)
    · rw [← hsame.frame]
      cases slot <;> rfl
    · rw [← hsame.count]
      cases slot <;> rfl
  | @freeSwap va =>
    obtain ⟨hframe, hcount⟩ := t.freeSwapEntry_frameTable p va
    exact hok.congr (fun j => by rw [hframe]) hcount (by rw [hp])
  | reserve hres =>
    obtain ⟨-, rfl⟩ := Tables.reserveSlot_eq_some hres
    exact hok.congr (fun _ => rfl) rfl (by rw [hp]; rfl)
  | @freeProc q => exact hok.freeProc hp q

end FramesOk

/-! ## Runs -/

section Runs

variable {σ : Type} {S : SwapOps σ} {c c₀ : Cfg ProcIdx Pc (Shared σ)}

/-- The counter of used entries is exact, hidden entries are held by one eviction and the others
have a process. The last three fields say that the counter is not zero where a section lowers it: at
the end of an eviction, where an entry was found, and for the entries of a process. -/
structure FramesExact (c : Cfg ProcIdx Pc (Shared σ)) : Prop where
  count : c.mem.kern.tables.userFrameCount =
    (Finset.univ.filter fun i => (c.mem.kern.tables.frameTable i).used = true).card
  le : c.mem.kern.tables.userFrameCount ≤ maxFrames
  hidden : ∀ i, (c.mem.kern.tables.frameTable i).used = true →
    (c.mem.kern.tables.frameTable i).userFrame = false →
      ∃! p, ∃ v, (holds c p).victim = some v ∧ v.frame = i
  owned : ∀ i, (c.mem.kern.tables.frameTable i).used = true →
    (c.mem.kern.tables.frameTable i).userFrame = true →
      (c.mem.kern.tables.frameTable i).proc ≠ none
  pos_victim : ∀ p v, (holds c p).victim = some v → 0 < c.mem.kern.tables.userFrameCount
  pos_found : ∀ o va i, c.mem.kern.tables.findFrame o va = some i →
    0 < c.mem.kern.tables.userFrameCount
  le_proc : ∀ q, (Finset.univ.filter fun i => c.mem.kern.tables.OwnFrame q i).card ≤
    c.mem.kern.tables.userFrameCount

theorem FramesOk.exact (h : FramesOk c.mem.kern.tables (holds c)) : FramesExact c where
  count := h.count
  le := by
    rw [h.count]
    exact (Finset.card_le_univ _).trans_eq (Fintype.card_fin maxFrames)
  hidden i hi hu := by
    obtain ⟨p, v, hp, hv⟩ := h.hidden i hi hu
    refine ⟨p, ⟨v, hp, hv⟩, fun q => ?_⟩
    rintro ⟨w, hq, hw⟩
    exact h.victim_inj q p w v hq hp (hw.trans hv.symm)
  owned i hi hu := h.owned i (by simp [Frame.evictable, hi, hu])
  pos_victim p v hp := by
    rw [h.count]
    exact Finset.card_pos.2 ⟨v.frame, mem_usedFrames.2 (congrArg (·.1) (h.victim p v hp).1)⟩
  pos_found o va i hi := by
    rw [h.count]
    exact Finset.card_pos.2 ⟨i, mem_usedFrames.2 (congrArg (·.1) (Tables.findFrame_eq_some hi))⟩
  le_proc q := by
    rw [h.count]
    refine Finset.card_le_card fun i hi => ?_
    have hown := (Finset.mem_filter.1 hi).2.1
    simp only [Frame.evictable, Bool.and_eq_true] at hown
    exact mem_usedFrames.2 hown.1

/-- **The frame counter is exact** in every run, and the entries that evictions have hidden are
theirs alone. -/
theorem frames_exact (hidle : Idle c₀) (h₀ : FramesOk c₀.mem.kern.tables fun _ => .none)
    (hrun : (procSystem S).Reaches System.any c₀ c) : FramesExact c := by
  have hinv : OwnerOk c ∧ FramesOk c.mem.kern.tables (holds c) := by
    refine hrun.inv (P := fun c => OwnerOk c ∧ FramesOk c.mem.kern.tables (holds c))
      (fun c p a l g _ h hn => ⟨h.1.next hn, ?_⟩) ⟨hidle.ownerOk, hidle.holds ▸ h₀⟩
    rw [holds_update]
    exact h.2.step (next_tables (h.1 p) hn).1
  exact hinv.2.exact

theorem bothSwapped_frames : FramesOk bothSwapped.mem.kern.tables fun _ => .none where
  count := by decide +kernel
  hidden i hi := by revert i; decide +kernel
  victim _ _ hv := by cases hv
  victim_inj _ _ _ _ hv := by cases hv
  owned i hi := by revert i; decide +kernel

/-- While `proc₁` evicts its first page. -/
theorem frames_exact_bothSwapped : ∃ c,
    (procSystem nullSwap).Reaches System.any bothSwapped c ∧ FramesExact c ∧
      (holds c proc₁).victim.isSome ∧ c.mem.kern.tables.userFrameCount = 1 := by
  have hrun : ((procSystem nullSwap).exec lateInsert bothSwapped).map
      (fun c => ((holds c proc₁).victim.isSome, c.mem.kern.tables.userFrameCount)) =
      some (true, 1) := by
    decide +kernel
  obtain ⟨c, hc, hobs⟩ := Option.map_eq_some_iff.1 hrun
  obtain ⟨hvictim, hcount⟩ := Prod.mk.inj hobs
  have hreach := System.reaches_of_exec hc
  exact ⟨c, hreach, frames_exact bothSwapped_idle bothSwapped_frames hreach, hvictim, hcount⟩

end Runs

end Xv6Swap.Paging
