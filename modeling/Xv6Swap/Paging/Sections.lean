import Xv6Swap.Paging.Tables

/-!
# What the critical sections do

One specification for each critical section on the frame table and the swap map, so that no later
proof looks inside them. Reference bits and the clock hand only decide which page is evicted;
`SameEntries` is equality of everything else.
-/

namespace Xv6Swap.Paging

/-- The parts of a frame entry that say what it stands for. -/
def Frame.entry (f : Frame) : Bool × Bool × Option ProcIdx × ℕ :=
  (f.used, f.userFrame, f.proc, f.va)

/-- The entry is a page of a process that may be evicted. -/
def Frame.evictable (f : Frame) : Bool := f.used && f.userFrame

/-- The entry of the swap map stands for page `va` of process `p`. -/
def SwapEntry.Holds (e : SwapEntry) (p : ProcIdx) (va : ℕ) : Prop :=
  e.used = true ∧ e.proc = some p ∧ e.va = va

namespace Tables

/-- The tables agree on everything but reference bits and the clock hand. -/
structure SameEntries (t t' : Tables) : Prop where
  frame : ∀ i, (t'.frameTable i).entry = (t.frameTable i).entry
  swapUsed : t'.swapUsed = t.swapUsed
  swapMap : t'.swapMap = t.swapMap
  count : t'.userFrameCount = t.userFrameCount

theorem SameEntries.refl (t : Tables) : SameEntries t t := ⟨fun _ => rfl, rfl, rfl, rfl⟩

theorem SameEntries.trans {t t' t'' : Tables} (h : SameEntries t t') (h' : SameEntries t' t'') :
    SameEntries t t'' :=
  ⟨fun i => (h'.frame i).trans (h.frame i), h'.swapUsed.trans h.swapUsed,
    h'.swapMap.trans h.swapMap, h'.count.trans h.count⟩

theorem SameEntries.evictable {t t' : Tables} (h : SameEntries t t') (i : FrameIdx) :
    (t'.frameTable i).evictable = (t.frameTable i).evictable := by
  have := h.frame i
  simp only [Frame.entry, Prod.mk.injEq] at this
  simp only [Frame.evictable, this]

theorem sameEntries_setFrame {t : Tables} {i : FrameIdx} {f : Frame}
    (h : f.entry = (t.frameTable i).entry) : SameEntries t (t.setFrame i f) := by
  refine ⟨fun j => ?_, rfl, rfl, rfl⟩
  by_cases hj : j = i
  · subst hj
    simpa [setFrame] using h
  · simp [setFrame, hj]

theorem sameEntries_setRefBit (t : Tables) (p : ProcIdx) (va : ℕ) :
    SameEntries t (t.setRefBit p va) := by
  unfold setRefBit
  split
  · exact sameEntries_setFrame rfl
  · exact .refl t

/-- The scanning loop touches only reference bits and the hand, and its choice is evictable. -/
theorem scanLoop_spec (level : ProcIdx → ℤ) (rounds : ℕ) (s : Scan)
    (hbest : ∀ i, s.best = some i → (s.table.frameTable i).evictable = true) :
    SameEntries s.table (scanLoop level rounds s).table ∧
      ∀ i, (scanLoop level rounds s).best = some i →
        ((scanLoop level rounds s).table.frameTable i).evictable = true := by
  induction rounds generalizing s with
  | zero => exact ⟨.refl _, hbest⟩
  | succ rounds ih =>
    have hand : SameEntries s.table { s.table with clockHand := advance s.table.clockHand } :=
      ⟨fun _ => rfl, rfl, rfl, rfl⟩
    -- a round that keeps the choice and the entries
    have hkeep : ∀ t, SameEntries s.table t →
        SameEntries s.table (scanLoop level rounds { s with table := t }).table ∧
          ∀ i, (scanLoop level rounds { s with table := t }).best = some i →
            ((scanLoop level rounds { s with table := t }).table.frameTable i).evictable
              = true := by
      intro t ht
      obtain ⟨hsame, hrest⟩ := ih { s with table := t } fun i hi => by
        rw [ht.evictable]
        exact hbest i hi
      exact ⟨ht.trans hsame, hrest⟩
    simp only [scanLoop]
    split_ifs with hskip href hlevel hbreak hbreak
    · exact hkeep _ hand
    · exact hkeep _ (hand.trans (sameEntries_setFrame rfl))
    · refine ⟨hand, ?_⟩
      rintro i ⟨⟩
      simpa [Frame.evictable] using hskip
    · obtain ⟨hsame, hrest⟩ := ih ⟨{ s.table with clockHand := advance s.table.clockHand },
        some s.table.clockHand, ownerLevel level (s.table.frameTable s.table.clockHand)⟩
        (by rintro i ⟨⟩; simpa [Frame.evictable] using hskip)
      exact ⟨hand.trans hsame, hrest⟩
    · exact ⟨hand, hbest⟩
    · exact hkeep _ hand

/-- `select_victim_frame` returns an evictable entry, if there is one. -/
theorem selectVictimFrame_spec (level : ProcIdx → ℤ) (t : Tables) :
    SameEntries t (t.selectVictimFrame level).2 ∧
      (∀ i, (t.selectVictimFrame level).1 = some i → (t.frameTable i).evictable = true) ∧
      ((t.selectVictimFrame level).1 = none → ∀ i, (t.frameTable i).evictable = false) := by
  obtain ⟨hsame, hbest⟩ := scanLoop_spec level (maxFrames * 2) ⟨t, none, -1⟩ (by simp)
  simp only [selectVictimFrame]
  cases h : (scanLoop level (maxFrames * 2) ⟨t, none, -1⟩).best with
  | some i =>
    refine ⟨hsame, ?_, by simp⟩
    rintro j ⟨⟩
    rw [← hsame.evictable]
    exact hbest i h
  | none =>
    generalize (scanLoop level (maxFrames * 2) ⟨t, none, -1⟩).table = t' at hsame
    refine ⟨hsame, fun i hi => ?_, fun hnone i => ?_⟩
    · have hfind : (Fin.find? fun i => (t'.frameTable i).evictable) = some i := hi
      rw [← hsame.evictable]
      exact Fin.eq_true_of_find?_eq_some hfind
    · have hfind : (Fin.find? fun i => (t'.frameTable i).evictable) = none := hnone
      rw [← hsame.evictable]
      exact Fin.eq_false_of_find?_eq_none hfind i

theorem reserveSlot_eq_some {t t' : Tables} {s : SlotIdx} (h : t.reserveSlot = some (s, t')) :
    t.swapUsed s = false ∧ t' = t.setSwapUsed s true := by
  simp only [reserveSlot, Option.map_eq_some_iff, Prod.mk.injEq] at h
  obtain ⟨s', hfind, rfl, rfl⟩ := h
  exact ⟨by simpa using Fin.eq_true_of_find?_eq_some hfind, rfl⟩

theorem exists_reserveSlot {t : Tables} (h : ∃ s, t.swapUsed s = false) :
    ∃ r, t.reserveSlot = some r := by
  obtain ⟨s, hs⟩ := h
  have hsome : (Fin.find? fun s => !t.swapUsed s).isSome = true := by
    rw [Fin.isSome_find?_iff]
    exact ⟨s, by simp [hs]⟩
  obtain ⟨s', hfind⟩ := Option.isSome_iff_exists.1 hsome
  exact ⟨_, by rw [reserveSlot, hfind]; rfl⟩

/-- The first section of an eviction that found no victim or no slot. -/
theorem evictBegin_none {level : ProcIdx → ℤ} {t t' : Tables}
    (h : t.evictBegin level = (none, t')) : SameEntries t t' := by
  obtain ⟨hsame, hvictim, -⟩ := t.selectVictimFrame_spec level
  unfold evictBegin at h
  cases hsel : t.selectVictimFrame level with
  | mk r t₁ =>
    rw [hsel] at h hsame hvictim
    cases r with
    | none =>
      obtain ⟨-, rfl⟩ := Prod.mk.inj h
      exact hsame
    | some i =>
      simp only at h
      split at h
      · obtain ⟨-, rfl⟩ := Prod.mk.inj h
        refine hsame.trans ⟨fun j => ?_, rfl, rfl, rfl⟩
        have hev : (t₁.frameTable i).evictable = true := by
          rw [hsame.evictable]
          exact hvictim i rfl
        obtain ⟨hused, huser⟩ : (t₁.frameTable i).used = true ∧
            (t₁.frameTable i).userFrame = true := by simpa [Frame.evictable] using hev
        by_cases hj : j = i
        · subst hj
          simp [setFrame, Frame.entry, hused, huser]
        · simp [setFrame, hj]
      · cases h

/-- The first section of an eviction that goes on: the victim's entry is hidden and a slot is
reserved. -/
structure Begun (t t' : Tables) (v : Victim) : Prop where
  entry : (t.frameTable v.frame).entry = (true, true, v.proc, v.va)
  hidden : t'.frameTable v.frame = ⟨true, false, none, 0, false⟩
  frame : ∀ i ≠ v.frame, (t'.frameTable i).entry = (t.frameTable i).entry
  free : t.swapUsed v.slot = false
  swapUsed : t'.swapUsed = Function.update t.swapUsed v.slot true
  swapMap : t'.swapMap = t.swapMap
  count : t'.userFrameCount = t.userFrameCount

theorem evictBegin_some {level : ProcIdx → ℤ} {t t' : Tables} {v : Victim}
    (h : t.evictBegin level = (some v, t')) : Begun t t' v := by
  obtain ⟨hsame, hvictim, -⟩ := t.selectVictimFrame_spec level
  unfold evictBegin at h
  cases hsel : t.selectVictimFrame level with
  | mk r t₁ =>
    rw [hsel] at h hsame hvictim
    cases r with
    | none => cases h
    | some i =>
      simp only at h
      split at h
      · cases h
      · rename_i s t₂ hres
        obtain ⟨hv, rfl⟩ := Prod.mk.inj h
        obtain rfl := Option.some.inj hv
        obtain ⟨hfree, rfl⟩ := reserveSlot_eq_some hres
        have hev := hvictim i rfl
        rw [← hsame.evictable] at hev
        obtain ⟨hused, huser⟩ : (t₁.frameTable i).used = true ∧
            (t₁.frameTable i).userFrame = true := by simpa [Frame.evictable] using hev
        refine ⟨?_, ?_, fun j hj => ?_, ?_, ?_, hsame.swapMap, hsame.count⟩
        · rw [← hsame.frame]
          simp [Frame.entry, hused, huser]
        · simp [setFrame, setSwapUsed, hused]
        · rw [← hsame.frame]
          have hj : j ≠ i := hj
          simp [setFrame, setSwapUsed, hj]
        · rw [← hsame.swapUsed]
          exact hfree
        · rw [← hsame.swapUsed]
          rfl

/-- A search by process and address finds an entry with that process and address. -/
theorem findFrame_eq_some {p : Option ProcIdx} {va : ℕ} {t : Tables} {i : FrameIdx}
    (h : t.findFrame p va = some i) : (t.frameTable i).entry = (true, true, p, va) := by
  have := Fin.eq_true_of_find?_eq_some h
  simp only [Bool.and_eq_true, decide_eq_true_eq] at this
  obtain ⟨⟨⟨hused, huser⟩, hproc⟩, hva⟩ := this
  simp [Frame.entry, hused, huser, hproc, hva]

theorem findFrame_eq_none {p : Option ProcIdx} {va : ℕ} {t : Tables}
    (h : t.findFrame p va = none) (i : FrameIdx) :
    (t.frameTable i).entry ≠ (true, true, p, va) := by
  intro he
  have := Fin.eq_false_of_find?_eq_none h i
  simp only [Frame.entry, Prod.mk.injEq] at he
  simp [he] at this

/-- Dropping an entry clears one with the process and the address, and touches no other. -/
theorem freeFrameEntry_frame (o : Option ProcIdx) (va : ℕ) (t : Tables) (i : FrameIdx) :
    (t.freeFrameEntry o va).frameTable i = t.frameTable i ∨
      (t.frameTable i).entry = (true, true, o, va) ∧
        (t.freeFrameEntry o va).frameTable i = .clear := by
  unfold freeFrameEntry
  split
  · rename_i j hfind
    by_cases hij : i = j
    · subst hij
      exact .inr ⟨findFrame_eq_some hfind, by simp [setFrame, decCount]⟩
    · exact .inl (by simp [setFrame, decCount, hij])
  · exact .inl rfl

theorem findSwap_eq_some {p : ProcIdx} {va : ℕ} {t : Tables} {i : SlotIdx}
    (h : t.findSwap p va = some i) : (t.swapMap i).Holds p va := by
  have := Fin.eq_true_of_find?_eq_some h
  simp only [Bool.and_eq_true, decide_eq_true_eq] at this
  exact ⟨this.1.1, this.1.2, this.2⟩

theorem findSwap_eq_none {p : ProcIdx} {va : ℕ} {t : Tables} (h : t.findSwap p va = none)
    (i : SlotIdx) : ¬ (t.swapMap i).Holds p va := by
  rintro ⟨hused, hproc, hva⟩
  have := Fin.eq_false_of_find?_eq_none h i
  simp [hused, hproc, hva] at this

theorem registerUserFrame_eq_some {p : ProcIdx} {va : ℕ} {t t' : Tables}
    (h : t.registerUserFrame p va = some t') : ∃ i, (t.frameTable i).used = false ∧
      t' = { t.setFrame i ⟨true, true, some p, va, true⟩ with
        userFrameCount := t.userFrameCount + 1 } := by
  simp only [registerUserFrame, Option.map_eq_some_iff] at h
  obtain ⟨i, hfind, rfl⟩ := h
  exact ⟨i, by simpa using Fin.eq_true_of_find?_eq_some hfind, rfl⟩

theorem exists_registerUserFrame (p : ProcIdx) (va : ℕ) {t : Tables}
    (h : ∃ i, (t.frameTable i).used = false) : ∃ t', t.registerUserFrame p va = some t' := by
  obtain ⟨i, hi⟩ := h
  have hsome : (Fin.find? fun i => !(t.frameTable i).used).isSome = true := by
    rw [Fin.isSome_find?_iff]
    exact ⟨i, by simp [hi]⟩
  obtain ⟨j, hfind⟩ := Option.isSome_iff_exists.1 hsome
  exact ⟨_, by rw [registerUserFrame, hfind]; rfl⟩

/-! ## Freeing everything of a process -/

/-- The entry of the swap map belongs to `p`. -/
def OwnSwap (t : Tables) (p : ProcIdx) (i : SlotIdx) : Prop :=
  (t.swapMap i).used = true ∧ (t.swapMap i).proc = some p

/-- The entry of the frame table is an evictable page of `p`. -/
def OwnFrame (t : Tables) (p : ProcIdx) (i : FrameIdx) : Prop :=
  (t.frameTable i).evictable = true ∧ (t.frameTable i).proc = some p

instance (t : Tables) (p : ProcIdx) (i : SlotIdx) : Decidable (t.OwnSwap p i) :=
  inferInstanceAs (Decidable (_ ∧ _))

instance (t : Tables) (p : ProcIdx) (i : FrameIdx) : Decidable (t.OwnFrame p i) :=
  inferInstanceAs (Decidable (_ ∧ _))

theorem releaseSlot_frameTable (s : Option SlotIdx) (t : Tables) :
    (t.releaseSlot s).frameTable = t.frameTable ∧ (t.releaseSlot s).swapMap = t.swapMap ∧
      (t.releaseSlot s).userFrameCount = t.userFrameCount := by
  cases s <;> exact ⟨rfl, rfl, rfl⟩

theorem freeSwapEntry_frameTable (p : ProcIdx) (va : ℕ) (t : Tables) :
    (t.freeSwapEntry p va).frameTable = t.frameTable ∧
      (t.freeSwapEntry p va).userFrameCount = t.userFrameCount := by
  unfold freeSwapEntry
  split
  · rename_i i _
    obtain ⟨hframe, -, hcount⟩ := t.releaseSlot_frameTable (t.swapMap i).swapSlot
    exact ⟨hframe, hcount⟩
  · exact ⟨rfl, rfl⟩

theorem releaseSlot_swapUsed (s : Option SlotIdx) (t : Tables) (j : SlotIdx) :
    (t.releaseSlot s).swapUsed j = if s = some j then false else t.swapUsed j := by
  cases s with
  | none => simp [releaseSlot]
  | some s => simp [releaseSlot, setSwapUsed, Function.update_apply, eq_comm]

theorem freeSwapsOf_spec (p : ProcIdx) (l : List SlotIdx) (t : Tables) :
    (t.freeSwapsOf p l).frameTable = t.frameTable ∧
      (t.freeSwapsOf p l).userFrameCount = t.userFrameCount ∧
      (∀ i, (t.freeSwapsOf p l).swapMap i =
        if i ∈ l ∧ t.OwnSwap p i then .clear else t.swapMap i) ∧
      ∀ s, (t.freeSwapsOf p l).swapUsed s =
        if ∃ i ∈ l, t.OwnSwap p i ∧ (t.swapMap i).swapSlot = some s then false
        else t.swapUsed s := by
  induction l generalizing t with
  | nil => simp [freeSwapsOf]
  | cons a l ih =>
    by_cases ha : t.OwnSwap p a
    · have hstep : t.freeSwapsOf p (a :: l) =
          (t.releaseSwap a (t.swapMap a).swapSlot).freeSwapsOf p l := by
        simp [freeSwapsOf, ha.1, ha.2]
      obtain ⟨hframe, hmap, hcount⟩ := t.releaseSlot_frameTable (t.swapMap a).swapSlot
      obtain ⟨ihframe, ihcount, ihmap, ihused⟩ := ih (t.releaseSwap a (t.swapMap a).swapSlot)
      have hself : (t.releaseSwap a (t.swapMap a).swapSlot).swapMap a = .clear := by
        simp [releaseSwap, setSwap]
      have hother : ∀ i ≠ a, (t.releaseSwap a (t.swapMap a).swapSlot).swapMap i = t.swapMap i :=
        fun i hi => by simp [releaseSwap, setSwap, hi, hmap]
      have hown : ∀ i ≠ a, (t.releaseSwap a (t.swapMap a).swapSlot).OwnSwap p i ↔
          t.OwnSwap p i := fun i hi => by simp [OwnSwap, hother i hi]
      have hnot : ¬ (t.releaseSwap a (t.swapMap a).swapSlot).OwnSwap p a := by
        simp [OwnSwap, hself, SwapEntry.clear]
      rw [hstep]
      refine ⟨ihframe.trans hframe, ihcount.trans hcount, fun i => ?_, fun s => ?_⟩
      · rw [ihmap]
        by_cases hi : i = a
        · subst hi
          simp [hself, ha]
        · simp [hi, hown i hi, hother i hi]
      · rw [ihused]
        have hused : (t.releaseSwap a (t.swapMap a).swapSlot).swapUsed s =
            if (t.swapMap a).swapSlot = some s then false else t.swapUsed s :=
          t.releaseSlot_swapUsed _ s
        rw [hused]
        by_cases hs : (t.swapMap a).swapSlot = some s
        · simp [hs, ha]
        · have hiff : (∃ i ∈ l, (t.releaseSwap a (t.swapMap a).swapSlot).OwnSwap p i ∧
              ((t.releaseSwap a (t.swapMap a).swapSlot).swapMap i).swapSlot = some s) ↔
              ∃ i ∈ a :: l, t.OwnSwap p i ∧ (t.swapMap i).swapSlot = some s := by
            constructor
            · rintro ⟨i, hi, howni, hsi⟩
              have hia : i ≠ a := fun e => hnot (e ▸ howni)
              exact ⟨i, List.mem_cons_of_mem _ hi, (hown i hia).1 howni, hother i hia ▸ hsi⟩
            · rintro ⟨i, hi, howni, hsi⟩
              have hia : i ≠ a := fun e => hs (e ▸ hsi)
              refine ⟨i, (List.mem_cons.1 hi).resolve_left hia, (hown i hia).2 howni, ?_⟩
              rw [hother i hia]
              exact hsi
          simp only [hiff, if_neg hs]
    · have hstep : t.freeSwapsOf p (a :: l) = t.freeSwapsOf p l := by
        simp only [freeSwapsOf, List.foldl_cons]
        rw [if_neg]
        simpa [OwnSwap] using ha
      obtain ⟨ihframe, ihcount, ihmap, ihused⟩ := ih t
      rw [hstep]
      refine ⟨ihframe, ihcount, fun i => ?_, fun s => ?_⟩
      · rw [ihmap]
        by_cases hi : i = a
        · subst hi
          simp [ha]
        · simp [hi]
      · rw [ihused]
        simp [ha]

theorem freeFramesOf_spec (p : ProcIdx) {l : List FrameIdx} (hl : l.Nodup) (t : Tables) :
    (t.freeFramesOf p l).swapMap = t.swapMap ∧ (t.freeFramesOf p l).swapUsed = t.swapUsed ∧
      (∀ i, (t.freeFramesOf p l).frameTable i =
        if i ∈ l ∧ t.OwnFrame p i then .clear else t.frameTable i) ∧
      (t.freeFramesOf p l).userFrameCount =
        t.userFrameCount - (l.filter fun i => t.OwnFrame p i).length := by
  induction l generalizing t with
  | nil => simp [freeFramesOf]
  | cons a l ih =>
    obtain ⟨hal, hl⟩ := List.nodup_cons.1 hl
    by_cases ha : t.OwnFrame p a
    · have hstep : t.freeFramesOf p (a :: l) =
          (t.setFrame a .clear).decCount.freeFramesOf p l := by
        have := ha.1
        simp only [Frame.evictable, Bool.and_eq_true] at this
        simp [freeFramesOf, this.1, this.2, ha.2]
      obtain ⟨ihmap, ihused, ihframe, ihcount⟩ := ih hl (t.setFrame a .clear).decCount
      have hother : ∀ i ≠ a, (t.setFrame a .clear).decCount.frameTable i = t.frameTable i :=
        fun i hi => by simp [setFrame, decCount, hi]
      have hown : ∀ i ≠ a, (t.setFrame a .clear).decCount.OwnFrame p i ↔ t.OwnFrame p i :=
        fun i hi => by simp [OwnFrame, hother i hi]
      rw [hstep]
      refine ⟨ihmap, ihused, fun i => ?_, ?_⟩
      · rw [ihframe]
        by_cases hi : i = a
        · subst hi
          simp [ha, hal, setFrame, decCount]
        · simp [hi, hown i hi, hother i hi]
      · have hfilter : l.filter (fun i => (t.setFrame a .clear).decCount.OwnFrame p i) =
            l.filter fun i => t.OwnFrame p i :=
          List.filter_congr fun i hi => by
            rw [decide_eq_decide]
            exact hown i fun e => hal (e ▸ hi)
        rw [ihcount, hfilter, List.filter_cons_of_pos (by simpa using ha), List.length_cons]
        simp only [decCount, setFrame]
        omega
    · have hstep : t.freeFramesOf p (a :: l) = t.freeFramesOf p l := by
        simp only [freeFramesOf, List.foldl_cons]
        rw [if_neg]
        simpa [OwnFrame, Frame.evictable] using ha
      obtain ⟨ihmap, ihused, ihframe, ihcount⟩ := ih hl t
      rw [hstep]
      refine ⟨ihmap, ihused, fun i => ?_, ?_⟩
      · rw [ihframe]
        by_cases hi : i = a
        · subst hi
          simp [ha]
        · simp [hi]
      · rw [ihcount, List.filter_cons_of_neg (by simpa using ha)]

/-- After `free_proc_swap_slots` nothing of the process is left, and the rest is as before. -/
structure FreedProc (t t' : Tables) (p : ProcIdx) : Prop where
  swapMap : ∀ i, t'.swapMap i = if t.OwnSwap p i then .clear else t.swapMap i
  swapUsed : ∀ s, t'.swapUsed s =
    if ∃ i, t.OwnSwap p i ∧ (t.swapMap i).swapSlot = some s then false else t.swapUsed s
  frame : ∀ i, t'.frameTable i = if t.OwnFrame p i then .clear else t.frameTable i
  count : t'.userFrameCount =
    t.userFrameCount - ((List.finRange maxFrames).filter fun i => t.OwnFrame p i).length

theorem freeProcSwapSlots_spec (p : ProcIdx) (t : Tables) :
    FreedProc t (t.freeProcSwapSlots p) p := by
  obtain ⟨hframe, hcount, hmap, hused⟩ := t.freeSwapsOf_spec p (List.finRange maxSwapPages)
  obtain ⟨hmap', hused', hframe', hcount'⟩ := (t.freeSwapsOf p (List.finRange
    maxSwapPages)).freeFramesOf_spec p (List.nodup_finRange maxFrames)
  have hown : ∀ i, (t.freeSwapsOf p (List.finRange maxSwapPages)).OwnFrame p i ↔
      t.OwnFrame p i := fun i => by simp [OwnFrame, hframe]
  refine ⟨fun i => ?_, fun s => ?_, fun i => ?_, ?_⟩
  · rw [freeProcSwapSlots, hmap', hmap]
    simp
  · rw [freeProcSwapSlots, hused', hused]
    simp
  · rw [freeProcSwapSlots, hframe', hframe]
    simp [hown]
  · rw [freeProcSwapSlots, hcount', hcount]
    simp only [hown]

end Tables

end Xv6Swap.Paging
