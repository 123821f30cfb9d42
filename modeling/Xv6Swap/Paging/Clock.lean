import Xv6Swap.Foundations.Circular
import Xv6Swap.Paging.Sections

/-!
# The clock

Which page `select_victim_frame` of `kernel/kalloc.c` chooses. Its scan goes round the frame table
twice. Step `k` looks at the entry `turn clockHand k`; the entry is offered as a victim if it is
evictable and its reference bit is clear, which after the first round it is for all of them
(`Offers`). The choice is the first of the offers of the highest level (`selectVictimFrame_scan`),
and this is `selectVictimFrame_priority`: the highest level first, and in that level the second
chance.

The second part is about what the clock is for. `Replacing` is a run of evictions, each followed by
a new page in the freed entry. The scan stops early only at level 3, and otherwise leaves the hand
where it was. `clock_advances_iff`: with all pages at one level, the pages of the start are evicted
before the new ones exactly if that level is 3.
-/

namespace Xv6Swap.Paging

open Circular

/-- The levels of the processes are `0..3`. -/
def LevelsOk (level : ProcIdx → ℤ) : Prop := ∀ p, 0 ≤ level p ∧ level p ≤ 3

/-- A frame after the hand has passed it. -/
def Frame.passed (f : Frame) : Frame := if f.evictable then { f with refBit := false } else f

theorem Frame.entry_passed (f : Frame) : f.passed.entry = f.entry := by
  unfold Frame.passed
  split <;> rfl

theorem Frame.evictable_passed (f : Frame) : f.passed.evictable = f.evictable := by
  unfold Frame.passed
  split <;> rfl

@[simp] theorem Frame.passed_passed (f : Frame) : f.passed.passed = f.passed := by
  rw [Frame.passed, Frame.evictable_passed]
  split
  next h => simp [Frame.passed, h]
  next => rfl

theorem Frame.used_of_evictable {f : Frame} (h : f.evictable = true) : f.used = true := by
  simp only [Frame.evictable, Bool.and_eq_true] at h
  exact h.1

theorem Frame.refBit_of_passed {f : Frame} (h : f.passed.refBit = true) : f.refBit = true := by
  unfold Frame.passed at h
  split at h
  · cases h
  · exact h

theorem Frame.refBit_passed {f : Frame} (h : f.evictable = true) : f.passed.refBit = false := by
  rw [Frame.passed, if_pos h]

theorem Frame.passed_eq_self {f : Frame} (h : f.evictable = true → f.refBit = false) :
    f.passed = f := by
  unfold Frame.passed
  split
  next hev =>
    have := h hev
    cases f
    simp_all
  next => rfl

theorem LevelsOk.ownerLevel {level : ProcIdx → ℤ} (h : LevelsOk level) (f : Frame) :
    0 ≤ Tables.ownerLevel level f ∧ Tables.ownerLevel level f ≤ 3 := by
  unfold Tables.ownerLevel
  split
  · exact h _
  · norm_num

namespace Tables

/-! ## The scan -/

theorem ownerLevel_passed (level : ProcIdx → ℤ) (f : Frame) :
    ownerLevel level f.passed = ownerLevel level f := by
  unfold Frame.passed
  split <;> rfl

/-- The tables after the hand has moved `k` steps over them. -/
def swept (t : Tables) (k : ℕ) : Tables :=
  { t with
    clockHand := turn t.clockHand k
    frameTable := fun i =>
      if ahead t.clockHand i < k then (t.frameTable i).passed else t.frameTable i }

theorem swept_frame (t : Tables) (k : ℕ) (i : FrameIdx) : (t.swept k).frameTable i =
    if ahead t.clockHand i < k then (t.frameTable i).passed else t.frameTable i := rfl

theorem swept_zero (t : Tables) : t.swept 0 = t := by
  simp [swept]

theorem sameEntries_swept (t : Tables) (k : ℕ) : SameEntries t (t.swept k) := by
  refine ⟨fun i => ?_, rfl, rfl, rfl⟩
  rw [swept_frame]
  split
  · exact Frame.entry_passed _
  · rfl

/-- The hand passes one more entry. -/
theorem swept_succ (t : Tables) (k : ℕ) : t.swept (k + 1) =
    { (t.swept k).setFrame (turn t.clockHand k)
        ((t.swept k).frameTable (turn t.clockHand k)).passed with
      clockHand := advance (turn t.clockHand k) } := by
  have hhand : turn t.clockHand (k + 1) = advance (turn t.clockHand k) :=
    (turn_turn t.clockHand k 1).symm
  have hframe : (t.swept (k + 1)).frameTable = Function.update (t.swept k).frameTable
      (turn t.clockHand k) ((t.swept k).frameTable (turn t.clockHand k)).passed := by
    funext i
    by_cases hi : i = turn t.clockHand k
    · subst hi
      have hlt : ahead t.clockHand (turn t.clockHand k) < k + 1 := by
        rw [ahead_turn_self]
        exact Nat.lt_succ_of_le (Nat.mod_le k _)
      rw [Function.update_self, swept_frame, swept_frame, if_pos hlt]
      split
      · rw [Frame.passed_passed]
      · rfl
    · have hne : ahead t.clockHand i ≠ k := fun h => hi (h ▸ (turn_ahead _ i).symm)
      rw [Function.update_of_ne hi, swept_frame, swept_frame]
      exact if_congr (by omega) rfl rfl
  rw [← hhand]
  simp only [setFrame, ← hframe]
  rfl

/-- Step `k` of the scan finds an evictable entry with a clear reference bit. -/
def Offers (t : Tables) (k : ℕ) : Prop :=
  (t.frameTable (turn t.clockHand k)).evictable = true ∧
    ((t.frameTable (turn t.clockHand k)).refBit = false ∨ maxFrames ≤ k)

/-- The level of the entry at step `k`. -/
def levelAt (level : ProcIdx → ℤ) (t : Tables) (k : ℕ) : ℤ :=
  ownerLevel level (t.frameTable (turn t.clockHand k))

/-- What step `k` finds. -/
theorem swept_turn (t : Tables) (k : ℕ) : (t.swept k).frameTable (turn t.clockHand k) =
    if maxFrames ≤ k then (t.frameTable (turn t.clockHand k)).passed
    else t.frameTable (turn t.clockHand k) := by
  rw [swept_frame, ahead_turn_self]
  refine if_congr ?_ rfl rfl
  constructor
  · intro hlt
    by_contra hk
    rw [Nat.mod_eq_of_lt (not_le.1 hk)] at hlt
    exact lt_irrefl k hlt
  · intro hk
    exact (Nat.mod_lt k (by decide)).trans_le hk

theorem evictable_swept_turn (t : Tables) (k : ℕ) :
    ((t.swept k).frameTable (turn t.clockHand k)).evictable =
      (t.frameTable (turn t.clockHand k)).evictable :=
  (sameEntries_swept t k).evictable _

theorem offers_iff (t : Tables) (k : ℕ) : t.Offers k ↔
    ((t.swept k).frameTable (turn t.clockHand k)).evictable = true ∧
      ((t.swept k).frameTable (turn t.clockHand k)).refBit = false := by
  rw [evictable_swept_turn]
  refine and_congr_right fun hev => ?_
  rw [swept_turn]
  split
  next hk => simp [Frame.refBit_passed hev, hk]
  next hk => simp [hk]

theorem ownerLevel_swept_turn (level : ProcIdx → ℤ) (t : Tables) (k : ℕ) :
    ownerLevel level ((t.swept k).frameTable (turn t.clockHand k)) = levelAt level t k := by
  rw [swept_turn]
  split
  · exact ownerLevel_passed level _
  · rfl

/-- The state of the scan after `k` steps: no offer so far, or the first of the highest level. -/
structure Scanned (level : ProcIdx → ℤ) (t : Tables) (k : ℕ) (s : Scan) : Prop where
  table : s.table = t.swept k
  choice : (s.best = none ∧ s.bestLevel = -1 ∧ ∀ j < k, ¬ t.Offers j) ∨
    ∃ j, FirstMax t.Offers (levelAt level t) k j ∧ s.best = some (turn t.clockHand j) ∧
      s.bestLevel = levelAt level t j

theorem scanned_zero (level : ProcIdx → ℤ) (t : Tables) : Scanned level t 0 ⟨t, none, -1⟩ :=
  ⟨t.swept_zero.symm, .inl ⟨rfl, rfl, fun j hj => absurd hj j.not_lt_zero⟩⟩

section Loop

variable {level : ProcIdx → ℤ} {t : Tables} {k : ℕ} {s : Scan}

/-- A step at which nothing is offered. -/
theorem Scanned.skip (h : Scanned level t k s) (hno : ¬ t.Offers k) :
    Scanned level t (k + 1) { s with table := t.swept (k + 1) } := by
  refine ⟨rfl, ?_⟩
  rcases h.choice with ⟨hbest, hlevel, hnone⟩ | ⟨j, hmax, hbest, hlevel⟩
  · refine .inl ⟨hbest, hlevel, fun j hj => ?_⟩
    rcases Nat.lt_succ_iff_lt_or_eq.1 hj with hj | rfl
    · exact hnone j hj
    · exact hno
  · exact .inr ⟨j, hmax.skip hno, hbest, hlevel⟩

/-- The choice stays, as the offer is not better. -/
theorem Scanned.keep (hok : LevelsOk level) (h : Scanned level t k s)
    (hle : ¬ s.bestLevel < levelAt level t k) :
    Scanned level t (k + 1) { s with table := t.swept (k + 1) } := by
  refine ⟨rfl, ?_⟩
  rcases h.choice with ⟨-, hlevel, -⟩ | ⟨j, hmax, hbest, hlevel⟩
  · have := (hok.ownerLevel (t.frameTable (turn t.clockHand k))).1
    rw [hlevel, levelAt] at hle
    omega
  · exact .inr ⟨j, hmax.keep (by rw [← hlevel]; exact not_lt.1 hle), hbest, hlevel⟩

/-- A better offer is the first of the highest level so far. -/
theorem Scanned.firstMax (h : Scanned level t k s) (ho : t.Offers k)
    (hlt : s.bestLevel < levelAt level t k) :
    FirstMax t.Offers (levelAt level t) (k + 1) k := by
  rcases h.choice with ⟨-, -, hnone⟩ | ⟨j, hmax, -, hlevel⟩
  · exact firstMax_of_none hnone ho
  · exact hmax.replace ho (hlevel ▸ hlt)

/-- **The scanning loop**: it goes through all its rounds, or stops at the first offer of level
3. -/
theorem Scanned.scanLoop (hok : LevelsOk level) (h : Scanned level t k s) (hne : s.bestLevel ≠ 3)
    (rounds : ℕ) :
    (Scanned level t (k + rounds) (scanLoop level rounds s) ∧
        (scanLoop level rounds s).bestLevel ≠ 3) ∨
      ∃ j < k + rounds, FirstMax t.Offers (levelAt level t) (j + 1) j ∧ levelAt level t j = 3 ∧
        (scanLoop level rounds s).best = some (turn t.clockHand j) ∧
        (scanLoop level rounds s).table = t.swept (j + 1) := by
  induction rounds generalizing k s with
  | zero => exact .inl ⟨h, hne⟩
  | succ rounds ih =>
    have hround : k + (rounds + 1) = k + 1 + rounds := by omega
    have hhand : s.table.clockHand = turn t.clockHand k := by rw [h.table]; rfl
    have hframe : s.table.frameTable (turn t.clockHand k) =
        (t.swept k).frameTable (turn t.clockHand k) := by rw [h.table]
    have hoffers := offers_iff t k
    have hlevelAt := ownerLevel_swept_turn level t k
    have hsucc := swept_succ t k
    -- the tables after a step that leaves the entry as it is
    have hstay : ((t.swept k).frameTable (turn t.clockHand k)).passed =
        (t.swept k).frameTable (turn t.clockHand k) →
        { s.table with clockHand := advance (turn t.clockHand k) } = t.swept (k + 1) := by
      intro hself
      rw [hsucc, hself, h.table]
      simp [setFrame]
    rw [hround]
    simp only [Tables.scanLoop, hhand, hframe]
    generalize (t.swept k).frameTable (turn t.clockHand k) = f
      at hoffers hlevelAt hsucc hstay hframe
    split
    next hskip =>
      -- no user frame
      have hev : f.evictable = false := by
        revert hskip
        cases hu : f.used <;> cases hf : f.userFrame <;> simp [Frame.evictable, hu, hf]
      rw [hstay (by rw [Frame.passed, if_neg (by simp [hev])])]
      exact ih (h.skip (by simp [hoffers, hev])) hne
    next hskip =>
    have hev : f.evictable = true := by
      revert hskip
      cases hu : f.used <;> cases hf : f.userFrame <;> simp [Frame.evictable, hu, hf]
    split
    next href =>
      -- the second chance
      have htable : { s.table with clockHand := advance (turn t.clockHand k) }.setFrame
          (turn t.clockHand k) { f with refBit := false } = t.swept (k + 1) := by
        rw [hsucc, Frame.passed, if_pos hev, h.table]
        rfl
      rw [htable]
      exact ih (h.skip (by simp [hoffers, href])) hne
    next href =>
    have href : f.refBit = false := by simpa using href
    have ho : t.Offers k := hoffers.2 ⟨hev, href⟩
    rw [hstay (Frame.passed_eq_self fun _ => href), hlevelAt]
    by_cases hlt : s.bestLevel < levelAt level t k
    · rw [if_pos hlt]
      have hmax := h.firstMax ho hlt
      split
      next hbreak => exact .inr ⟨k, by omega, hmax, hbreak, rfl, rfl⟩
      next hbreak => exact ih ⟨rfl, .inr ⟨k, hmax, rfl, rfl⟩⟩ hbreak
    · rw [if_neg hlt, if_neg hne]
      exact ih (h.keep hok hlt) hne

end Loop

/-- What `select_victim_frame` returns, and the tables it leaves. -/
inductive Selected (level : ProcIdx → ℤ) (t : Tables) : Option FrameIdx × Tables → Prop
  | none (h : ∀ i, (t.frameTable i).evictable = false) :
    Selected level t (none, t.swept (maxFrames * 2))
  | twice (j : ℕ) (h : FirstMax t.Offers (levelAt level t) (maxFrames * 2) j)
    (hlevel : levelAt level t j ≠ 3) :
    Selected level t (some (turn t.clockHand j), t.swept (maxFrames * 2))
  | early (j : ℕ) (hj : j < maxFrames * 2) (h : FirstMax t.Offers (levelAt level t) (j + 1) j)
    (hlevel : levelAt level t j = 3) : Selected level t (some (turn t.clockHand j), t.swept (j + 1))

/-- In the second round every evictable entry is offered. -/
theorem offers_second (t : Tables) {i : FrameIdx} (h : (t.frameTable i).evictable = true) :
    t.Offers (ahead t.clockHand i + maxFrames) := by
  rw [Offers, turn_add_length, turn_ahead]
  exact ⟨h, .inr (Nat.le_add_left _ _)⟩

theorem levelAt_ahead (level : ProcIdx → ℤ) (t : Tables) (i : FrameIdx) :
    levelAt level t (ahead t.clockHand i) = ownerLevel level (t.frameTable i) := by
  rw [levelAt, turn_ahead]

theorem levelAt_second (level : ProcIdx → ℤ) (t : Tables) (i : FrameIdx) :
    levelAt level t (ahead t.clockHand i + maxFrames) = ownerLevel level (t.frameTable i) := by
  rw [levelAt, turn_add_length, turn_ahead]

theorem selectVictimFrame_selected {level : ProcIdx → ℤ} (hok : LevelsOk level) (t : Tables) :
    Selected level t (t.selectVictimFrame level) := by
  have hloop := (scanned_zero level t).scanLoop hok (by norm_num) (maxFrames * 2)
  rw [Nat.zero_add] at hloop
  unfold selectVictimFrame
  generalize Tables.scanLoop level (maxFrames * 2) ⟨t, none, -1⟩ = s at hloop
  obtain ⟨table, best, bestLevel⟩ := s
  rcases hloop with ⟨⟨htable, hchoice⟩, hne⟩ | ⟨j, hj, hmax, hlevel, hbest, htable⟩
  · simp only at htable hchoice hne
    subst htable
    rcases hchoice with ⟨rfl, -, hnone⟩ | ⟨j, hmax, rfl, rfl⟩
    · have hno : ∀ i, (t.frameTable i).evictable = false := by
        intro i
        by_contra hev
        have hlt : ahead t.clockHand i + maxFrames < maxFrames * 2 := by
          have := ahead_lt t.clockHand i
          omega
        exact hnone _ hlt (offers_second t (by simpa using hev))
      have hfind : (Fin.find? fun i => ((t.swept (maxFrames * 2)).frameTable i).used &&
          ((t.swept (maxFrames * 2)).frameTable i).userFrame) = Option.none := by
        rw [Fin.find?_eq_none_iff]
        exact fun i => ((sameEntries_swept t _).evictable i).trans (hno i)
      simp only [hfind]
      exact .none hno
    · exact .twice j hmax hne
  · simp only at hbest htable
    subst hbest htable
    exact .early j hj hmax hlevel

/-! ## Priority, then second chance -/

/-- The evictable entries whose owner's level is the highest. -/
def topLevel (level : ProcIdx → ℤ) (t : Tables) : Set FrameIdx :=
  {i | (t.frameTable i).evictable = true ∧ ∀ j, (t.frameTable j).evictable = true →
    ownerLevel level (t.frameTable j) ≤ ownerLevel level (t.frameTable i)}

/-- Of the entries `S`, the first from the hand with a clear reference bit, and the first of all if
every one is set. -/
def SecondChance (t : Tables) (S : Set FrameIdx) (i : FrameIdx) : Prop :=
  i ∈ S ∧
    (((t.frameTable i).refBit = false ∧ ∀ j ∈ S, (t.frameTable j).refBit = false →
        ahead t.clockHand i ≤ ahead t.clockHand j) ∨
      ((∀ j ∈ S, (t.frameTable j).refBit = true) ∧
        ∀ j ∈ S, ahead t.clockHand i ≤ ahead t.clockHand j))

/-- Two entries of the highest level have the same level. -/
theorem ownerLevel_eq_of_topLevel {level : ProcIdx → ℤ} {t : Tables} {i j : FrameIdx}
    (hi : i ∈ topLevel level t) (hj : j ∈ topLevel level t) :
    ownerLevel level (t.frameTable i) = ownerLevel level (t.frameTable j) :=
  le_antisymm (hj.2 i hi.1) (hi.2 j hj.1)

/-- The first offer of the highest level has its second chance behind it. -/
theorem secondChance_of_first {level : ProcIdx → ℤ} {t : Tables} {j : ℕ} (hj : j < maxFrames * 2)
    (ho : t.Offers j) (htop : turn t.clockHand j ∈ topLevel level t)
    (hfirst : ∀ i < j, t.Offers i → levelAt level t i < levelAt level t j) :
    t.SecondChance (topLevel level t) (turn t.clockHand j) := by
  have hlevel : ∀ i ∈ topLevel level t,
      ownerLevel level (t.frameTable i) = levelAt level t j :=
    fun i hi => ownerLevel_eq_of_topLevel hi htop
  -- an entry of the level with a clear bit is offered in the first round, and not before `j`
  have hclear : ∀ i ∈ topLevel level t, (t.frameTable i).refBit = false →
      j ≤ ahead t.clockHand i := by
    intro i hi hbit
    by_contra hlt
    have := hfirst _ (not_le.1 hlt) (by rw [Offers, turn_ahead]; exact ⟨hi.1, .inl hbit⟩)
    rw [levelAt_ahead, hlevel i hi] at this
    exact lt_irrefl _ this
  refine ⟨htop, ?_⟩
  rcases Nat.lt_or_ge j maxFrames with hround | hround
  · refine .inl ⟨ho.2.resolve_right (not_le.2 hround), fun i hi hbit => ?_⟩
    rw [ahead_turn_of_lt _ hround]
    exact hclear i hi hbit
  · refine .inr ⟨fun i hi => ?_, fun i hi => ?_⟩
    · by_contra hbit
      have := hclear i hi (by simpa using hbit)
      have := ahead_lt t.clockHand i
      omega
    · have hpos : ahead t.clockHand (turn t.clockHand j) = j - maxFrames := by
        rw [ahead_turn_self, Nat.mod_eq_sub_mod hround, Nat.mod_eq_of_lt (by omega)]
      rw [hpos]
      by_contra hlt
      have := hfirst _ (by omega) (offers_second t hi.1)
      rw [levelAt_second, hlevel i hi] at this
      exact lt_irrefl _ this

/-- The choice is in the highest level. -/
theorem topLevel_of_firstMax {level : ProcIdx → ℤ} {t : Tables} {j : ℕ}
    (h : FirstMax t.Offers (levelAt level t) (maxFrames * 2) j) :
    turn t.clockHand j ∈ topLevel level t := by
  refine ⟨h.offered.1, fun i hi => ?_⟩
  have hlt : ahead t.clockHand i + maxFrames < maxFrames * 2 := by
    have := ahead_lt t.clockHand i
    omega
  have := h.le _ hlt (offers_second t hi)
  rwa [levelAt_second] at this

theorem Selected.secondChance {level : ProcIdx → ℤ} (hok : LevelsOk level) {t t' : Tables}
    {i : FrameIdx} (h : Selected level t (some i, t')) :
    t.SecondChance (topLevel level t) i := by
  cases h with
  | twice j h hlevel => exact secondChance_of_first h.lt h.offered (topLevel_of_firstMax h) h.first
  | early j hj h hlevel =>
    refine secondChance_of_first hj h.offered ⟨h.offered.1, fun i _ => ?_⟩ h.first
    exact (hok.ownerLevel _).2.trans_eq hlevel.symm

theorem selectVictimFrame_secondChance {level : ProcIdx → ℤ} (hok : LevelsOk level) {t : Tables}
    {i : FrameIdx} (h : (t.selectVictimFrame level).1 = some i) :
    t.SecondChance (topLevel level t) i := by
  have hsel := selectVictimFrame_selected hok t
  generalize t.selectVictimFrame level = r at h hsel
  obtain ⟨o, t'⟩ := r
  obtain rfl : o = some i := h
  exact hsel.secondChance hok

theorem Selected.swept {level : ProcIdx → ℤ} {t : Tables} {r : Option FrameIdx × Tables}
    (h : Selected level t r) : ∃ k, r.2 = t.swept k := by
  cases h with
  | none h => exact ⟨_, rfl⟩
  | twice j h hlevel => exact ⟨_, rfl⟩
  | early j hj h hlevel => exact ⟨_, rfl⟩

/-- **The victim has the highest level, and in it the second chance.** `select_victim_frame` finds
none exactly if no entry is a user frame in use. It changes nothing but reference bits, which it
only clears, and the hand, which stays in the table. -/
theorem selectVictimFrame_priority (level : ProcIdx → ℤ) (hok : LevelsOk level) (t : Tables) :
    ((t.selectVictimFrame level).1 = none ↔ ∀ i, (t.frameTable i).evictable = false) ∧
    (∀ i, (t.selectVictimFrame level).1 = some i → t.SecondChance (topLevel level t) i) ∧
    SameEntries t (t.selectVictimFrame level).2 ∧
    (∀ i, ((t.selectVictimFrame level).2.frameTable i).refBit = true →
      (t.frameTable i).refBit = true) ∧
    ((t.selectVictimFrame level).2.clockHand : ℕ) < maxFrames := by
  have h := selectVictimFrame_selected hok t
  generalize t.selectVictimFrame level = r at h
  obtain ⟨k, hk⟩ := h.swept
  obtain ⟨o, t'⟩ := r
  simp only at hk
  refine ⟨⟨?_, ?_⟩, ?_, hk ▸ sameEntries_swept t k, fun i hbit => ?_, t'.clockHand.isLt⟩
  · rintro rfl
    cases h with
    | none h => exact h
  · intro hno
    cases o with
    | none => rfl
    | some i => exact absurd (h.secondChance hok).1.1 (by simp [hno i])
  · rintro i rfl
    exact h.secondChance hok
  · subst hk
    simp only [swept_frame] at hbit
    split at hbit
    · exact Frame.refBit_of_passed hbit
    · exact hbit

/-- A page of process 0 and two of process 1, the first of which is referenced. -/
def mixed : Tables :=
  { Tables.init with frameTable := fun i =>
      ⟨decide (i.val < 3), decide (i.val < 3),
        some (if i.val = 0 then ⟨0, nProc_pos⟩ else ⟨1, one_lt_nProc⟩), i * 4096,
        decide (i.val = 1)⟩ }

/-- With process 1 at level 2 and the others at level 0, its second page is the victim. -/
theorem selectVictimFrame_priority_mixed : ∃ i : FrameIdx, i.val = 2 ∧
    mixed.SecondChance (topLevel (fun p => if p.val = 1 then 2 else 0) mixed) i := by
  have hok : LevelsOk fun p => if p.val = 1 then 2 else 0 := fun p => by
    dsimp only
    split <;> norm_num
  refine ⟨⟨2, by decide⟩, rfl, ?_⟩
  exact (selectVictimFrame_priority _ hok mixed).2.1 _ (by decide +kernel)

/-! ## Replacing pages -/

/-- A page is evicted, and the page `va` of `p` is registered in the freed entry: the sections of
`evict_one_user_frame` and `register_user_frame` in `kalloc_user`, with the victim's entry. -/
def replacePage (level : ProcIdx → ℤ) (p : ProcIdx) (va : ℕ) (t : Tables) :
    Option (FrameIdx × Tables) :=
  match t.evictBegin level with
  | (none, _) => none
  | (some v, t) => ((t.evictPublish v).registerUserFrame p va).map fun t => (v.frame, t)

/-- What a replacement does to the frame table: the page is chosen, and its entry is taken by the
new one. -/
structure Replaced (level : ProcIdx → ℤ) (p : ProcIdx) (va : ℕ) (t : Tables) (i : FrameIdx)
    (t' : Tables) : Prop where
  selected : (t.selectVictimFrame level).1 = some i
  hand : t'.clockHand = (t.selectVictimFrame level).2.clockHand
  frame : t'.frameTable = Function.update (t.selectVictimFrame level).2.frameTable i
    ⟨true, true, some p, va, true⟩

/-- In a full table the new page goes to the victim's entry. -/
theorem replacePage_replaced {level : ProcIdx → ℤ} {p : ProcIdx} {va : ℕ} {t t' : Tables}
    {i : FrameIdx} (hfull : ∀ j, (t.frameTable j).used = true)
    (h : replacePage level p va t = some (i, t')) : Replaced level p va t i t' := by
  have hsame := (t.selectVictimFrame_spec level).1
  unfold replacePage evictBegin at h
  cases hsel : t.selectVictimFrame level with
  | mk o t₁ =>
    rw [hsel] at h hsame
    cases o with
    | none => cases h
    | some v =>
      simp only at h
      cases hres : (t₁.setFrame v ⟨(t₁.frameTable v).used, false, none, 0, false⟩).reserveSlot with
      | none =>
        rw [hres] at h
        cases h
      | some r =>
        obtain ⟨slot, t₂⟩ := r
        obtain ⟨-, rfl⟩ := reserveSlot_eq_some hres
        rw [hres] at h
        simp only [Option.map_eq_some_iff, Prod.mk.injEq] at h
        obtain ⟨t₃, hreg, rfl, rfl⟩ := h
        obtain ⟨j, hj, rfl⟩ := registerUserFrame_eq_some hreg
        have hused : ∀ j, (t₁.frameTable j).used = true := fun j => by
          have := hsame.frame j
          simp only [Frame.entry, Prod.mk.injEq] at this
          rw [this.1, hfull]
        obtain rfl : j = v := by
          by_contra hne
          simp [evictPublish, setSwap, setFrame, setSwapUsed, decCount, hne, hused] at hj
        refine ⟨by rw [hsel], by rw [hsel]; rfl, ?_⟩
        rw [hsel]
        simp [evictPublish, setSwap, setFrame, setSwapUsed, decCount]

/-- With a victim and a free slot a replacement goes through. -/
theorem exists_replacePage {level : ProcIdx → ℤ} (p : ProcIdx) (va : ℕ) {t : Tables}
    {i : FrameIdx} (hsel : (t.selectVictimFrame level).1 = some i)
    (hslot : ∃ s, t.swapUsed s = false) : ∃ t', replacePage level p va t = some (i, t') := by
  have hsame := (t.selectVictimFrame_spec level).1
  unfold replacePage evictBegin
  generalize t.selectVictimFrame level = r at hsel hsame
  obtain ⟨o, t₁⟩ := r
  obtain rfl : o = some i := hsel
  obtain ⟨⟨slot, t₂⟩, hres⟩ := exists_reserveSlot
    (t := t₁.setFrame i ⟨(t₁.frameTable i).used, false, none, 0, false⟩) (hsame.swapUsed ▸ hslot)
  obtain ⟨-, rfl⟩ := reserveSlot_eq_some hres
  simp only [hres]
  obtain ⟨t₃, hreg⟩ := exists_registerUserFrame p va (t := evictPublish
    ⟨i, (t₁.frameTable i).proc, (t₁.frameTable i).va, slot⟩ _) ⟨i, by
      simp [evictPublish, setSwap, setFrame, decCount]⟩
  exact ⟨t₃, by rw [hreg]; rfl⟩

/-! ## Runs of replacements -/

/-- The tables with another swap map. -/
def withSwaps (t : Tables) (swapUsed : SlotIdx → Bool) (swapMap : SlotIdx → SwapEntry) : Tables :=
  { t with swapUsed := swapUsed, swapMap := swapMap }

/-- A run of replacements from `t₀`, with the entries whose page is still that of the start. Between
two of them the swap map may change in any way, so that slots become free again; the owners of the
new pages are in `owners`. -/
inductive Replacing (level : ProcIdx → ℤ) (owners : Set ProcIdx) (t₀ : Tables) :
    Tables → Finset FrameIdx → Prop
  | start : Replacing level owners t₀ t₀ Finset.univ
  | next {t t' : Tables} {old : Finset FrameIdx} {i : FrameIdx} {p : ProcIdx} {va : ℕ}
    (swapUsed : SlotIdx → Bool) (swapMap : SlotIdx → SwapEntry)
    (h : Replacing level owners t₀ t old) (hp : p ∈ owners)
    (hrep : replacePage level p va (t.withSwaps swapUsed swapMap) = some (i, t')) :
    Replacing level owners t₀ t' (old.erase i)

/-- No new page is selected while a page of the start is still there. -/
def AdvancesPast (level : ProcIdx → ℤ) (owners : Set ProcIdx) (t₀ : Tables) : Prop :=
  ∀ t old, Replacing level owners t₀ t old → old.Nonempty →
    ∀ i, (t.selectVictimFrame level).1 = some i → i ∈ old

/-- Every entry is a page of a process at level `l`. -/
def FullAt (level : ProcIdx → ℤ) (l : ℤ) (t : Tables) : Prop :=
  ∀ i, (t.frameTable i).evictable = true ∧ ∃ p, (t.frameTable i).proc = some p ∧ level p = l

/-- The old pages are at level 3, and come first: an old page whose reference bit is set is ahead of
every new one, and so is every old one of a new page whose reference bit is clear. -/
structure OldFirst (level : ProcIdx → ℤ) (t : Tables) (old : Finset FrameIdx) : Prop where
  full : ∀ i, (t.frameTable i).evictable = true
  level : ∀ i ∈ old, ownerLevel level (t.frameTable i) = 3
  clear : ∀ n ∉ old, ∀ i ∈ old, (t.frameTable n).refBit = false →
    (t.frameTable i).refBit = false ∧ ahead t.clockHand i < ahead t.clockHand n
  set : ∀ n ∉ old, ∀ i ∈ old, (t.frameTable n).refBit = true →
    (t.frameTable i).refBit = false ∨ ahead t.clockHand i < ahead t.clockHand n

section Level3

variable {level : ProcIdx → ℤ} {t t' : Tables} {old : Finset FrameIdx} {i : FrameIdx}

theorem OldFirst.mem_topLevel (hok : LevelsOk level) (h : OldFirst level t old) (hi : i ∈ old) :
    i ∈ topLevel level t :=
  ⟨h.full i, fun _ _ => (hok.ownerLevel _).2.trans_eq (h.level i hi).symm⟩

/-- An old page is chosen. -/
theorem OldFirst.mem_old (hok : LevelsOk level) (h : OldFirst level t old) (hne : old.Nonempty)
    (hsel : t.SecondChance (topLevel level t) i) : i ∈ old := by
  obtain ⟨x, hx⟩ := hne
  have hxtop := h.mem_topLevel hok hx
  by_contra hi
  rcases hsel.2 with ⟨hbit, hfirst⟩ | ⟨hset, hfirst⟩
  · obtain ⟨hxbit, hlt⟩ := h.clear i hi x hx hbit
    exact absurd (hfirst x hxtop hxbit) (not_le.2 hlt)
  · rcases h.set i hi x hx (hset i hsel.1) with hxbit | hlt
    · exact absurd (hset x hxtop) (by simp [hxbit])
    · exact absurd (hfirst x hxtop) (not_le.2 hlt)

/-- The scan stops right behind its choice, and has cleared the bits up to it, or all of them. -/
theorem Selected.at_level3 {r : Option FrameIdx × Tables} (h : Selected level t r)
    (hi : r.1 = some i) (hlevel : ownerLevel level (t.frameTable i) = 3) :
    r.2.clockHand = turn t.clockHand (ahead t.clockHand i + 1) ∧
      (((t.frameTable i).refBit = false ∧
          r.2.frameTable = (t.swept (ahead t.clockHand i + 1)).frameTable) ∨
        ((t.frameTable i).refBit = true ∧ r.2.frameTable = fun j => (t.frameTable j).passed)) := by
  cases h with
  | none h => cases hi
  | twice j h hne =>
    obtain rfl := Option.some.inj hi
    exact absurd hlevel hne
  | early j hj h _ =>
    obtain rfl := Option.some.inj hi
    rcases Nat.lt_or_ge j maxFrames with hround | hround
    · have ho := h.offered.2.resolve_right (not_le.2 hround)
      rw [ahead_turn_of_lt _ hround]
      exact ⟨rfl, .inl ⟨ho, rfl⟩⟩
    · -- in the second round, so the entry was passed over in the first
      obtain ⟨k, rfl⟩ := Nat.exists_eq_add_of_le' hround
      have hk : k < maxFrames := by omega
      have hbit : (t.frameTable (turn t.clockHand k)).refBit = true := by
        by_contra hbit
        have ho : t.Offers k :=
          ⟨by simpa [turn_add_length] using h.offered.1, .inl (by simpa using hbit)⟩
        have hlt := h.first k (by omega) ho
        simp only [levelAt, turn_add_length] at hlt
        exact lt_irrefl _ hlt
      rw [turn_add_length, ahead_turn_of_lt _ hk]
      refine ⟨?_, .inr ⟨hbit, ?_⟩⟩
      · change turn t.clockHand (k + maxFrames + 1) = _
        rw [Nat.add_right_comm, turn_add_length]
      · funext j
        have hj := ahead_lt t.clockHand j
        rw [swept_frame, if_pos (by omega)]

/-- The reference bits after a selection at level 3. -/
theorem OldFirst.refBit (h : OldFirst level t old) {f : FrameIdx → Frame}
    (hf : ((t.frameTable i).refBit = false ∧
        f = (t.swept (ahead t.clockHand i + 1)).frameTable) ∨
      ((t.frameTable i).refBit = true ∧ f = fun j => (t.frameTable j).passed)) (j : FrameIdx) :
    (f j).refBit = if (t.frameTable i).refBit = true ∨ ahead t.clockHand j < ahead t.clockHand i + 1
      then false else (t.frameTable j).refBit := by
  rcases hf with ⟨hbit, rfl⟩ | ⟨hbit, rfl⟩
  · simp only [swept_frame, hbit, Bool.false_eq_true, false_or]
    split
    · exact Frame.refBit_passed (h.full j)
    · rfl
  · rw [if_pos (.inl hbit)]
    exact Frame.refBit_passed (h.full j)

/-- **A replacement keeps the old pages first.** The victim is an old page, and the hand moves past
it: what it passed is behind everything else, and the new page is the last of all. -/
theorem OldFirst.replaced (hok : LevelsOk level) (h : OldFirst level t old) {p : ProcIdx} {va : ℕ}
    (hi : i ∈ old) (hrep : Replaced level p va t i t') : OldFirst level t' (old.erase i) := by
  have hsel := selectVictimFrame_selected hok t
  obtain ⟨hrep, hhand', hframe'⟩ := hrep
  generalize t.selectVictimFrame level = r at hsel hrep hhand' hframe'
  obtain ⟨o, t₁⟩ := r
  obtain rfl : o = some i := hrep
  obtain ⟨-, hchance⟩ := hsel.secondChance hok
  obtain ⟨k, hk⟩ := hsel.swept
  obtain ⟨hhand, hbits⟩ := hsel.at_level3 rfl (h.level i hi)
  have hbit := h.refBit hbits
  simp only at hk hhand hhand' hframe' hbit
  have hsame : SameEntries t t₁ := hk ▸ sameEntries_swept t k
  -- the other entries
  have hother : ∀ j ≠ i, t'.frameTable j = t₁.frameTable j := fun j hj => by
    rw [hframe', Function.update_of_ne hj]
  have hself : t'.frameTable i = ⟨true, true, some p, va, true⟩ := by
    rw [hframe', Function.update_self]
  have hlt := ahead_lt t.clockHand
  have hahead : ∀ j, ahead t'.clockHand j =
      if ahead t.clockHand j < ahead t.clockHand i + 1
      then ahead t.clockHand j + maxFrames - (ahead t.clockHand i + 1)
      else ahead t.clockHand j - (ahead t.clockHand i + 1) := fun j => by
    rw [hhand', hhand, ahead_turn _ _ (hlt i)]
  have hinj : ∀ j ≠ i, ahead t.clockHand j ≠ ahead t.clockHand i := fun j hj he =>
    hj (ahead_inj.1 he)
  -- the chosen page against an old one
  have hfirst : ∀ x ∈ old, ((t.frameTable i).refBit = false → (t.frameTable x).refBit = false →
        ahead t.clockHand i ≤ ahead t.clockHand x) ∧
      ((t.frameTable i).refBit = true → (t.frameTable x).refBit = true ∧
        ahead t.clockHand i ≤ ahead t.clockHand x) := by
    intro x hx
    have hxtop := h.mem_topLevel hok hx
    rcases hchance with ⟨hib, hle⟩ | ⟨hset, hle⟩
    · exact ⟨fun _ hxb => hle x hxtop hxb, by simp [hib]⟩
    · exact ⟨by simp [hset i (h.mem_topLevel hok hi)], fun _ => ⟨hset x hxtop, hle x hxtop⟩⟩
  refine ⟨fun j => ?_, fun j hj => ?_, fun n hn x hx hclear => ?_, fun n hn x hx hset => ?_⟩
  · by_cases hj : j = i
    · rw [hj, hself]
      rfl
    · rw [hother j hj, hsame.evictable]
      exact h.full j
  · obtain ⟨hj, hjold⟩ := Finset.mem_erase.1 hj
    rw [hother j hj, hk, swept_frame]
    split
    · rw [ownerLevel_passed]
      exact h.level j hjold
    · exact h.level j hjold
  · obtain ⟨hxi, hxold⟩ := Finset.mem_erase.1 hx
    have hni : n ≠ i := by
      rintro rfl
      rw [hself] at hclear
      cases hclear
    have hnold : n ∉ old := fun hmem => hn (Finset.mem_erase.2 ⟨hni, hmem⟩)
    have := hinj x hxi
    have := hinj n hni
    have := hfirst x hxold
    have := h.clear n hnold i hi
    have := h.clear n hnold x hxold
    have := h.set n hnold i hi
    have := h.set n hnold x hxold
    rw [hother n hni, hbit] at hclear
    rw [hother x hxi, hbit, hahead, hahead]
    have := hlt x
    grind
  · obtain ⟨hxi, hxold⟩ := Finset.mem_erase.1 hx
    have := hinj x hxi
    have := hlt x
    have := hlt i
    rw [hother x hxi, hbit, hahead, hahead]
    by_cases hni : n = i
    · subst hni
      right
      rw [if_pos (Nat.lt_succ_self _)]
      split <;> omega
    · have hnold : n ∉ old := fun hmem => hn (Finset.mem_erase.2 ⟨hni, hmem⟩)
      have := h.set n hnold x hxold
      rw [hother n hni, hbit] at hset
      grind

/-- The invariant holds in a whole run, as long as an old page is left. -/
theorem OldFirst.of_replacing (hok : LevelsOk level) {owners : Set ProcIdx} {t₀ : Tables}
    (hfull : FullAt level 3 t₀) (h : Replacing level owners t₀ t old) (hne : old.Nonempty) :
    OldFirst level t old := by
  induction h with
  | start =>
    refine ⟨fun i => (hfull i).1, fun i _ => ?_, by simp, by simp⟩
    obtain ⟨p, hp, hlevel⟩ := (hfull i).2
    rw [ownerLevel, hp]
    exact hlevel
  | @next t t' old i p va swapUsed swapMap h hp hrep ih =>
    have hne' := hne.mono (Finset.erase_subset i old)
    have hold := ih hne'
    -- the swap map does not matter
    have hold' : OldFirst level (t.withSwaps swapUsed swapMap) old :=
      ⟨hold.full, hold.level, hold.clear, hold.set⟩
    have hrep' := replacePage_replaced (fun j => Frame.used_of_evictable (hold'.full j)) hrep
    have hchance := selectVictimFrame_secondChance hok hrep'.selected
    exact hold'.replaced hok (hold'.mem_old hok hne' hchance) hrep'

end Level3

/-! ## Below level 3 -/

section Below3

variable {level : ProcIdx → ℤ} {l : ℤ} {t t' : Tables} {i x : FrameIdx}

theorem FullAt.ownerLevel (h : FullAt level l t) (i : FrameIdx) :
    ownerLevel level (t.frameTable i) = l := by
  obtain ⟨p, hp, hlevel⟩ := (h i).2
  rw [Tables.ownerLevel, hp]
  exact hlevel

theorem FullAt.mem_topLevel (h : FullAt level l t) (i : FrameIdx) : i ∈ topLevel level t :=
  ⟨(h i).1, fun j _ => by rw [h.ownerLevel, h.ownerLevel]⟩

/-- Below level 3 a selection goes round twice: the hand ends where it was, and every reference bit
is clear. -/
theorem FullAt.select (hok : LevelsOk level) (hl : l ≠ 3) (h : FullAt level l t) :
    (t.selectVictimFrame level).2.clockHand = t.clockHand ∧
      (t.selectVictimFrame level).2.frameTable = (fun j => (t.frameTable j).passed) ∧
      ∃ i, (t.selectVictimFrame level).1 = some i := by
  have hsel := selectVictimFrame_selected hok t
  generalize t.selectVictimFrame level = r at hsel
  cases hsel with
  | none hno => exact absurd (h t.clockHand).1 (by simp [hno])
  | early j hj hmax hlevel => exact absurd ((h.ownerLevel _).symm.trans hlevel) hl
  | twice j hmax hne =>
    refine ⟨?_, ?_, _, rfl⟩
    · change turn t.clockHand (maxFrames * 2) = t.clockHand
      rw [mul_two, turn_add_length]
      exact (turn_add_length t.clockHand 0).trans (turn_zero _)
    · funext j
      have hj := ahead_lt t.clockHand j
      rw [swept_frame, if_pos (by omega)]

/-- Only the entry `x` has its reference bit set. -/
structure OnlySet (level : ProcIdx → ℤ) (l : ℤ) (hand : FrameIdx) (t : Tables) (x : FrameIdx) :
    Prop where
  full : FullAt level l t
  hand : t.clockHand = hand
  refBit : ∀ j, (t.frameTable j).refBit = true ↔ j = x

/-- After a replacement only the new page has its reference bit set. -/
theorem FullAt.replaced (hok : LevelsOk level) (hl : l ≠ 3) (h : FullAt level l t) {p : ProcIdx}
    {va : ℕ} (hp : level p = l) (hrep : Replaced level p va t i t') :
    OnlySet level l t.clockHand t' i := by
  obtain ⟨hhand, hframe, -⟩ := h.select hok hl
  have hself : t'.frameTable i = ⟨true, true, some p, va, true⟩ := by
    rw [hrep.frame, Function.update_self]
  have hother : ∀ j ≠ i, t'.frameTable j = (t.frameTable j).passed := fun j hj => by
    rw [hrep.frame, Function.update_of_ne hj, hframe]
  refine ⟨fun j => ?_, hrep.hand.trans hhand, fun j => ?_⟩
  · by_cases hj : j = i
    · rw [hj, hself]
      exact ⟨rfl, p, rfl, hp⟩
    · have hentry := (t.frameTable j).entry_passed
      simp only [Frame.entry, Prod.mk.injEq] at hentry
      rw [hother j hj, Frame.evictable_passed, hentry.2.2.1]
      exact h j
  · by_cases hj : j = i
    · rw [hj, hself]
      simp
    · rw [hother j hj, Frame.refBit_passed (h j).1]
      simp [hj]

/-- The victim if only the bit of `x` is set: the entry at the hand, or the one behind it. -/
def afterSet (hand x : FrameIdx) : FrameIdx := if x = hand then turn hand 1 else hand

theorem turn_one_ne (hand : FrameIdx) : turn hand 1 ≠ hand := by
  intro h
  have h1 : ahead hand (turn hand 1) = 1 := ahead_turn_of_lt hand (by decide)
  have h0 : ahead hand (turn hand 0) = 0 := ahead_turn_of_lt hand (by decide)
  rw [turn_zero] at h0
  rw [h, h0] at h1
  cases h1

theorem OnlySet.eq_afterSet {hand : FrameIdx} (h : OnlySet level l hand t x)
    (hi : t.SecondChance (topLevel level t) i) : i = afterSet hand x := by
  obtain ⟨-, hchance⟩ := hi
  have hclear : ∀ j ≠ x, (t.frameTable j).refBit = false := fun j hj => by
    simpa using mt (h.refBit j).1 hj
  have hne := turn_one_ne hand
  rw [h.hand] at hchance
  rcases hchance with ⟨hbit, hfirst⟩ | ⟨hset, -⟩
  · have hix : i ≠ x := fun he => by simp [(h.refBit i).2 he] at hbit
    unfold afterSet
    split
    next hx =>
      subst hx
      have hle := hfirst _ (h.full.mem_topLevel _) (hclear _ hne)
      rw [ahead_turn_of_lt x (by decide : 1 < maxFrames)] at hle
      have hpos : ahead x i ≠ 0 := fun h0 =>
        hix (((ahead_eq_iff x i (by decide)).1 h0).trans (turn_zero x))
      exact (ahead_eq_iff x i (by decide)).1 (by omega)
    next hx =>
      have hle := hfirst (turn hand 0) (h.full.mem_topLevel _)
        (hclear _ (by rw [turn_zero]; exact Ne.symm hx))
      rw [ahead_turn_of_lt hand (by decide : 0 < maxFrames)] at hle
      exact ((ahead_eq_iff hand i (by decide)).1 (Nat.le_zero.1 hle)).trans (turn_zero hand)
  · have h0 := (h.refBit hand).1 (hset _ (h.full.mem_topLevel _))
    have h1 := (h.refBit _).1 (hset _ (h.full.mem_topLevel (turn hand 1)))
    exact absurd (h1.trans h0.symm) hne

/-- The two entries take turns. -/
theorem afterSet_afterSet (hand x : FrameIdx) :
    afterSet hand (afterSet hand (afterSet hand x)) = afterSet hand x := by
  have hne := turn_one_ne hand
  unfold afterSet
  by_cases hx : x = hand
  · simp [hx, hne]
  · simp [hx, hne]

/-- A run goes on with the page that has had its second chance. -/
theorem FullAt.replacing (hok : LevelsOk level) (hl : l ≠ 3) (h : FullAt level l t) {p : ProcIdx}
    (hp : level p = l) {owners : Set ProcIdx} (howner : p ∈ owners) {t₀ : Tables}
    {old : Finset FrameIdx} (hrun : Replacing level owners t₀ t old) :
    ∃ i t', t.SecondChance (topLevel level t) i ∧ Replacing level owners t₀ t' (old.erase i) ∧
      OnlySet level l t.clockHand t' i := by
  have hu : FullAt level l (t.withSwaps (fun _ => false) t.swapMap) := h
  obtain ⟨-, -, i, hi⟩ := hu.select hok hl
  obtain ⟨t', hrep⟩ := exists_replacePage p 0 hi ⟨⟨0, maxSwapPages_pos⟩, rfl⟩
  have hset := hu.replaced hok hl hp
    (replacePage_replaced (fun j => Frame.used_of_evictable (hu j).1) hrep)
  have hchance := selectVictimFrame_secondChance hok hi
  exact ⟨i, t', hchance, .next _ _ hrun howner hrep, hset⟩

/-- Below level 3 the fourth victim is a page of the run. -/
theorem FullAt.not_advancesPast (hok : LevelsOk level) (hl : l ≠ 3) (h : FullAt level l t)
    {owners : Set ProcIdx} (howner : ∀ p, level p = l → p ∈ owners) :
    ¬ AdvancesPast level owners t := by
  intro hadv
  obtain ⟨p, -, hp⟩ := (h t.clockHand).2
  obtain ⟨i₁, t₁, -, hrun₁, h₁⟩ := h.replacing hok hl hp (howner p hp) .start
  obtain ⟨i₂, t₂, hc₂, hrun₂, h₂⟩ := h₁.full.replacing hok hl hp (howner p hp) hrun₁
  obtain ⟨i₃, t₃, hc₃, hrun₃, h₃⟩ := h₂.full.replacing hok hl hp (howner p hp) hrun₂
  rw [h₁.hand] at h₂
  rw [h₂.hand] at h₃
  obtain ⟨-, -, i₄, hi₄⟩ := h₃.full.select hok hl
  have he₂ : i₂ = afterSet t.clockHand i₁ := h₁.eq_afterSet hc₂
  have he₃ : i₃ = afterSet t.clockHand i₂ := h₂.eq_afterSet hc₃
  have he₄ : i₄ = i₂ := by
    rw [h₃.eq_afterSet (selectVictimFrame_secondChance hok hi₄), he₃, he₂, afterSet_afterSet]
  have hleft : (((Finset.univ.erase i₁).erase i₂).erase i₃).Nonempty := by
    have hcard : (Finset.univ : Finset FrameIdx).card = 20 := Finset.card_fin maxFrames
    have hle₁ := Finset.pred_card_le_card_erase (s := (Finset.univ : Finset FrameIdx)) (a := i₁)
    have hle₂ := Finset.pred_card_le_card_erase (s := Finset.univ.erase i₁) (a := i₂)
    have hle₃ := Finset.pred_card_le_card_erase (s := (Finset.univ.erase i₁).erase i₂) (a := i₃)
    exact Finset.card_pos.1 (by omega)
  have hmem := hadv t₃ _ hrun₃ hleft i₄ hi₄
  simp [he₄] at hmem

end Below3

/-- **The clock advances past its victims exactly at level 3.** With all pages of a full table at
one level, the pages of the start are evicted before any page of the run, in every run, if that
level is 3; below it some run evicts a new page while old ones are left. The new pages may belong to
any processes at level 3, and the failing run needs only processes of the level. -/
theorem clock_advances_iff (level : ProcIdx → ℤ) (hok : LevelsOk level) (l : ℤ) (t : Tables)
    (hfull : FullAt level l t) (owners : Set ProcIdx) (howner : ∀ p, level p = l → p ∈ owners) :
    AdvancesPast level owners t ↔ l = 3 := by
  constructor
  · intro hadv
    by_contra hl
    exact hfull.not_advancesPast hok hl howner hadv
  · rintro rfl t' old hrun hne i hi
    exact (OldFirst.of_replacing hok hfull hrun hne).mem_old hok hne
      (selectVictimFrame_secondChance hok hi)

/-- Twenty pages of process 0, all referenced. -/
def crowded : Tables :=
  { Tables.init with
    frameTable := fun i => ⟨true, true, some ⟨0, nProc_pos⟩, i * 4096, true⟩
    userFrameCount := maxFrames }

theorem crowded_fullAt (l : ℤ) : FullAt (fun _ => l) l crowded := fun _ => ⟨rfl, _, rfl, rfl⟩

theorem clock_advances_crowded :
    FullAt (fun _ => 3) 3 crowded ∧ AdvancesPast (fun _ => 3) Set.univ crowded :=
  ⟨crowded_fullAt 3, (clock_advances_iff _ (fun _ => by norm_num) 3 crowded (crowded_fullAt 3) _
    fun _ _ => Set.mem_univ _).2 rfl⟩

/-- At level 0 a new page is a victim while old ones are left. -/
theorem clock_stays_crowded :
    FullAt (fun _ => 0) 0 crowded ∧ ¬ AdvancesPast (fun _ => 0) Set.univ crowded :=
  ⟨crowded_fullAt 0, (crowded_fullAt 0).not_advancesPast (fun _ => by norm_num) (by norm_num)
    fun _ _ => Set.mem_univ _⟩

end Tables

end Xv6Swap.Paging
