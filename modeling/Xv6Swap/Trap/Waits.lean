import Mathlib.Tactic
import Mathlib.Data.List.Count

/-!
# Timed waits

`sys_sleep` and `sys_pause` of `kernel/sysproc.c`. Both wait in a loop for the 32-bit counter
`ticks` to advance by `n`, asleep between two checks; they differ in that `sys_pause` first replaces
a negative `n` by 0. The difference of two counter values is unsigned, and so the comparison
converts `n` to an unsigned number.

A run is a list of events: a tick, or the process runs again after a wakeup, whatever woke it up,
and checks the counter. `timedWaits_agree_iff`: if the process is not killed and there are fewer
than `2 ^ 32` ticks, the two calls return at the same point, the first check at which `n` ticks have
passed, exactly if `n` is not negative.
-/

namespace Xv6Swap.Trap

/-! ## The two calls -/

/-- A timed wait: asleep in the loop, or returned. -/
inductive Wait
  | asleep (n : Int32) (ticks0 : UInt32)
  | returned (value : UInt64)
  deriving DecidableEq

/-- The loop, from one check to the next or to the return. -/
def waitLoop (killed : Bool) (n : Int32) (ticks0 ticks : UInt32) : Wait :=
  if ticks - ticks0 < n.toUInt32 then
    if killed then .returned (-1) else .asleep n ticks0
  else .returned 0

def sysSleep (killed : Bool) (n : Int32) (ticks : UInt32) : Wait := waitLoop killed n ticks ticks

def sysPause (killed : Bool) (n : Int32) (ticks : UInt32) : Wait :=
  let n := if n < 0 then 0 else n
  waitLoop killed n ticks ticks

/-- A tick, or the process runs after a wakeup and finds itself killed or not. -/
inductive WaitEvent
  | tick
  | resume (killed : Bool)
  deriving DecidableEq

/-- The process and the counter after an event. -/
def waitStep : Wait × UInt32 → WaitEvent → Wait × UInt32
  | (w, ticks), .tick => (w, ticks + 1)
  | (.asleep n ticks0, ticks), .resume killed => (waitLoop killed n ticks0 ticks, ticks)
  | (.returned value, ticks), .resume _ => (.returned value, ticks)

/-- The process and the counter after the first `i` events of a run that starts with the call. -/
def waitAfter (call : Bool → Int32 → UInt32 → Wait) (n : Int32) (ticks : UInt32)
    (es : List WaitEvent) (i : ℕ) : Wait × UInt32 :=
  (es.take i).foldl waitStep (call false n ticks, ticks)

/-- The call returns 0 at the point after the first `i` events. -/
def ReturnsAt (call : Bool → Int32 → UInt32 → Wait) (n : Int32) (ticks : UInt32)
    (es : List WaitEvent) (i : ℕ) : Prop :=
  i ≤ es.length ∧ (waitAfter call n ticks es i).1 = .returned 0 ∧
    ∀ j < i, (waitAfter call n ticks es j).1 ≠ .returned 0

/-! ## The first check -/

/-- The process checks the counter at this point: on entry, and when it runs after a wakeup. -/
def IsCheck (es : List WaitEvent) (i : ℕ) : Prop :=
  i = 0 ∨ ∃ j killed, i = j + 1 ∧ es[j]? = some (.resume killed)

def elapsed (es : List WaitEvent) (i : ℕ) : ℕ := (es.take i).count .tick

/-- A check at which at least `m` ticks have passed. -/
def Expired (m : ℤ) (es : List WaitEvent) (i : ℕ) : Prop := IsCheck es i ∧ m ≤ elapsed es i

/-- The first check at which at least `max n 0` ticks have passed. -/
def FirstCheck (n : Int32) (es : List WaitEvent) (i : ℕ) : Prop :=
  i ≤ es.length ∧ Expired (max n.toInt 0) es i ∧ ∀ j < i, ¬ Expired (max n.toInt 0) es j

/-- Both calls return 0 at the first check at which the time has passed. -/
def WaitsAgree (n : Int32) (ticks : UInt32) (es : List WaitEvent) : Prop :=
  ∀ i, (ReturnsAt sysSleep n ticks es i ↔ FirstCheck n es i) ∧
    (ReturnsAt sysPause n ticks es i ↔ FirstCheck n es i)

/-! ## The loop -/

theorem toNat_toUInt32_of_nonneg {n : Int32} (hn : 0 ≤ n.toInt) :
    (n.toUInt32.toNat : ℤ) = n.toInt := by
  have h := BitVec.toInt_eq_toNat_cond n.toBitVec
  have hlt := n.toBitVec.isLt
  have hn' : 0 ≤ n.toBitVec.toInt := hn
  change (n.toBitVec.toNat : ℤ) = n.toBitVec.toInt
  split at h <;> omega

/-- The comparison of the loop after `k` ticks, whether or not the counter has wrapped around. -/
theorem sub_lt_iff {n : Int32} (hn : 0 ≤ n.toInt) (ticks : UInt32) {k : ℕ} (hk : k < 2 ^ 32) :
    ticks + UInt32.ofNat k - ticks < n.toUInt32 ↔ (k : ℤ) < n.toInt := by
  have hsub : ticks + UInt32.ofNat k - ticks = UInt32.ofNat k := by
    rw [UInt32.add_comm, UInt32.add_sub_cancel]
  rw [hsub, UInt32.lt_iff_toNat_lt, UInt32.toNat_ofNat_of_lt' hk, ← toNat_toUInt32_of_nonneg hn,
    Nat.cast_lt]

theorem elapsed_le_count (es : List WaitEvent) (i : ℕ) : elapsed es i ≤ es.count .tick :=
  (List.take_sublist i es).count_le _

theorem exists_le_succ {P : ℕ → Prop} {i : ℕ} :
    (∃ j ≤ i + 1, P j) ↔ (∃ j ≤ i, P j) ∨ P (i + 1) := by
  constructor
  · rintro ⟨j, hj, hp⟩
    rcases Nat.le_succ_iff.1 hj with hj | rfl
    · exact .inl ⟨j, hj, hp⟩
    · exact .inr hp
  · rintro (⟨j, hj, hp⟩ | hp)
    · exact ⟨j, hj.trans (Nat.le_succ i), hp⟩
    · exact ⟨i + 1, le_rfl, hp⟩

section Loop

variable {n : Int32} {ticks : UInt32} {es : List WaitEvent}

/-- The wait after `i` events of a run: over if some check found that the time had passed, and
asleep with its arguments if none did. -/
structure WaitsFor (n : Int32) (ticks : UInt32) (es : List WaitEvent) (i : ℕ)
    (w : Wait × UInt32) : Prop where
  expired : (∃ j ≤ i, Expired n.toInt es j) → w.1 = .returned 0
  asleep : (¬ ∃ j ≤ i, Expired n.toInt es j) → w.1 = .asleep n ticks
  counter : w.2 = ticks + UInt32.ofNat (elapsed es i)

/-- A check of the loop after `k` ticks. -/
theorem waitLoop_eq (ticks : UInt32) (hn : 0 ≤ n.toInt) {k : ℕ} (hk : k < 2 ^ 32) :
    waitLoop false n ticks (ticks + UInt32.ofNat k) =
      if n.toInt ≤ k then .returned 0 else .asleep n ticks := by
  have hlt := sub_lt_iff hn ticks hk
  unfold waitLoop
  by_cases h : n.toInt ≤ k
  · rw [if_neg (by rw [hlt]; omega), if_pos h]
  · rw [if_pos (by rw [hlt]; omega), if_neg h, if_neg (by decide)]

theorem waitsFor_zero (hn : 0 ≤ n.toInt) :
    WaitsFor n ticks es 0 (waitLoop false n ticks ticks, ticks) := by
  have hloop : waitLoop false n ticks ticks =
      if n.toInt ≤ (0 : ℕ) then .returned 0 else .asleep n ticks := by
    simpa using waitLoop_eq ticks hn (Nat.two_pow_pos 32)
  have hexp : (∃ j ≤ 0, Expired n.toInt es j) ↔ n.toInt ≤ (0 : ℕ) := by
    simp [Expired, IsCheck, elapsed]
  refine ⟨fun h => ?_, fun h => ?_, by simp [elapsed]⟩
  · rw [hloop, if_pos (hexp.1 h)]
  · rw [hloop, if_neg (mt hexp.2 h)]

/-- **One event keeps the invariant**: only a check can end the wait, and it ends it exactly if the
time has passed. -/
theorem WaitsFor.step (hn : 0 ≤ n.toInt) (hfew : es.count .tick < 2 ^ 32) {i : ℕ} {e : WaitEvent}
    (he : es[i]? = some e) (hkill : e ≠ .resume true) {w : Wait × UInt32}
    (h : WaitsFor n ticks es i w) : WaitsFor n ticks es (i + 1) (waitStep w e) := by
  obtain ⟨w, now⟩ := w
  have htake : es.take (i + 1) = es.take i ++ [e] := by rw [List.take_add_one, he]; rfl
  rcases e with _ | _ | _
  · -- a tick moves the counter and is not a check
    have hel : elapsed es (i + 1) = elapsed es i + 1 := by simp [elapsed, htake]
    have hexp : (∃ j ≤ i + 1, Expired n.toInt es j) ↔ ∃ j ≤ i, Expired n.toInt es j := by
      rw [exists_le_succ, or_iff_left]
      rintro ⟨hc | ⟨j, killed, hj, hget⟩, -⟩
      · omega
      · obtain rfl : i = j := by omega
        rw [he] at hget
        cases hget
    refine ⟨fun hx => h.expired (hexp.1 hx), fun hx => h.asleep (mt hexp.2 hx), ?_⟩
    have hc : now = ticks + UInt32.ofNat (elapsed es i) := h.counter
    simp only [waitStep, hel, hc, UInt32.ofNat_add, UInt32.add_assoc]
    rfl
  · -- the process checks again
    have hel : elapsed es (i + 1) = elapsed es i := by simp [elapsed, htake]
    have hc : now = ticks + UInt32.ofNat (elapsed es i) := h.counter
    have hcheck : Expired n.toInt es (i + 1) ↔ n.toInt ≤ elapsed es i := by
      simp [Expired, IsCheck, he, hel]
    by_cases hover : ∃ j ≤ i, Expired n.toInt es j
    · obtain rfl : w = .returned 0 := h.expired hover
      refine ⟨fun _ => rfl, fun hx => ?_, by rw [hel]; exact hc⟩
      exact absurd (exists_le_succ.2 (.inl hover)) hx
    · obtain rfl : w = .asleep n ticks := h.asleep hover
      have hloop := waitLoop_eq ticks hn ((elapsed_le_count es i).trans_lt hfew)
      rw [← hc] at hloop
      rw [← or_iff_right (b := Expired n.toInt es (i + 1)) hover, ← exists_le_succ] at hcheck
      refine ⟨fun hx => ?_, fun hx => ?_, by rw [hel]; exact hc⟩
      · exact hloop.trans (if_pos (hcheck.1 hx))
      · exact hloop.trans (if_neg (mt hcheck.2 hx))
  · exact absurd rfl hkill

/-- The invariant along a whole run, for a call that enters the loop with `n`. -/
theorem waitsFor_waitAfter (hn : 0 ≤ n.toInt) (hfew : es.count .tick < 2 ^ 32)
    (hkill : ∀ e ∈ es, e ≠ .resume true) {i : ℕ} (hi : i ≤ es.length) :
    WaitsFor n ticks es i ((es.take i).foldl waitStep (waitLoop false n ticks ticks, ticks)) := by
  induction i with
  | zero => exact waitsFor_zero hn
  | succ i ih =>
    have he : es[i]? = some es[i] := List.getElem?_eq_getElem hi
    have htake : es.take (i + 1) = es.take i ++ [es[i]] := by rw [List.take_add_one, he]; rfl
    rw [htake, List.foldl_append]
    exact (ih (Nat.le_of_succ_le hi)).step hn hfew he (hkill _ (List.getElem_mem hi))

/-- The loop returns exactly at the first check at which the time has passed. -/
theorem returnsAt_iff {call : Bool → Int32 → UInt32 → Wait} {m : Int32}
    (hcall : call false n ticks = waitLoop false m ticks ticks) (hm : m.toInt = max n.toInt 0)
    (hfew : es.count .tick < 2 ^ 32) (hkill : ∀ e ∈ es, e ≠ .resume true) (i : ℕ) :
    ReturnsAt call n ticks es i ↔ FirstCheck n es i := by
  have hm0 : 0 ≤ m.toInt := hm ▸ le_max_right _ _
  have hafter : ∀ j ≤ es.length, (waitAfter call n ticks es j).1 = .returned 0 ↔
      ∃ l ≤ j, Expired m.toInt es l := by
    intro j hj
    have h : WaitsFor m ticks es j (waitAfter call n ticks es j) := by
      rw [waitAfter, hcall]
      exact waitsFor_waitAfter hm0 hfew hkill hj
    refine ⟨fun hr => ?_, h.expired⟩
    by_contra hx
    exact Wait.noConfusion (hr.symm.trans (h.asleep hx))
  unfold ReturnsAt FirstCheck
  rw [← hm]
  refine and_congr_right fun hi => ?_
  rw [hafter i hi]
  constructor
  · rintro ⟨⟨l, hl, hx⟩, hfirst⟩
    have hnone : ∀ j < i, ¬ Expired m.toInt es j := fun j hj hxj =>
      hfirst j hj ((hafter j (hj.le.trans hi)).2 ⟨j, le_rfl, hxj⟩)
    obtain rfl : l = i := hl.eq_of_not_lt fun hlt => hnone l hlt hx
    exact ⟨hx, hnone⟩
  · rintro ⟨hx, hnone⟩
    refine ⟨⟨i, le_rfl, hx⟩, fun j hj hr => ?_⟩
    obtain ⟨l, hl, hxl⟩ := (hafter j (hj.le.trans hi)).1 hr
    exact hnone l (hl.trans_lt hj) hxl

end Loop

/-! ## The two calls compared -/

theorem sysPause_eq (n : Int32) (ticks : UInt32) :
    ∃ m : Int32, m.toInt = max n.toInt 0 ∧
      sysPause false n ticks = waitLoop false m ticks ticks := by
  refine ⟨if n < 0 then 0 else n, ?_, rfl⟩
  have h0 : (0 : Int32).toInt = 0 := by decide
  split
  next h =>
    rw [Int32.lt_iff_toInt_lt, h0] at h
    rw [h0, max_eq_right h.le]
  next h =>
    rw [Int32.lt_iff_toInt_lt, h0] at h
    rw [max_eq_left (not_lt.1 h)]

/-- Converted to an unsigned number, a negative `n` is a long time. -/
theorem sysSleep_of_neg {n : Int32} (hn : n.toInt < 0) (ticks : UInt32) :
    sysSleep false n ticks = .asleep n ticks := by
  have hlt : ticks - ticks < n.toUInt32 := by
    have hne : n.toUInt32.toNat ≠ 0 := by
      intro h0
      have hb : n.toBitVec.toNat = 0 := h0
      have h := BitVec.toInt_eq_toNat_cond n.toBitVec
      have hn' : n.toBitVec.toInt < 0 := hn
      rw [hb] at h
      split at h <;> omega
    rw [UInt32.sub_self, UInt32.lt_iff_toNat_lt]
    exact Nat.pos_of_ne_zero hne
  rw [sysSleep, waitLoop, if_pos hlt, if_neg (by decide)]

/-- **The two timed waits agree exactly for a non-negative time.** `sysPause` returns at the first
check at which `max n 0` ticks have passed, and so does `sysSleep` if `n` is not negative; if it is,
`sysSleep` goes to sleep where `sysPause` returns at once. -/
theorem timedWaits_agree_iff (n : Int32) (ticks : UInt32) (es : List WaitEvent)
    (hkill : ∀ e ∈ es, e ≠ .resume true) (hfew : es.count .tick < 2 ^ 32) :
    WaitsAgree n ticks es ↔ 0 ≤ n.toInt := by
  constructor
  · intro h
    by_contra hneg
    have hfirst : FirstCheck n es 0 := by
      refine ⟨Nat.zero_le _, ⟨.inl rfl, ?_⟩, fun j hj => absurd hj (Nat.not_lt_zero j)⟩
      exact max_le ((not_le.1 hneg).le.trans (Int.natCast_nonneg _)) (Int.natCast_nonneg _)
    have hret : sysSleep false n ticks = .returned 0 := ((h 0).1.2 hfirst).2.1
    rw [sysSleep_of_neg (not_le.1 hneg)] at hret
    exact Wait.noConfusion hret
  · intro hn i
    obtain ⟨m, hm, hcall⟩ := sysPause_eq n ticks
    have hsleep : sysSleep false n ticks = waitLoop false n ticks ticks := rfl
    exact ⟨returnsAt_iff hsleep (max_eq_left hn).symm hfew hkill i,
      returnsAt_iff hcall hm hfew hkill i⟩

/-- A wait for two ticks across the wrap-around of the counter. -/
theorem timedWaits_agree_wrap : (0 : ℤ) ≤ (2 : Int32).toInt ∧
    WaitsAgree 2 (UInt32.ofNat (2 ^ 32 - 1))
      [.tick, .resume false, .resume false, .tick, .resume false] :=
  ⟨by decide, (timedWaits_agree_iff 2 _ _ (by decide) (by decide)).2 (by decide)⟩

/-- With `n = -1` `sysPause` returns at once and `sysSleep` does not. -/
theorem sysSleep_neg_disagrees : sysPause false (-1) 0 = .returned 0 ∧
    sysSleep false (-1) 0 = .asleep (-1) 0 ∧ ¬ WaitsAgree (-1) 0 [] := by
  refine ⟨by decide, by decide, fun h => ?_⟩
  have hfirst : FirstCheck (-1) [] 0 := ⟨le_rfl, ⟨.inl rfl, by decide⟩, by simp⟩
  have hret := ((h 0).1.2 hfirst).2.1
  revert hret
  decide

end Xv6Swap.Trap
