import Mathlib.Tactic
import Mathlib.Order.Basic

/-!
# Scans of a circular table

Positions `Fin n` in a circle, seen from a hand `h`: `turn h k` is the position `k` steps ahead and
`ahead h i` the number of steps, below `n`, to the position `i`. `ahead_turn` says how the distances
change when the hand moves.

`FirstMax offer value k j`: among the steps below `k` that make an offer, `j` has the greatest value
and is the first with it. A scan that replaces its choice only by a strictly greater offer keeps it
(`FirstMax.skip`, `FirstMax.keep`, `FirstMax.replace`).
-/

namespace Xv6Swap.Circular

variable {n : ℕ}

/-! ## Positions from the hand -/

def turn (h : Fin n) (k : ℕ) : Fin n := ⟨(h + k) % n, Nat.mod_lt _ h.pos⟩

def ahead (h i : Fin n) : ℕ := (i + n - h) % n

theorem ahead_lt (h i : Fin n) : ahead h i < n := Nat.mod_lt _ h.pos

@[simp] theorem turn_zero (h : Fin n) : turn h 0 = h := Fin.ext (Nat.mod_eq_of_lt h.isLt)

theorem turn_turn (h : Fin n) (j k : ℕ) : turn (turn h j) k = turn h (j + k) := by
  apply Fin.ext
  change ((h + j) % n + k) % n = (h + (j + k)) % n
  rw [Nat.mod_add_mod, add_assoc]

theorem turn_add_length (h : Fin n) (k : ℕ) : turn h (k + n) = turn h k := by
  apply Fin.ext
  change (h + (k + n)) % n = (h + k) % n
  rw [← add_assoc, Nat.add_mod_right]

@[simp] theorem turn_ahead (h i : Fin n) : turn h (ahead h i) = i := by
  apply Fin.ext
  change (h + (i + n - h) % n) % n = i
  rw [Nat.add_mod_mod, show (h : ℕ) + (i + n - h) = i + n by omega, Nat.add_mod_right,
    Nat.mod_eq_of_lt i.isLt]

theorem ahead_turn_self (h : Fin n) (k : ℕ) : ahead h (turn h k) = k % n := by
  have hk : k % n < n := Nat.mod_lt _ h.pos
  have hh := h.isLt
  change ((h + k) % n + n - h) % n = k % n
  rw [← Nat.add_mod_mod]
  rcases Nat.lt_or_ge (h + k % n) n with hlt | hge
  · rw [Nat.mod_eq_of_lt hlt, show (h : ℕ) + k % n + n - h = k % n + n by omega, Nat.add_mod_right,
      Nat.mod_mod]
  · have hwrap : (h + k % n) % n = h + k % n - n := by
      rw [Nat.mod_eq_sub_mod hge, Nat.mod_eq_of_lt (by omega)]
    rw [hwrap, show (h : ℕ) + k % n - n + n - h = k % n by omega, Nat.mod_mod]

theorem ahead_turn_of_lt (h : Fin n) {k : ℕ} (hk : k < n) : ahead h (turn h k) = k := by
  rw [ahead_turn_self, Nat.mod_eq_of_lt hk]

theorem ahead_eq_iff (h i : Fin n) {k : ℕ} (hk : k < n) : ahead h i = k ↔ i = turn h k := by
  constructor
  · rintro rfl
    exact (turn_ahead h i).symm
  · rintro rfl
    exact ahead_turn_of_lt h hk

theorem ahead_inj {h i j : Fin n} : ahead h i = ahead h j ↔ i = j := by
  rw [ahead_eq_iff h i (ahead_lt h j), turn_ahead]

/-- When the hand moves, what it has passed is behind it. -/
theorem ahead_turn (h i : Fin n) {k : ℕ} (hk : k ≤ n) :
    ahead (turn h k) i = if ahead h i < k then ahead h i + n - k else ahead h i - k := by
  have hi := ahead_lt h i
  split
  next hlt =>
    rw [ahead_eq_iff _ _ (by omega), turn_turn,
      show k + (ahead h i + n - k) = ahead h i + n by omega,
      turn_add_length, turn_ahead]
  next hge =>
    rw [ahead_eq_iff _ _ (by omega), turn_turn, show k + (ahead h i - k) = ahead h i by omega,
      turn_ahead]

/-! ## The first maximum -/

variable {α : Type*} [LinearOrder α]

/-- Among the offers before step `k` the one at `j` is the first of the greatest value. -/
structure FirstMax (offer : ℕ → Prop) (value : ℕ → α) (k j : ℕ) : Prop where
  lt : j < k
  offered : offer j
  le : ∀ i < k, offer i → value i ≤ value j
  first : ∀ i < j, offer i → value i < value j

variable {offer : ℕ → Prop} {value : ℕ → α} {k j : ℕ}

theorem FirstMax.skip (h : FirstMax offer value k j) (hk : ¬ offer k) :
    FirstMax offer value (k + 1) j := by
  refine ⟨h.lt.trans k.lt_succ_self, h.offered, fun i hi ho => ?_, h.first⟩
  rcases Nat.lt_succ_iff_lt_or_eq.1 hi with hi | rfl
  · exact h.le i hi ho
  · exact absurd ho hk

theorem FirstMax.keep (h : FirstMax offer value k j) (hk : value k ≤ value j) :
    FirstMax offer value (k + 1) j := by
  refine ⟨h.lt.trans k.lt_succ_self, h.offered, fun i hi ho => ?_, h.first⟩
  rcases Nat.lt_succ_iff_lt_or_eq.1 hi with hi | rfl
  · exact h.le i hi ho
  · exact hk

theorem FirstMax.replace (h : FirstMax offer value k j) (ho : offer k) (hk : value j < value k) :
    FirstMax offer value (k + 1) k := by
  refine ⟨k.lt_succ_self, ho, fun i hi hoi => ?_, fun i hi hoi => (h.le i hi hoi).trans_lt hk⟩
  rcases Nat.lt_succ_iff_lt_or_eq.1 hi with hi | rfl
  · exact ((h.le i hi hoi).trans_lt hk).le
  · exact le_rfl

theorem firstMax_of_none (hnone : ∀ i < k, ¬ offer i) (ho : offer k) :
    FirstMax offer value (k + 1) k := by
  refine ⟨k.lt_succ_self, ho, fun i hi hoi => ?_, fun i hi hoi => absurd hoi (hnone i hi)⟩
  rcases Nat.lt_succ_iff_lt_or_eq.1 hi with hi | rfl
  · exact absurd hoi (hnone i hi)
  · exact le_rfl

end Xv6Swap.Circular
