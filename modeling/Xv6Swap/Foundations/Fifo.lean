import Mathlib.Data.BitVec
import Mathlib.Tactic

/-!
# Queues in an array, with counters that wrap around

A producer and a consumer share an array of `N` cells and two counters of `w` bits, which only grow
and wrap around at `2 ^ w`. The cell of a counter is its value modulo `N`. `contents cells lo hi`
are the items between the counter `lo` of the consumer and the counter `hi` of the producer, in
order.

If `N` divides `2 ^ w`, the wrap-around does not show: writing the next cell leaves the contents
alone as long as the array is not full (`contents_update`), counting it in appends it
(`contents_bump`), and the consumer finds the first item in its cell (`contents_pop`).
-/

namespace Xv6Swap.Fifo

variable {α : Type*} {N w : ℕ} [NeZero N]

/-- The cell of a counter. -/
def slot (N : ℕ) [NeZero N] (i : BitVec w) : Fin N := Fin.ofNat N i.toNat

/-- The number of items between two counters. -/
def count (lo hi : BitVec w) : ℕ := (hi - lo).toNat

/-- The items between two counters. -/
def contents (cells : Fin N → α) (lo hi : BitVec w) : List α :=
  (List.range (count lo hi)).map fun k => cells (slot N (lo + BitVec.ofNat w k))

variable {cells : Fin N → α} {lo hi : BitVec w}

@[simp] theorem length_contents : (contents cells lo hi).length = count lo hi := by
  simp [contents]

theorem count_self (lo : BitVec w) : count lo lo = 0 := by
  simp [count]

theorem count_eq_zero : count lo hi = 0 ↔ lo = hi := by
  constructor
  · intro h
    have hsub : hi - lo = 0#w := BitVec.eq_of_toNat_eq (by simpa [count] using h)
    exact (sub_eq_zero.1 hsub).symm
  · rintro rfl
    exact count_self lo

/-- The counter that is `count lo hi` further than `lo`. -/
theorem add_count (lo hi : BitVec w) : lo + BitVec.ofNat w (count lo hi) = hi := by
  rw [count, BitVec.ofNat_toNat, BitVec.setWidth_eq]
  exact add_sub_cancel lo hi

theorem count_succ_right (h : count lo hi + 1 < 2 ^ w) : count lo (hi + 1) = count lo hi + 1 := by
  have hsub : hi + 1 - lo = hi - lo + 1 := add_sub_right_comm hi 1 lo
  rw [count, hsub, BitVec.toNat_add]
  have hone : (1 : BitVec w).toNat = 1 := by
    have hw : 1 < 2 ^ w := by omega
    simpa using Nat.mod_eq_of_lt hw
  rw [hone]
  exact Nat.mod_eq_of_lt h

theorem count_succ_left (h : lo ≠ hi) : count lo hi = count (lo + 1) hi + 1 := by
  have hpos : count lo hi ≠ 0 := fun h₀ => h (count_eq_zero.1 h₀)
  have hlt : count lo hi < 2 ^ w := (hi - lo).isLt
  have hsub : hi - (lo + 1) + 1 = hi - lo := by
    rw [sub_add_eq_sub_sub, sub_add_cancel]
  have hone : (1 : BitVec w).toNat = 1 := by
    have hw : 1 < 2 ^ w := by omega
    simpa using Nat.mod_eq_of_lt hw
  have hcount : count lo hi = (count (lo + 1) hi + 1) % 2 ^ w := by
    rw [count, ← hsub, BitVec.toNat_add, hone]
    rfl
  have hle : count (lo + 1) hi < 2 ^ w := (hi - (lo + 1)).isLt
  rcases Nat.lt_or_ge (count (lo + 1) hi + 1) (2 ^ w) with hsmall | hbig
  · rwa [Nat.mod_eq_of_lt hsmall] at hcount
  · have hfull : count (lo + 1) hi + 1 = 2 ^ w := by omega
    rw [hfull, Nat.mod_self] at hcount
    exact absurd hcount hpos

theorem contents_self (cells : Fin N → α) (lo : BitVec w) : contents cells lo lo = [] := by
  simp [contents, count_self]

/-- The consumer takes the first item. -/
theorem contents_pop (h : lo ≠ hi) :
    contents cells lo hi = cells (slot N lo) :: contents cells (lo + 1) hi := by
  rw [contents, count_succ_left h, List.range_succ_eq_map, List.map_cons, List.map_map]
  congr 1
  · simp
  · refine List.map_congr_left fun k _ => ?_
    have hk : lo + BitVec.ofNat w (k + 1) = lo + 1 + BitVec.ofNat w k := by
      rw [BitVec.ofNat_add, add_comm (BitVec.ofNat w k), ← add_assoc]
      rfl
    simp only [Function.comp, hk]

/-- The producer counts in the item that it has written. -/
theorem contents_bump (h : count lo hi + 1 < 2 ^ w) :
    contents cells lo (hi + 1) = contents cells lo hi ++ [cells (slot N hi)] := by
  rw [contents, count_succ_right h, List.range_succ, List.map_append, List.map_singleton, add_count]
  rfl

theorem slot_add (hN : N ∣ 2 ^ w) (i : BitVec w) (k : ℕ) :
    (slot N (i + BitVec.ofNat w k) : ℕ) = (i.toNat + k) % N := by
  have hval : (slot N (i + BitVec.ofNat w k) : ℕ) = (i + BitVec.ofNat w k).toNat % N := rfl
  rw [hval, BitVec.toNat_add, BitVec.toNat_ofNat, Nat.mod_mod_of_dvd _ hN, Nat.add_mod,
    Nat.mod_mod_of_dvd _ hN, ← Nat.add_mod]

/-- The cell of the producer is none of those with items in them. -/
theorem slot_ne (hN : N ∣ 2 ^ w) (h : count lo hi < N) {k : ℕ} (hk : k < count lo hi) :
    slot N (lo + BitVec.ofNat w k) ≠ slot N hi := by
  intro heq
  have hval := congrArg Fin.val heq
  rw [← add_count lo hi, slot_add hN, slot_add hN] at hval
  have hmod : lo.toNat + k ≡ lo.toNat + count lo hi [MOD N] := hval
  have hmod' : k ≡ count lo hi [MOD N] := Nat.ModEq.add_left_cancel' _ hmod
  rw [Nat.ModEq, Nat.mod_eq_of_lt (hk.trans h), Nat.mod_eq_of_lt h] at hmod'
  exact absurd hmod' hk.ne

/-- The producer writes the next cell of an array that is not full. -/
theorem contents_update [DecidableEq (Fin N)] (hN : N ∣ 2 ^ w) (h : count lo hi < N) (a : α) :
    contents (Function.update cells (slot N hi) a) lo hi = contents cells lo hi := by
  refine List.map_congr_left fun k hk => ?_
  exact Function.update_of_ne (slot_ne hN h (List.mem_range.1 hk)) _ _

end Xv6Swap.Fifo
