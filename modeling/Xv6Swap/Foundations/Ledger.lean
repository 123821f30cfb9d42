import Mathlib.Algebra.BigOperators.Group.Finset.Basic
import Mathlib.Algebra.Order.BigOperators.Group.Finset
import Mathlib.Data.Multiset.Fintype
import Mathlib.Tactic

/-!
# Ledgers

Things of a type `α` are kept in places `ρ`: `holds r` are the things in the place `r`. Code that
moves a thing takes it into a hand first. `Balanced P holds hand` says that the things in all places
and in hand are those of `P`, each once. Then a thing in some place is in no other and not in hand
(`Balanced.place_unique`, `Balanced.notMem_of_hand`, and `Balanced.hand_unique` for several hands),
and with an empty hand each thing of `P` is in exactly one place (`Balanced.existsUnique`).

A step that changes the things of one place keeps the balance if the hand makes up for it
(`Balanced.update`); taking and putting a single thing are `Balanced.take` and `Balanced.put`.
-/

namespace Xv6Swap.Ledger

variable {ρ α : Type*} [Fintype ρ] [DecidableEq ρ]

/-- The things in all places and in hand are those of `P`, each once. -/
structure Balanced (P : Multiset α) (holds : ρ → Multiset α) (hand : Multiset α) : Prop where
  nodup : P.Nodup
  sum : ∑ r, holds r + hand = P

namespace Balanced

variable {P hand hand' x : Multiset α} {holds : ρ → Multiset α} {r r' : ρ} {a : α}

omit [DecidableEq ρ] in
/-- The balance of things that are in a few places. -/
theorem of_list {l : List ρ} (hP : P.Nodup) (hl : l.Nodup) (hsum : (l.map holds).sum = P)
    (hrest : ∀ r ∉ l, holds r = 0) : Balanced P holds 0 := by
  classical
  refine ⟨hP, ?_⟩
  rw [add_zero, ← hsum, ← List.sum_toFinset holds hl]
  refine (Finset.sum_subset (Finset.subset_univ _) fun r _ hr => hrest r fun hmem => ?_).symm
  exact hr (List.mem_toFinset.2 hmem)

/-- The things in one place and in hand change. -/
theorem update (h : Balanced P holds hand) (hx : holds r + hand = x + hand') :
    Balanced P (Function.update holds r x) hand' := by
  refine ⟨h.nodup, ?_⟩
  rw [← h.sum, Finset.sum_update_of_mem (Finset.mem_univ r),
    ← Finset.add_sum_erase _ holds (Finset.mem_univ r), Finset.sdiff_singleton_eq_erase,
    add_right_comm, ← hx, add_right_comm]

/-- A thing is taken into the hand. -/
theorem take (h : Balanced P holds hand) (hr : holds r = a ::ₘ x) :
    Balanced P (Function.update holds r x) (a ::ₘ hand) :=
  h.update (by rw [hr, Multiset.cons_add, Multiset.add_cons])

/-- A thing is put in a place. -/
theorem put (h : Balanced P holds (a ::ₘ hand)) :
    Balanced P (Function.update holds r (a ::ₘ holds r)) hand :=
  h.update (by rw [Multiset.cons_add, Multiset.add_cons])

omit [DecidableEq ρ] in
theorem mem_of_place (h : Balanced P holds hand) (ha : a ∈ holds r) : a ∈ P := by
  rw [← h.sum]
  exact Multiset.mem_add.2 (.inl (Multiset.mem_sum.2 ⟨r, Finset.mem_univ r, ha⟩))

omit [DecidableEq ρ] in
theorem count_le [DecidableEq α] (h : Balanced P holds hand) (a : α) :
    ∑ r, (holds r).count a + hand.count a ≤ 1 := by
  rw [← Multiset.count_sum', ← Multiset.count_add, h.sum]
  exact Multiset.nodup_iff_count_le_one.1 h.nodup a

/-- A thing is in one place only. -/
theorem place_unique (h : Balanced P holds hand) (hr : a ∈ holds r) (hr' : a ∈ holds r') :
    r = r' := by
  classical
  by_contra hne
  have hpos := Multiset.one_le_count_iff_mem.2 hr
  have hpos' := Multiset.one_le_count_iff_mem.2 hr'
  have hle := h.count_le a
  rw [← Finset.add_sum_erase _ _ (Finset.mem_univ r),
    ← Finset.add_sum_erase _ _ (Finset.mem_erase.2 ⟨Ne.symm hne, Finset.mem_univ r'⟩)] at hle
  omega

/-- A thing in hand is in no place. -/
theorem notMem_of_hand (h : Balanced P holds hand) (ha : a ∈ hand) (r : ρ) : a ∉ holds r := by
  classical
  intro hr
  have hpos := Multiset.one_le_count_iff_mem.2 hr
  have hpos' := Multiset.one_le_count_iff_mem.2 ha
  have hle := h.count_le a
  rw [← Finset.add_sum_erase _ _ (Finset.mem_univ r)] at hle
  omega

/-- With nothing in hand every thing is in exactly one place. -/
theorem existsUnique (h : Balanced P holds 0) (ha : a ∈ P) : ∃! r, a ∈ holds r := by
  rw [← h.sum, add_zero, Multiset.mem_sum] at ha
  obtain ⟨r, -, hr⟩ := ha
  exact ⟨r, hr, fun r' hr' => h.place_unique hr' hr⟩

omit [DecidableEq ρ] in
/-- Where several hands take part, a thing is in one hand only. -/
theorem hand_unique {ι : Type*} [Fintype ι] {hands : ι → Multiset α} {i j : ι}
    (h : Balanced P holds (∑ i, hands i)) (hi : a ∈ hands i) (hj : a ∈ hands j) : i = j := by
  classical
  have hands_balanced : Balanced P hands (∑ r, holds r) := ⟨h.nodup, by rw [add_comm, h.sum]⟩
  exact hands_balanced.place_unique hi hj

omit [DecidableEq ρ] in
theorem nodup_place (h : Balanced P holds hand) (r : ρ) : (holds r).Nodup := by
  have hle : holds r ≤ P := by
    rw [← h.sum]
    exact (Finset.single_le_sum (fun _ _ => zero_le) (Finset.mem_univ r)).trans
      (Multiset.le_add_right _ _)
  exact Multiset.nodup_of_le hle h.nodup

end Balanced

end Xv6Swap.Ledger
