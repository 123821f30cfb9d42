import Xv6Swap.Virtio.Driver

/-!
# Descriptors and chains

`alloc3_desc` gives three free descriptors, or there are not as many and it changes nothing that is
in use (`alloc3Desc_cases`). `free_chain` frees the chain of a request as `virtio_disk_rw` has
filled it in (`freeChain_eq`).
-/

namespace Xv6Swap.Virtio

open Raid (Byte Block bSize)
open Fifo (slot)

variable {ι κ β : Type*} {N : ℕ}

/-! ## Chains -/

namespace Chain

instance : Membership (Fin N) (Chain N) where
  mem c d := d = c.head ∨ d = c.data ∨ d = c.status

theorem mem_iff {c : Chain N} {d : Fin N} : d ∈ c ↔ d = c.head ∨ d = c.data ∨ d = c.status :=
  Iff.rfl

instance (c : Chain N) (d : Fin N) : Decidable (d ∈ c) := decidable_of_iff _ mem_iff.symm

theorem head_mem (c : Chain N) : c.head ∈ c := .inl rfl

theorem data_mem (c : Chain N) : c.data ∈ c := .inr (.inl rfl)

theorem status_mem (c : Chain N) : c.status ∈ c := .inr (.inr rfl)

structure Distinct (c : Chain N) : Prop where
  head_data : c.head ≠ c.data
  head_status : c.head ≠ c.status
  data_status : c.data ≠ c.status

/-- Set the three entries of a chain. -/
def set {α : Type*} (c : Chain N) (x : α) (f : Fin N → α) : Fin N → α := fun d =>
  if d ∈ c then x else f d

theorem set_of_mem {α : Type*} {c : Chain N} {d : Fin N} (h : d ∈ c) (x : α) (f : Fin N → α) :
    c.set x f d = x := if_pos h

theorem set_of_notMem {α : Type*} {c : Chain N} {d : Fin N} (h : d ∉ c) (x : α) (f : Fin N → α) :
    c.set x f d = f d := if_neg h

theorem set_eq_update {α : Type*} (c : Chain N) (x : α) (f : Fin N → α) :
    c.set x f = Function.update (Function.update (Function.update f c.head x) c.data x)
      c.status x := by
  funext d
  simp only [set, mem_iff, Function.update_apply]
  split_ifs <;> simp_all

theorem Distinct.three_le {c : Chain N} (h : c.Distinct) : 3 ≤ N := by
  have hd := h.head_data
  have hs := h.head_status
  have hds := h.data_status
  simp only [ne_eq, Fin.ext_iff] at hd hs hds
  omega

end Chain

namespace State

section Descriptors

variable [NeZero N] [DecidableEq β] {s s' : State ι κ β N}

omit [NeZero N] [DecidableEq β] in
theorem allocDesc_eq_some {i : Fin N} (h : s.allocDesc = some (i, s')) :
    s.free i = true ∧ s' = { s with free := Function.update s.free i false } := by
  obtain ⟨j, hj, heq⟩ := Option.map_eq_some_iff.1 h
  obtain ⟨rfl, rfl⟩ := Prod.mk.inj heq
  exact ⟨List.find?_some hj, rfl⟩

omit [NeZero N] [DecidableEq β] in
theorem allocDesc_eq_none (h : s.allocDesc = none) (i : Fin N) : s.free i = false := by
  have hnone := List.find?_eq_none.1 (Option.map_eq_none_iff.1 h) i (List.mem_finRange i)
  simpa using hnone

theorem freeDesc_eq {i : Fin N} (h : s.free i = false) : s.freeDesc i = .ok (wakeup .free
    { s with desc := Function.update s.desc i .clear, free := Function.update s.free i true }) := by
  rw [freeDesc, if_neg (by simp [h])]

/-- The number of free descriptors. -/
def freeCount (s : State ι κ β N) : ℕ := (Finset.univ.filter fun d => s.free d = true).card

/-- What a failed allocation leaves: only descriptors that are free have been written, and processes
that wait for descriptors may have been woken. -/
structure Tried (s s' : State ι κ β N) : Prop where
  rest : s' = { s with desc := s'.desc, asleep := s'.asleep }
  desc : ∀ d, s.free d = false → s'.desc d = s.desc d
  asleep : ∀ i, s'.asleep i = s.asleep i ∨ s'.asleep i = none

omit [NeZero N] [DecidableEq β] in
theorem freeCount_le {l : List (Fin N)} (h : ∀ d, d ∉ l → s.free d = false) :
    s.freeCount ≤ l.length := by
  have hsub : (Finset.univ.filter fun d => s.free d = true) ⊆ l.toFinset := by
    intro d hd
    rw [List.mem_toFinset]
    by_contra hnot
    simp [h d hnot] at hd
  exact (Finset.card_le_card hsub).trans (List.toFinset_card_le l)

omit [NeZero N] in
theorem Tried.wakeup (h : s.Tried s') (chan : Chan β) : s.Tried (s'.wakeup chan) := by
  refine ⟨?_, h.desc, fun i => ?_⟩
  · conv_lhs => rw [h.rest]
    rfl
  · by_cases hi : s'.asleep i = some chan
    · exact .inr (if_pos hi)
    · simpa only [State.wakeup, if_neg hi] using h.asleep i

omit [NeZero N] [DecidableEq β] in
theorem tried_of_free {desc : Fin N → Desc N β} {free : Fin N → Bool} (hfree : free = s.free)
    (hdesc : ∀ d, s.free d = false → desc d = s.desc d) : s.Tried { s with desc, free } :=
  ⟨by rw [hfree], hdesc, fun _ => .inl rfl⟩

theorem alloc3Desc_cases (s : State ι κ β N) :
    (∃ c : Chain N, c.Distinct ∧ (∀ d ∈ c, s.free d = true) ∧
      s.alloc3Desc = .ok (some c, { s with free := c.set false s.free })) ∨
    s.freeCount < 3 ∧ ∃ s', s.alloc3Desc = .ok (none, s') ∧ s.Tried s' := by
  rw [alloc3Desc]
  cases h₀ : s.allocDesc with
  | none =>
    have hcount := freeCount_le (l := []) fun d _ => allocDesc_eq_none h₀ d
    exact .inr ⟨hcount.trans_lt (Nat.succ_pos 2), s, rfl, rfl, fun _ _ => rfl, fun _ => .inl rfl⟩
  | some p =>
    obtain ⟨i₀, s₀⟩ := p
    obtain ⟨hi₀, rfl⟩ := allocDesc_eq_some h₀
    cases h₁ : allocDesc { s with free := Function.update s.free i₀ false } with
    | none =>
      have hcount : s.freeCount ≤ [i₀].length := by
        refine freeCount_le fun d hd => ?_
        have hnone : Function.update s.free i₀ false d = false := allocDesc_eq_none h₁ d
        rwa [Function.update_of_ne (List.ne_of_not_mem_cons hd)] at hnone
      refine .inr ⟨hcount.trans_lt (Nat.lt_of_sub_eq_succ rfl), ?_⟩
      simp only [h₁, freeDesc_eq (s := { s with free := Function.update s.free i₀ false })
        (Function.update_self i₀ false s.free)]
      refine ⟨_, rfl, (tried_of_free ?_ fun d hd => ?_).wakeup .free⟩
      · rw [Function.update_idem, ← hi₀, Function.update_eq_self]
      · exact Function.update_of_ne (fun heq => by simp [heq, hi₀] at hd) _ _
    | some p =>
      obtain ⟨i₁, s₁⟩ := p
      obtain ⟨hi₁, rfl⟩ := allocDesc_eq_some h₁
      have hne : i₁ ≠ i₀ := fun heq => by simp [heq] at hi₁
      have hi₁ : s.free i₁ = true := by simpa [Function.update_of_ne hne] using hi₁
      simp only [h₁]
      cases h₂ : allocDesc { s with
          free := Function.update (Function.update s.free i₀ false) i₁ false } with
      | none =>
        have hcount : s.freeCount ≤ [i₀, i₁].length := by
          refine freeCount_le fun d hd => ?_
          have hnone : Function.update (Function.update s.free i₀ false) i₁ false d = false :=
            allocDesc_eq_none h₂ d
          rwa [Function.update_of_ne (by aesop), Function.update_of_ne (by aesop)] at hnone
        refine .inr ⟨hcount.trans_lt (Nat.lt_of_sub_eq_succ rfl), ?_⟩
        have htried : s.Tried { s with
            desc := Function.update (Function.update s.desc i₀ .clear) i₁ .clear
            free := Function.update (Function.update (Function.update (Function.update s.free
              i₀ false) i₁ false) i₀ true) i₁ true } := by
          refine tried_of_free ?_ fun d hd => ?_
          · funext d
            simp only [Function.update_apply]
            split_ifs <;> simp_all
          · have hd₀ : d ≠ i₀ := fun heq => by simp [heq, hi₀] at hd
            have hd₁ : d ≠ i₁ := fun heq => by simp [heq, hi₁] at hd
            simp only [Function.update_of_ne hd₀, Function.update_of_ne hd₁]
        rw [freeDesc_eq (by simp [Function.update_of_ne hne.symm])]
        simp only [bind, Except.bind]
        rw [freeDesc_eq (by simp [wakeup, Function.update_of_ne hne])]
        exact ⟨_, rfl, (htried.wakeup .free).wakeup .free⟩
      | some p =>
        obtain ⟨i₂, s₂⟩ := p
        obtain ⟨hi₂, rfl⟩ := allocDesc_eq_some h₂
        have hne₁ : i₂ ≠ i₁ := fun heq => by simp [heq] at hi₂
        have hne₀ : i₂ ≠ i₀ := fun heq => by simp [heq, Function.update_of_ne hne.symm] at hi₂
        have hi₂ : s.free i₂ = true := by
          simpa [Function.update_of_ne hne₁, Function.update_of_ne hne₀] using hi₂
        refine .inl ⟨⟨i₀, i₁, i₂⟩, ⟨hne.symm, hne₀.symm, hne₁.symm⟩, ?_, ?_⟩
        · rintro d (rfl | rfl | rfl) <;> assumption
        · rw [Chain.set_eq_update]
          rfl

theorem freeChain_eq {b : β} {write : Bool} {c : Chain N} (hc : c.Distinct)
    (hhead : s.desc c.head = ⟨.op c.head, blkReqSize, true, false, c.data⟩)
    (hdata : s.desc c.data = ⟨.data b, bSize, true, !write, c.status⟩)
    (hstatus : s.desc c.status = ⟨.status c.head, 1, false, true, 0⟩)
    (hfree : ∀ d ∈ c, s.free d = false) :
    s.freeChain N c.head = .ok (wakeup .free
      { s with desc := c.set .clear s.desc, free := c.set true s.free }) := by
  obtain ⟨n, rfl⟩ : ∃ n, N = n + 3 := ⟨N - 3, by have := hc.three_le; omega⟩
  have hdata_free : Function.update s.free c.head true c.data = false := by
    rw [Function.update_of_ne hc.head_data.symm, hfree _ c.data_mem]
  have hstatus_free :
      Function.update (Function.update s.free c.head true) c.data true c.status = false := by
    rw [Function.update_of_ne hc.data_status.symm, Function.update_of_ne hc.head_status.symm,
      hfree _ c.status_mem]
  rw [Chain.set_eq_update, Chain.set_eq_update, freeChain, hhead, freeDesc_eq (hfree _ c.head_mem)]
  simp only [bind, Except.bind, if_true]
  rw [freeChain, freeDesc_eq hdata_free]
  simp only [wakeup, Function.update_of_ne hc.head_data.symm, hdata, bind, Except.bind, if_true]
  rw [freeChain, freeDesc_eq hstatus_free]
  simp only [wakeup, Function.update_of_ne hc.head_status.symm,
    Function.update_of_ne hc.data_status.symm, hstatus, bind, Except.bind]
  -- the second and the third wakeup find nobody
  have hasleep (i : ι) : (if (if s.asleep i = some .free then none else s.asleep i) = some Chan.free
      then none else if s.asleep i = some .free then none else s.asleep i) =
      if s.asleep i = some .free then none else s.asleep i := by
    split_ifs <;> simp_all
  simp only [hasleep]
  rfl

end Descriptors

end State

end Xv6Swap.Virtio
