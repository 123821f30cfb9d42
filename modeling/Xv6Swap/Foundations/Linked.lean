import Mathlib.Tactic
import Mathlib.Data.Fintype.Card
import Mathlib.Data.List.Nodup
import Mathlib.Logic.Function.Basic

/-!
# Singly linked lists in a pool

Cells of a pool `α` are linked by a map `next : α → Option α`. `Linked next h l` says that following
the links from `h` visits exactly the cells of `l` and ends. Such a list is determined by its head
(`Linked.unique`), so it has no duplicates (`Linked.nodup`) and is no longer than the pool
(`Linked.length_le`): a loop over it needs no more steps than there are cells.

The operations are appending a cell behind the last one (`Linked.append`) and cutting a cell out,
at the head (`Linked.unlink_head`) or behind its predecessor (`Linked.unlink`).
-/

namespace Xv6Swap.Pool

/-- Following `next` from `h` visits the cells of `l` and ends. -/
def Linked {α : Type*} (next : α → Option α) : Option α → List α → Prop
  | h, [] => h = none
  | h, a :: l => h = some a ∧ Linked next (next a) l

/-- The last cell of the list that starts at `a`, in at most `fuel` steps. -/
def lastFrom {α : Type*} (next : α → Option α) : ℕ → α → α
  | 0, a => a
  | fuel + 1, a =>
    match next a with
    | none => a
    | some b => lastFrom next fuel b

section

variable {α : Type*} {next next' : α → Option α} {h : Option α} {l l' : List α}

@[simp] theorem linked_nil : Linked next h [] ↔ h = none := Iff.rfl

@[simp] theorem linked_cons {a : α} :
    Linked next h (a :: l) ↔ h = some a ∧ Linked next (next a) l := Iff.rfl

theorem Linked.unique (hl : Linked next h l) (hl' : Linked next h l') : l = l' := by
  induction l generalizing h l' with
  | nil =>
    cases l' with
    | nil => rfl
    | cons b l' => simp [linked_nil.1 hl] at hl'
  | cons a l ih =>
    cases l' with
    | nil => simp [linked_nil.1 hl'] at hl
    | cons b l' =>
      obtain ⟨rfl, hl⟩ := hl
      obtain ⟨hab, hl'⟩ := hl'
      obtain rfl := Option.some.inj hab
      rw [ih hl hl']

/-- A list that links up is still linked up from any of its cells. -/
theorem Linked.suffix {l₁ l₂ : List α} {a : α} (hl : Linked next h (l₁ ++ a :: l₂)) :
    Linked next (some a) (a :: l₂) := by
  induction l₁ generalizing h with
  | nil => exact ⟨rfl, hl.2⟩
  | cons b l₁ ih => exact ih hl.2

theorem Linked.nodup (hl : Linked next h l) : l.Nodup := by
  induction l generalizing h with
  | nil => exact List.nodup_nil
  | cons a l ih =>
    refine List.nodup_cons.2 ⟨fun ha => ?_, ih hl.2⟩
    -- a second visit to `a` would start the same list again
    obtain ⟨l₁, l₂, rfl⟩ := List.append_of_mem ha
    have hfull : Linked next (some a) (a :: (l₁ ++ a :: l₂)) := ⟨rfl, hl.2⟩
    have heq := hfull.unique hl.2.suffix
    have hlen := congrArg List.length heq
    simp only [List.length_cons, List.length_append] at hlen
    omega

theorem Linked.length_le [Fintype α] (hl : Linked next h l) : l.length ≤ Fintype.card α :=
  hl.nodup.length_le_card

/-- Links outside the list do not matter. -/
theorem Linked.congr (hl : Linked next h l) (hnext : ∀ a ∈ l, next' a = next a) :
    Linked next' h l := by
  induction l generalizing h with
  | nil => exact hl
  | cons a l ih =>
    refine ⟨hl.1, ?_⟩
    rw [hnext a List.mem_cons_self]
    exact ih hl.2 fun b hb => hnext b (List.mem_cons_of_mem _ hb)

theorem Linked.lastFrom_eq {a : α} (hl : Linked next (some a) (a :: l)) {fuel : ℕ}
    (hfuel : l.length ≤ fuel) : lastFrom next fuel a = (a :: l).getLast (List.cons_ne_nil a l) := by
  induction l generalizing a fuel with
  | nil =>
    have hnone : next a = none := hl.2
    cases fuel <;> simp [lastFrom, hnone]
  | cons b l ih =>
    obtain ⟨fuel, rfl⟩ : ∃ n, fuel = n + 1 := ⟨fuel - 1, by simp at hfuel; omega⟩
    obtain ⟨hab, hbl⟩ := hl.2
    have hrec := @ih b ⟨rfl, hbl⟩ fuel (by simpa using hfuel)
    rw [List.getLast_cons (List.cons_ne_nil b l), ← hrec]
    simp [lastFrom, hab]

end

section Update

variable {α : Type*} [DecidableEq α] {next : α → Option α} {h : Option α} {l l₁ l₂ : List α}
  {a c : α}

/-- A new cell behind the last one. -/
theorem Linked.append (hl : Linked next h l) (hne : l ≠ []) (hc : c ∉ l) :
    Linked (Function.update (Function.update next c none) (l.getLast hne) (some c)) h
      (l ++ [c]) := by
  induction l generalizing h with
  | nil => exact absurd rfl hne
  | cons b l ih =>
    obtain ⟨rfl, hl'⟩ := hl
    obtain ⟨hcb, hcl⟩ : c ≠ b ∧ c ∉ l := by simpa using hc
    refine ⟨rfl, ?_⟩
    by_cases hnil : l = []
    · subst hnil
      simp [hcb]
    · have hb : b ≠ l.getLast hnil := fun e =>
        (List.nodup_cons.1 (Linked.nodup ⟨rfl, hl'⟩)).1 (e ▸ List.getLast_mem hnil)
      rw [List.getLast_cons hnil, Function.update_of_ne hb, Function.update_of_ne hcb.symm]
      exact ih hl' hnil hcl

/-- The head cut out. -/
theorem Linked.unlink_head (hl : Linked next h (a :: l)) :
    Linked (Function.update next a none) (next a) l :=
  hl.2.congr fun b hb => Function.update_of_ne
    (fun e : b = a => (List.nodup_cons.1 hl.nodup).1 (e ▸ hb)) _ _

/-- A cell cut out behind its predecessor `c`. -/
theorem Linked.unlink (hl : Linked next h (l₁ ++ c :: a :: l₂)) :
    Linked (Function.update (Function.update next c (next a)) a none) h (l₁ ++ c :: l₂) := by
  induction l₁ generalizing h with
  | nil =>
    obtain ⟨rfl, hca, hl₂⟩ := hl
    have hnodup : (c :: a :: l₂).Nodup := Linked.nodup (h := some c) ⟨rfl, hca, hl₂⟩
    obtain ⟨hc, ha, -⟩ : (c ≠ a ∧ c ∉ l₂) ∧ a ∉ l₂ ∧ l₂.Nodup := by simpa using hnodup
    refine ⟨rfl, ?_⟩
    rw [Function.update_of_ne hc.1, Function.update_self]
    refine hl₂.congr fun b hb => ?_
    rw [Function.update_of_ne (fun e : b = a => ha (e ▸ hb)),
      Function.update_of_ne (fun e : b = c => hc.2 (e ▸ hb))]
  | cons b l₁ ih =>
    have hnodup := hl.nodup
    have hbc : b ≠ c := by rintro rfl; simp at hnodup
    have hba : b ≠ a := by rintro rfl; simp at hnodup
    refine ⟨hl.1, ?_⟩
    rw [Function.update_of_ne hba, Function.update_of_ne hbc]
    exact ih hl.2

end Update

end Xv6Swap.Pool
