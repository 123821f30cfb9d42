import Mathlib.Tactic

/-!
# Locks

`Guarded holder inside`: the holder of a lock is the one that is inside the sections that it guards.
-/

namespace Xv6Swap.Mutex

variable {τ : Type*} {holder : Option τ} {inside : τ → Bool} {t t' : τ}

def Guarded (holder : Option τ) (inside : τ → Bool) : Prop := ∀ t, holder = some t ↔ inside t = true

theorem Guarded.unique (h : Guarded holder inside) (ht : inside t = true) (ht' : inside t' = true) :
    t = t' :=
  Option.some.inj (((h t).2 ht).symm.trans ((h t').2 ht'))

theorem Guarded.eq_false_of_none (h : Guarded none inside) (t : τ) : inside t = false := by
  cases ht : inside t with
  | false => rfl
  | true => cases (h t).2 ht

variable [DecidableEq τ]

theorem Guarded.enter (h : Guarded none inside) (t : τ) :
    Guarded (some t) (Function.update inside t true) := by
  intro t'
  by_cases heq : t' = t
  · rw [heq, Function.update_self]
    exact iff_of_true rfl rfl
  · rw [Function.update_of_ne heq, h.eq_false_of_none t', Option.some_inj]
    exact iff_of_false (Ne.symm heq) Bool.false_ne_true

theorem Guarded.leave (h : Guarded holder inside) (ht : inside t = true) :
    Guarded none (Function.update inside t false) := by
  intro t'
  refine iff_of_false (by simp) fun hinside => ?_
  by_cases heq : t' = t
  · rw [heq, Function.update_self] at hinside
    cases hinside
  · rw [Function.update_of_ne heq] at hinside
    exact heq (h.unique hinside ht)

/-- A step that neither enters nor leaves. -/
theorem Guarded.stay (h : Guarded holder inside) {x : Bool} (hx : x = inside t) :
    Guarded holder (Function.update inside t x) := by
  rw [hx, Function.update_eq_self]
  exact h

end Xv6Swap.Mutex
