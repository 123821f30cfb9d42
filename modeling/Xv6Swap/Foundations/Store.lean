import Mathlib.Tactic
import Mathlib.Logic.Function.Basic

/-!
# Stores

A *device* keeps values under keys in a state of its own. What it is for is said by its `view`:
`put` changes the view at its key only and `get` returns the view of its key without changing it.
How the state represents the view, and which parts of it no view shows, is the device's business.

`Device.run` executes a sequence of operations and collects what the `get`s returned; `specRun`
does the same on a plain partial map, which knows only what was put during the run.
`Device.run_refines` is the refinement: where the map has an answer, the device gives that answer,
whatever the state it started from.
-/

namespace Xv6Swap.Store

/-- Put a value under a key, or get the value of a key into a buffer that holds `buf`. -/
inductive Op (κ ν : Type*)
  | put (k : κ) (v : ν)
  | get (k : κ) (buf : ν)

/-- A state type with the operations of a store and the view that explains them. -/
structure Device (σ κ ν : Type*) where
  put : κ → ν → σ → σ
  get : κ → ν → σ → σ × ν
  view : σ → κ → ν
  view_put_self : ∀ k v s, view (put k v s) k = v
  view_put_of_ne : ∀ k v s k', k' ≠ k → view (put k v s) k' = view s k'
  view_get : ∀ k buf s, view (get k buf s).1 = view s
  get_eq : ∀ k buf s, (get k buf s).2 = view s k

variable {σ κ ν : Type*}

namespace Device

/-- Run a sequence of operations, with the values the `get`s return. -/
def run (D : Device σ κ ν) : List (Op κ ν) → σ → σ × List ν
  | [], s => (s, [])
  | .put k v :: ops, s => D.run ops (D.put k v s)
  | .get k buf :: ops, s =>
    let s' := D.get k buf s
    let r := D.run ops s'.1
    (r.1, s'.2 :: r.2)

/-- What every operation preserves holds after every run. -/
theorem run_induction (D : Device σ κ ν) {P : σ → Prop} (hput : ∀ k v s, P s → P (D.put k v s))
    (hget : ∀ k buf s, P s → P (D.get k buf s).1) (ops : List (Op κ ν)) {s : σ} (hs : P s) :
    P (D.run ops s).1 := by
  induction ops generalizing s with
  | nil => exact hs
  | cons op ops ih =>
    cases op with
    | put k v => exact ih (hput k v s hs)
    | get k buf => exact ih (hget k buf s hs)

end Device

/-- The value `v` is what the map answers, if it answers at all. -/
def Answers (v : ν) (o : Option ν) : Prop := ∀ w, o = some w → v = w

/-- The view of `s` has every value the map knows. -/
def Covers (D : Device σ κ ν) (s : σ) (m : κ → Option ν) : Prop :=
  ∀ k, Answers (D.view s k) (m k)

variable {D : Device σ κ ν} {s : σ} {m : κ → Option ν}

theorem Covers.get (h : Covers D s m) (k : κ) (buf : ν) : Covers D (D.get k buf s).1 m := by
  intro k'
  rw [D.view_get]
  exact h k'

variable [DecidableEq κ]

/-- The answers of a plain map that starts as `m`. -/
def specRun : List (Op κ ν) → (κ → Option ν) → List (Option ν)
  | [], _ => []
  | .put k v :: ops, m => specRun ops (Function.update m k (some v))
  | .get k _ :: ops, m => m k :: specRun ops m

/-- The map after a sequence of operations. -/
def specMap : List (Op κ ν) → (κ → Option ν) → κ → Option ν
  | [], m => m
  | .put k v :: ops, m => specMap ops (Function.update m k (some v))
  | .get _ _ :: ops, m => specMap ops m

theorem Covers.put (h : Covers D s m) (k : κ) (v : ν) :
    Covers D (D.put k v s) (Function.update m k (some v)) := by
  intro k' w hw
  by_cases hk : k' = k
  · subst hk
    rw [Function.update_self] at hw
    rw [D.view_put_self, Option.some.inj hw]
  · rw [Function.update_of_ne hk] at hw
    rw [D.view_put_of_ne k v s k' hk]
    exact h k' w hw

/-- A sequence of `put`s alone. -/
theorem Covers.foldl_put (h : Covers D s m) (ws : List (κ × ν)) :
    Covers D (ws.foldl (fun s w => D.put w.1 w.2 s) s)
      (ws.foldl (fun m w => Function.update m w.1 (some w.2)) m) := by
  induction ws generalizing s m with
  | nil => exact h
  | cons w ws ih => exact ih (h.put w.1 w.2)

/-- **A device refines a plain map.** -/
theorem Device.run_refines (h : Covers D s m) (ops : List (Op κ ν)) :
    List.Forall₂ Answers (D.run ops s).2 (specRun ops m) ∧
      Covers D (D.run ops s).1 (specMap ops m) := by
  induction ops generalizing s m with
  | nil => exact ⟨.nil, h⟩
  | cons op ops ih =>
    cases op with
    | put k v => exact ih (h.put k v)
    | get k buf =>
      obtain ⟨hout, hend⟩ := ih (h.get k buf)
      refine ⟨.cons ?_ hout, hend⟩
      rw [D.get_eq]
      exact h k

end Xv6Swap.Store
