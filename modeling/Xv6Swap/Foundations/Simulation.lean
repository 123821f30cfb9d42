import Mathlib.Data.List.ReduceOption
import Mathlib.Tactic

/-!
# Runs and simulation

Labelled transition systems are given by their step relation. `Runs` is a finite run with its trace
of labels, and a forward simulation (`Simulates`) carries whole runs (`Simulates.runs`).

A refinement mapping (`Refines`) takes the states of one system to those of another one. The steps
are labelled by what they show, if anything (`Shows`), and a step that shows nothing may leave the
image as it is. Every run is then a run of the second system that shows the same (`Refines.runs`).
-/

namespace Xv6Swap.Simulation

variable {σ τ α γ : Type*}

/-- A run from one state to another, with its labels. -/
inductive Runs (step : σ → α → σ → Prop) : σ → List α → σ → Prop
  | nil (s : σ) : Runs step s [] s
  | cons {s s' s'' : σ} {a : α} {l : List α} :
      step s a s' → Runs step s' l s'' → Runs step s (a :: l) s''

/-- The state after a list of actions. -/
def exec (step : σ → α → Option σ) : List α → σ → Option σ
  | [], s => some s
  | a :: l, s => (step s a).bind (exec step l)

theorem runs_of_exec {f : σ → α → Option σ} {step : σ → α → σ → Prop}
    (hstep : ∀ {s a s'}, f s a = some s' → step s a s') {l : List α} {s s' : σ}
    (h : exec f l s = some s') : Runs step s l s' := by
  induction l generalizing s with
  | nil =>
    obtain rfl := Option.some.inj h
    exact .nil s
  | cons a l ih =>
    obtain ⟨s₁, hone, hrest⟩ := Option.bind_eq_some_iff.1 h
    exact .cons (hstep hone) (ih hrest)

/-- What every step preserves holds at the end of every run. -/
theorem Runs.inv {step : σ → α → σ → Prop} {P : σ → Prop} {s s' : σ} {l : List α}
    (hrun : Runs step s l s') (hstep : ∀ s a s', P s → step s a s' → P s') (hs : P s) : P s' := by
  induction hrun with
  | nil s => exact hs
  | cons hone _ ih => exact ih (hstep _ _ _ hs hone)

/-- Every step of the first system is matched by the second one with the same label. -/
def Simulates (step : σ → α → σ → Prop) (step' : τ → α → τ → Prop) (R : σ → τ → Prop) : Prop :=
  ∀ ⦃s t a s'⦄, R s t → step s a s' → ∃ t', step' t a t' ∧ R s' t'

theorem Simulates.runs {step : σ → α → σ → Prop} {step' : τ → α → τ → Prop} {R : σ → τ → Prop}
    (h : Simulates step step' R) {s s' : σ} {t : τ} {l : List α} (hR : R s t)
    (hrun : Runs step s l s') : ∃ t', Runs step' t l t' ∧ R s' t' := by
  induction hrun generalizing t with
  | nil s => exact ⟨t, .nil t, hR⟩
  | cons hstep _ ih =>
    obtain ⟨t₁, hstep', hR₁⟩ := h hR hstep
    obtain ⟨t', hrun', hR'⟩ := ih hR₁
    exact ⟨t', .cons hstep' hrun', hR'⟩

/-- The steps, labelled by what they show. -/
def Shows (step : σ → α → σ → Prop) (obs : σ → α → Option γ) (s : σ) (o : Option γ) (s' : σ) :
    Prop :=
  ∃ a, step s a s' ∧ o = obs s a

theorem Runs.shows {step : σ → α → σ → Prop} {s s' : σ} {l : List α} (h : Runs step s l s')
    (obs : σ → α → Option γ) : ∃ o, Runs (Shows step obs) s o s' := by
  induction h with
  | nil s => exact ⟨[], .nil s⟩
  | @cons s s₁ s' a l hstep _ ih =>
    obtain ⟨o, hrun⟩ := ih
    exact ⟨obs s a :: o, .cons ⟨a, hstep, rfl⟩ hrun⟩

/-- From states with `P`, every step is mapped to a step that shows the same, or shows nothing and
changes nothing in the image. -/
def Refines (step : σ → Option γ → σ → Prop) (step' : τ → Option γ → τ → Prop) (P : σ → Prop)
    (f : σ → τ) : Prop :=
  ∀ ⦃s o s'⦄, P s → step s o s' → P s' ∧ (o = none ∧ f s' = f s ∨ step' (f s) o (f s'))

theorem Refines.runs {step : σ → Option γ → σ → Prop} {step' : τ → Option γ → τ → Prop}
    {P : σ → Prop} {f : σ → τ} (h : Refines step step' P f) {s s' : σ} {l : List (Option γ)}
    (hs : P s) (hrun : Runs step s l s') :
    P s' ∧ ∃ l', Runs step' (f s) l' (f s') ∧ l'.reduceOption = l.reduceOption := by
  induction hrun with
  | nil s => exact ⟨hs, [], .nil _, rfl⟩
  | @cons s s₁ s' o l hstep _ ih =>
    obtain ⟨hs₁, hcase⟩ := h hs hstep
    obtain ⟨hs', l', hrun', hshow⟩ := ih hs₁
    refine ⟨hs', ?_⟩
    rcases hcase with ⟨rfl, hf⟩ | hstep'
    · exact ⟨l', hf ▸ hrun', by rw [hshow, List.reduceOption_cons_of_none]⟩
    · refine ⟨o :: l', .cons hstep' hrun', ?_⟩
      cases o with
      | none => rw [List.reduceOption_cons_of_none, List.reduceOption_cons_of_none, hshow]
      | some x => rw [List.reduceOption_cons_of_some, List.reduceOption_cons_of_some, hshow]

end Xv6Swap.Simulation
