import Mathlib.Tactic
import Mathlib.Logic.Function.Basic
import Mathlib.Logic.Relation

/-!
# Interleaved systems

A system of threads `ι`, each with a local state in `L`, over one shared state in `G`. A thread
takes atomic steps; what it does is chosen by an action in `A` (for code that has no choice, the
action is trivial) and computed by `next`, which is `none` when the action is not enabled.

A run is a sequence of steps of any threads in any order. `Reaches ok` restricts the runs to those
in which every step meets the condition `ok` on the configuration before it; `Reaches.inv` is the
induction over such runs. `exec` executes an explicit schedule, so that a particular run can be
computed, and `execWhile` one whose steps all meet a condition. `withGhost` adds a history variable
to the shared state, which records what the steps did and has no influence on them. `Reaches.map`
takes a run to a run of a part of the system, for which some of the steps do nothing.
-/

namespace Xv6Swap.Interleave

/-- A configuration: the local state of every thread and the shared state. -/
structure Cfg (ι L G : Type*) where
  loc : ι → L
  mem : G

-- The numerals of the small types of threads that schedules are written in.
instance neZero_one : NeZero 1 := ⟨by decide⟩

instance neZero_two : NeZero 2 := ⟨by decide⟩

/-- The threads' atomic steps. -/
structure System (ι A L G : Type*) where
  next : ι → A → L → G → Option (L × G)

variable {ι A L G : Type*} [DecidableEq ι]

namespace System

/-- One step of thread `i`. -/
def step (S : System ι A L G) (c : Cfg ι L G) (i : ι) (a : A) : Option (Cfg ι L G) :=
  (S.next i a (c.loc i) c.mem).map fun r => ⟨Function.update c.loc i r.1, r.2⟩

/-- A step of some thread that meets `ok`. -/
def Step (S : System ι A L G) (ok : Cfg ι L G → ι → A → Prop) (c c' : Cfg ι L G) : Prop :=
  ∃ i a, ok c i a ∧ S.step c i a = some c'

/-- A run all of whose steps meet `ok`. -/
def Reaches (S : System ι A L G) (ok : Cfg ι L G → ι → A → Prop) : Cfg ι L G → Cfg ι L G → Prop :=
  Relation.ReflTransGen (S.Step ok)

/-- The condition that allows every step. -/
def any (_ : Cfg ι L G) (_ : ι) (_ : A) : Prop := True

variable {S : System ι A L G} {ok : Cfg ι L G → ι → A → Prop} {c c' : Cfg ι L G}

theorem step_eq_some {i : ι} {a : A} : S.step c i a = some c' ↔
    ∃ l g, S.next i a (c.loc i) c.mem = some (l, g) ∧ c' = ⟨Function.update c.loc i l, g⟩ := by
  simp only [step, Option.map_eq_some_iff, Prod.exists]
  exact ⟨fun ⟨l, g, h, e⟩ => ⟨l, g, h, e.symm⟩, fun ⟨l, g, h, e⟩ => ⟨l, g, h, e.symm⟩⟩

/-- A run that begins with a step of thread `i`. -/
theorem Reaches.cons {i : ι} {a : A} {l : L} {g : G} (hok : ok c i a)
    (hn : S.next i a (c.loc i) c.mem = some (l, g))
    (h : S.Reaches ok ⟨Function.update c.loc i l, g⟩ c') : S.Reaches ok c c' :=
  .head ⟨i, a, hok, step_eq_some.2 ⟨l, g, hn, rfl⟩⟩ h

theorem Reaches.trans {c'' : Cfg ι L G} (h : S.Reaches ok c c') (h' : S.Reaches ok c' c'') :
    S.Reaches ok c c'' :=
  Relation.ReflTransGen.trans h h'

/-- What every allowed step preserves holds along every allowed run. -/
theorem Reaches.inv {P : Cfg ι L G → Prop} (h : S.Reaches ok c c')
    (hstep : ∀ c i a l g, ok c i a → P c → S.next i a (c.loc i) c.mem = some (l, g) →
      P ⟨Function.update c.loc i l, g⟩) (hc : P c) : P c' := by
  induction h with
  | refl => exact hc
  | tail _ hs ih =>
    obtain ⟨i, a, hok, hs⟩ := hs
    obtain ⟨l, g, hn, rfl⟩ := step_eq_some.1 hs
    exact hstep _ i a l g hok ih hn

/-- Execute a schedule: who moves, and with which action. -/
def exec (S : System ι A L G) : List (ι × A) → Cfg ι L G → Option (Cfg ι L G)
  | [], c => some c
  | (i, a) :: sched, c => (S.step c i a).bind (S.exec sched)

/-- An executed schedule is a run. -/
theorem reaches_of_exec {sched : List (ι × A)} (h : S.exec sched c = some c') :
    S.Reaches any c c' := by
  induction sched generalizing c with
  | nil =>
    obtain rfl := Option.some.inj h
    exact .refl
  | cons x sched ih =>
    obtain ⟨i, a⟩ := x
    obtain ⟨d, hd, hrest⟩ := Option.bind_eq_some_iff.1 h
    exact .head ⟨i, a, trivial, hd⟩ (ih hrest)

/-- Execute a schedule as long as its steps meet `ok`. -/
def execWhile (S : System ι A L G) (ok : Cfg ι L G → ι → A → Prop)
    [∀ c i a, Decidable (ok c i a)] : List (ι × A) → Cfg ι L G → Option (Cfg ι L G)
  | [], c => some c
  | (i, a) :: sched, c =>
    if ok c i a then (S.step c i a).bind (S.execWhile ok sched) else none

theorem reaches_of_execWhile [∀ c i a, Decidable (ok c i a)] {sched : List (ι × A)}
    (h : S.execWhile ok sched c = some c') : S.Reaches ok c c' := by
  induction sched generalizing c with
  | nil =>
    obtain rfl := Option.some.inj h
    exact .refl
  | cons x sched ih =>
    obtain ⟨i, a⟩ := x
    rw [execWhile] at h
    split at h
    · rename_i hok
      obtain ⟨d, hd, hrest⟩ := Option.bind_eq_some_iff.1 h
      exact .head ⟨i, a, hok, hd⟩ (ih hrest)
    · cases h

/-! ## History variables -/

variable {X : Type*}

/-- The system with a further component of the shared state, which each step updates by what it did
to its thread and to the shared state. -/
def withGhost (S : System ι A L G) (upd : ι → L × G → L × G → X → X) : System ι A L (G × X) where
  next i a l g := (S.next i a l g.1).map fun r => (r.1, r.2, upd i (l, g.1) r g.2)

omit [DecidableEq ι] in
theorem withGhost_next {upd : ι → L × G → L × G → X → X} {i : ι} {a : A} {l l' : L}
    {g g' : G × X} (h : (S.withGhost upd).next i a l g = some (l', g')) :
    S.next i a l g.1 = some (l', g'.1) ∧ g'.2 = upd i (l, g.1) (l', g'.1) g.2 := by
  obtain ⟨⟨l₁, g₁⟩, hn, heq⟩ := Option.map_eq_some_iff.1 h
  obtain ⟨rfl, rfl⟩ := Prod.mk.inj heq
  exact ⟨hn, rfl⟩

end System

/-- What a part of the system has of a configuration. -/
def Cfg.map {ι L G L' G' : Type*} (f : L → L') (h : G → G') (c : Cfg ι L G) : Cfg ι L' G' :=
  ⟨fun i => f (c.loc i), h c.mem⟩

/-- If every step is a step of the part or does nothing to it, a run is a run of the part. -/
theorem System.Reaches.map {B L' G' : Type*} {S : System ι A L G} {T : System ι B L' G'}
    {ok : Cfg ι L G → ι → A → Prop} {c c' : Cfg ι L G} (hrun : S.Reaches ok c c') (f : L → L')
    (h : G → G')
    (hstep : ∀ i a l g l' g', S.next i a l g = some (l', g') →
      f l' = f l ∧ h g' = h g ∨ ∃ b, T.next i b (f l) (h g) = some (f l', h g')) :
    T.Reaches System.any (c.map f h) (c'.map f h) := by
  induction hrun with
  | refl => exact .refl
  | tail _ hs ih =>
    obtain ⟨i, a, -, hs⟩ := hs
    obtain ⟨l, g, hn, rfl⟩ := System.step_eq_some.1 hs
    have hloc : ∀ loc : ι → L, (fun j => f (Function.update loc i l j)) =
        Function.update (fun j => f (loc j)) i (f l) := fun loc => by
      funext j
      by_cases hj : j = i
      · simp [hj]
      · simp [hj]
    rcases hstep i a _ _ l g hn with ⟨hl, hg⟩ | ⟨b, hb⟩
    · convert ih using 1
      simp only [Cfg.map, hloc, hl, hg]
      rw [Function.update_eq_self]
    · refine Relation.ReflTransGen.tail ih ⟨i, b, trivial, System.step_eq_some.2 ⟨_, _, hb, ?_⟩⟩
      simp only [Cfg.map, hloc]

/-- A configuration without the history variable. -/
def Cfg.erase {ι L G X : Type*} (c : Cfg ι L (G × X)) : Cfg ι L G := ⟨c.loc, c.mem.1⟩

end Xv6Swap.Interleave
