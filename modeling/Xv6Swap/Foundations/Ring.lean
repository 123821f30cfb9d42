import Mathlib.Tactic
import Mathlib.Data.List.Nodup
import Mathlib.Logic.Function.Basic

/-!
# Circular doubly linked lists

Cells of a pool `α` and a head, which is no cell, are linked in both directions: a link leads to a
cell or, as `none`, to the head. `Ring L l` says that the links of `L` go round from the head
through the cells of `l`, each once, back to the head, and the same way backwards.

A search along the links is a search of the list (`Ring.search_next`, `Ring.search_prev`). The
operations are cutting a cell out (`Ring.unlink`) and putting one behind the head
(`Ring.pushFront`).
-/

namespace Xv6Swap.Pool

/-- The links of the cells and of the head (`none`). -/
@[ext] structure Links (α : Type*) where
  next : Option α → Option α
  prev : Option α → Option α

namespace Links

variable {α : Type*}

/-- The head alone. -/
def empty : Links α := ⟨fun _ => none, fun _ => none⟩

/-- From `a`, the links go through `l` to `b` and back. -/
def Path (L : Links α) : Option α → List α → Option α → Prop
  | a, [], b => L.next a = b ∧ L.prev b = a
  | a, c :: l, b => L.next a = some c ∧ L.prev (some c) = a ∧ L.Path (some c) l b

variable [DecidableEq α]

/-- `b->next->prev = b->prev; b->prev->next = b->next;` -/
def unlink (b : α) (L : Links α) : Links α :=
  let L := { L with prev := Function.update L.prev (L.next (some b)) (L.prev (some b)) }
  { L with next := Function.update L.next (L.prev (some b)) (L.next (some b)) }

/-- `b->next = head.next; b->prev = &head; head.next->prev = b; head.next = b;` -/
def pushFront (b : α) (L : Links α) : Links α :=
  let L := { L with next := Function.update L.next (some b) (L.next none) }
  let L := { L with prev := Function.update L.prev (some b) none }
  let L := { L with prev := Function.update L.prev (L.next none) (some b) }
  { L with next := Function.update L.next none (some b) }

end Links

/-- Follow `link` from a cell to the first one that satisfies `p`, in at most `fuel` steps. The
search ends at the head. -/
def search {α : Type*} (link : Option α → Option α) (p : α → Bool) :
    ℕ → Option α → Option α
  | fuel + 1, some b => if p b then some b else search link p fuel (link (some b))
  | _, _ => none

/-- The links go round through `l`. -/
structure Ring {α : Type*} (L : Links α) (l : List α) : Prop where
  path : L.Path none l none
  nodup : l.Nodup

section Path

variable {α : Type*} {L L' : Links α} {a b : Option α} {l l₁ l₂ : List α} {c : α}

theorem path_nil : L.Path a [] b ↔ L.next a = b ∧ L.prev b = a := Iff.rfl

theorem path_cons :
    L.Path a (c :: l) b ↔ L.next a = some c ∧ L.prev (some c) = a ∧ L.Path (some c) l b := Iff.rfl

theorem path_append : L.Path a (l₁ ++ c :: l₂) b ↔ L.Path a l₁ (some c) ∧ L.Path (some c) l₂ b := by
  induction l₁ generalizing a with
  | nil => simp only [List.nil_append, path_cons, path_nil, and_assoc]
  | cons d l₁ ih => simp only [List.cons_append, path_cons, ih, and_assoc]

/-- Only the links of the cells on the way matter. -/
theorem Links.Path.congr (h : L.Path a l b)
    (hnext : ∀ x, x = a ∨ (∃ d ∈ l, x = some d) → L'.next x = L.next x)
    (hprev : ∀ x, x = b ∨ (∃ d ∈ l, x = some d) → L'.prev x = L.prev x) : L'.Path a l b := by
  induction l generalizing a with
  | nil =>
    obtain ⟨hn, hp⟩ := h
    exact ⟨(hnext a (.inl rfl)).trans hn, (hprev b (.inl rfl)).trans hp⟩
  | cons c l ih =>
    obtain ⟨hn, hp, h⟩ := h
    refine ⟨(hnext a (.inl rfl)).trans hn,
      (hprev _ (.inr ⟨c, List.mem_cons_self, rfl⟩)).trans hp, ih h ?_ ?_⟩
    · rintro x (rfl | ⟨d, hd, rfl⟩)
      · exact hnext _ (.inr ⟨c, List.mem_cons_self, rfl⟩)
      · exact hnext _ (.inr ⟨d, List.mem_cons_of_mem c hd, rfl⟩)
    · rintro x (rfl | ⟨d, hd, rfl⟩)
      · exact hprev _ (.inl rfl)
      · exact hprev _ (.inr ⟨d, List.mem_cons_of_mem c hd, rfl⟩)

/-- The way back. -/
theorem Links.Path.reverse (h : L.Path a l b) : Links.Path ⟨L.prev, L.next⟩ b l.reverse a := by
  induction l generalizing a with
  | nil => exact ⟨h.2, h.1⟩
  | cons c l ih =>
    obtain ⟨hn, hp, h⟩ := h
    rw [List.reverse_cons]
    exact path_append.2 ⟨ih h, hp, hn⟩

/-- The cell before the end of a way. -/
theorem Links.Path.prev_mem {a : Option α} {c : α} (h : L.Path a l (some c)) :
    L.prev (some c) = a ∨ ∃ d ∈ l, L.prev (some c) = some d := by
  induction l generalizing a with
  | nil => exact .inl h.2
  | cons d l ih =>
    rcases ih h.2.2 with hd | ⟨e, he, hprev⟩
    · exact .inr ⟨d, List.mem_cons_self, hd⟩
    · exact .inr ⟨e, List.mem_cons_of_mem d he, hprev⟩

/-- A way to `c` whose last link is led on to `y`. -/
theorem Links.Path.redirect {L' : Links α} {a y : Option α} {c : α} (h : L.Path a l (some c))
    (hnodup : l.Nodup) (ha : ∀ d ∈ l, a ≠ some d) (hy : ∀ d ∈ l, y ≠ some d)
    (hlast : L'.next (L.prev (some c)) = y) (hback : L'.prev y = L.prev (some c))
    (hnext : ∀ x, x ≠ L.prev (some c) → L'.next x = L.next x)
    (hprev : ∀ x, x ≠ y → L'.prev x = L.prev x) : L'.Path a l y := by
  induction l generalizing a with
  | nil =>
    rw [h.2] at hlast hback
    exact ⟨hlast, hback⟩
  | cons d l ih =>
    obtain ⟨hn, hp, h⟩ := h
    obtain ⟨hd, hnodup⟩ := List.nodup_cons.1 hnodup
    -- the last link is not the one from `a`
    have hne : a ≠ L.prev (some c) := by
      rcases h.prev_mem with heq | ⟨e, he, heq⟩
      · rw [heq]
        exact ha d List.mem_cons_self
      · rw [heq]
        exact ha e (List.mem_cons_of_mem d he)
    refine ⟨(hnext a hne).trans hn, (hprev _ (hy d List.mem_cons_self).symm).trans hp, ?_⟩
    refine ih h hnodup (fun e he heq => hd ?_) fun e he => hy e (List.mem_cons_of_mem d he)
    rwa [Option.some.inj heq]

/-- A search from the first cell is a search of the list. -/
theorem Links.Path.search (h : L.Path a l none) (p : α → Bool) {fuel : ℕ}
    (hfuel : l.length ≤ fuel) :
    search L.next p fuel (L.next a) = l.find? p := by
  induction l generalizing a fuel with
  | nil =>
    rw [h.1]
    cases fuel <;> rfl
  | cons c l ih =>
    obtain ⟨hn, -, h⟩ := h
    obtain ⟨fuel, rfl⟩ : ∃ n, fuel = n + 1 := ⟨fuel - 1, by simp at hfuel; omega⟩
    rw [hn, Pool.search, List.find?_cons]
    cases p c with
    | true => rfl
    | false => exact ih h (by simpa using hfuel)

end Path

section Ring

variable {α : Type*} {L : Links α} {l l₁ l₂ : List α} {b : α}

theorem Ring.search_next (h : Ring L l) (p : α → Bool) {fuel : ℕ} (hfuel : l.length ≤ fuel) :
    search L.next p fuel (L.next none) = l.find? p :=
  h.path.search p hfuel

theorem Ring.search_prev (h : Ring L l) (p : α → Bool) {fuel : ℕ} (hfuel : l.length ≤ fuel) :
    search L.prev p fuel (L.prev none) = l.reverse.find? p :=
  h.path.reverse.search p (by rwa [List.length_reverse])

theorem ring_empty : Ring (.empty : Links α) [] := ⟨⟨rfl, rfl⟩, List.nodup_nil⟩

variable [DecidableEq α]

/-- The links after a cell `b` is cut out between `x` and `y`. -/
theorem unlink_eq {x y : Option α} (hprev : L.prev (some b) = x) (hnext : L.next (some b) = y)
    (hy : y ≠ some b) :
    L.unlink b = ⟨Function.update L.next x y, Function.update L.prev y x⟩ := by
  have hx : Function.update L.prev y x (some b) = x := by
    rw [Function.update_of_ne hy.symm, hprev]
  simp only [Links.unlink, hnext, hprev, hx]

/-- Joining the ways to and from a cell that is cut out. -/
theorem Links.Path.unlink {a b : Option α} {c : α} (h₁ : L.Path a l₁ (some c))
    (h₂ : L.Path (some c) l₂ b) (hnodup : (l₁ ++ c :: l₂).Nodup)
    (ha : ∀ d ∈ l₁ ++ c :: l₂, a ≠ some d) (hb : ∀ d ∈ l₁ ++ c :: l₂, b ≠ some d) :
    (L.unlink c).Path a (l₁ ++ l₂) b := by
  obtain ⟨hnodup₁, hnodup₂, hdisj⟩ := List.nodup_append.1 hnodup
  obtain ⟨hc, hnodup₂⟩ := List.nodup_cons.1 hnodup₂
  have ha₁ : ∀ d ∈ l₁, a ≠ some d := fun d hd => ha d (List.mem_append_left _ hd)
  cases l₂ with
  | nil =>
    have hbc : b ≠ some c := hb c (List.mem_append_right _ List.mem_cons_self)
    rw [List.append_nil, unlink_eq rfl h₂.1 hbc]
    refine h₁.redirect hnodup₁ ha₁ (fun d hd => hb d (List.mem_append_left _ hd))
      (Function.update_self ..) (Function.update_self ..)
      (fun x hx => Function.update_of_ne hx ..) fun x hx => Function.update_of_ne hx ..
  | cons e l₂ =>
    obtain ⟨hce, hec, h₂⟩ := h₂
    obtain ⟨he, hnodup₂⟩ := List.nodup_cons.1 hnodup₂
    have hce' : some e ≠ some c := fun heq => hc (Option.some.inj heq ▸ List.mem_cons_self)
    have he₁ : ∀ d ∈ l₁, some e ≠ some d := fun d hd heq =>
      hdisj d hd e (List.mem_cons_of_mem c List.mem_cons_self) (Option.some.inj heq).symm
    rw [unlink_eq rfl hce hce']
    refine path_append.2 ⟨h₁.redirect hnodup₁ ha₁ he₁ (Function.update_self ..)
      (Function.update_self ..) (fun x hx => Function.update_of_ne hx ..)
      fun x hx => Function.update_of_ne hx .., h₂.congr ?_ ?_⟩
    · -- the cell before `c` is not one after it
      intro x hx
      refine Function.update_of_ne ?_ ..
      have hx' : ∃ d ∈ e :: l₂, x = some d := by
        rcases hx with rfl | ⟨d, hd, rfl⟩
        · exact ⟨e, List.mem_cons_self, rfl⟩
        · exact ⟨d, List.mem_cons_of_mem e hd, rfl⟩
      obtain ⟨d, hd, rfl⟩ := hx'
      rcases h₁.prev_mem with heq | ⟨f, hf, heq⟩
      · rw [heq]
        exact (ha d (List.mem_append_right _ (List.mem_cons_of_mem c hd))).symm
      · rw [heq]
        exact fun h => hdisj f hf d (List.mem_cons_of_mem c hd) (Option.some.inj h).symm
    · rintro x (rfl | ⟨d, hd, rfl⟩)
      · exact Function.update_of_ne
          (hb e (List.mem_append_right _ (List.mem_cons_of_mem c List.mem_cons_self))) ..
      · exact Function.update_of_ne (fun heq : some d = some e => he (Option.some.inj heq ▸ hd)) ..

/-- A cell is cut out. -/
theorem Ring.unlink (h : Ring L (l₁ ++ b :: l₂)) : Ring (L.unlink b) (l₁ ++ l₂) := by
  obtain ⟨h₁, h₂⟩ := path_append.1 h.path
  refine ⟨h₁.unlink h₂ h.nodup (fun _ _ => nofun) fun _ _ => nofun, ?_⟩
  exact h.nodup.sublist (List.Sublist.append_left (List.sublist_cons_self b l₂) l₁)

theorem pushFront_eq {y : Option α} (hnext : L.next none = y) :
    L.pushFront b = ⟨Function.update (Function.update L.next (some b) y) none (some b),
      Function.update (Function.update L.prev (some b) none) y (some b)⟩ := by
  have hy : Function.update L.next (some b) y none = y := by
    rw [Function.update_of_ne (Option.some_ne_none b).symm, hnext]
  simp only [Links.pushFront, hnext, hy]

/-- A new cell behind the head. -/
theorem Ring.pushFront (h : Ring L l) (hb : b ∉ l) : Ring (L.pushFront b) (b :: l) := by
  refine ⟨?_, List.nodup_cons.2 ⟨hb, h.nodup⟩⟩
  have hpath := h.path
  cases l with
  | nil =>
    rw [pushFront_eq hpath.1]
    simp [Links.Path]
  | cons c l =>
    obtain ⟨hnext, hprev, hpath⟩ := hpath
    obtain ⟨hbc, hbl⟩ : b ≠ c ∧ b ∉ l := by simpa using hb
    obtain ⟨hcl, -⟩ := List.nodup_cons.1 h.nodup
    rw [pushFront_eq hnext]
    refine ⟨by simp, by simp [hbc], by simp, by simp, hpath.congr ?_ ?_⟩
    · rintro x (rfl | ⟨d, hd, rfl⟩)
      · simp [hbc.symm]
      · have hdb : d ≠ b := fun heq => hbl (heq ▸ hd)
        simp [hdb]
    · rintro x (rfl | ⟨d, hd, rfl⟩)
      · simp
      · have hdb : d ≠ b := fun heq => hbl (heq ▸ hd)
        have hdc : d ≠ c := fun heq => hcl (heq ▸ hd)
        simp [hdb, hdc]

end Ring

end Xv6Swap.Pool
