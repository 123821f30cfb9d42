import Xv6Swap.Paging.Process
import Xv6Swap.Paging.Grow

/-!
# Flat memory

What processes should see: each has a memory of its own, without page tables, frames or swap. A page
is created by `sbrk`, with zeros, and is dropped when the process shrinks or is reaped. Any access
and any `sbrk` may fail, and a failure changes nothing, except that a failed `wait` may have copied
some bytes of the exit status.
-/

namespace Xv6Swap.Paging

open Raid (Byte Page pgSize)
open Kernel (sbrkSize)

/-- The memories of the processes, and the statuses they exited with. -/
structure Flat where
  size : ProcIdx → ℕ
  page : ProcIdx → ℕ → Page
  status : ProcIdx → BitVec 32

namespace Flat

def read (f : Flat) (p : ProcIdx) (va : ℕ) : Byte := f.page p (va / pgSize) (pageOffset va)

def setPage (f : Flat) (p : ProcIdx) (v : ℕ) (x : Page) : Flat :=
  { f with page := Function.update f.page p (Function.update (f.page p) v x) }

def write (f : Flat) (p : ProcIdx) (va : ℕ) (b : Byte) : Flat :=
  f.setPage p (va / pgSize) (Function.update (f.page p (va / pgSize)) (pageOffset va) b)

/-- Bytes are written one after another. -/
def copy (f : Flat) (p : ProcIdx) : ℕ → List Byte → Flat
  | _, [] => f
  | va, b :: bs => (f.write p va b).copy p (va + 1) bs

/-- A new size. Pages beyond the old one are created with zeros. -/
def resize (f : Flat) (p : ProcIdx) (sz : ℕ) : Flat :=
  { f with
    size := Function.update f.size p sz
    page := Function.update f.page p fun v =>
      if npages (f.size p) ≤ v then 0 else f.page p v }

def exit (f : Flat) (p : ProcIdx) (status : BitVec 32) : Flat :=
  { f with status := Function.update f.status p status }

/-- The process is gone. -/
def drop (f : Flat) (q : ProcIdx) : Flat :=
  { f with
    size := Function.update f.size q 0
    status := Function.update f.status q 0 }

/-- The steps of processes with flat memories. -/
inductive Step : Flat → Op × Outcome → Flat → Prop
  | load (f : Flat) (p : ProcIdx) (va : ℕ) : Step f (.load p va, .value (f.read p va)) f
  | loadFailed (f : Flat) (p : ProcIdx) (va : ℕ) : Step f (.load p va, .failed) f
  | store (f : Flat) (p : ProcIdx) (va : ℕ) (b : Byte) :
      Step f (.store p va b, .done) (f.write p va b)
  | storeFailed (f : Flat) (p : ProcIdx) (va : ℕ) (b : Byte) : Step f (.store p va b, .failed) f
  | sbrk (f : Flat) (p : ProcIdx) (n : Int32) (eager : Bool) :
      Step f (.sbrk p n eager, .done) (f.resize p (sbrkSize (f.size p) n.toInt))
  | sbrkFailed (f : Flat) (p : ProcIdx) (n : Int32) (eager : Bool) :
      Step f (.sbrk p n eager, .failed) f
  | exit (f : Flat) (p : ProcIdx) (status : BitVec 32) :
      Step f (.exit p status, .done) (f.exit p status)
  | wait (f : Flat) (p q : ProcIdx) : Step f (.wait p q 0, .done) (f.drop q)
  | waitStatus (f : Flat) (p q : ProcIdx) {addr : ℕ} (h : addr ≠ 0) :
      Step f (.wait p q addr, .done) ((f.copy p addr (intBytes (f.status q))).drop q)
  | waitFailed (f : Flat) (p q : ProcIdx) (addr m : ℕ) :
      Step f (.wait p q addr, .failed) (f.copy p addr ((intBytes (f.status q)).take m))

/-! ## Copying -/

theorem copy_append (f : Flat) (p : ProcIdx) (va : ℕ) (xs ys : List Byte) :
    f.copy p va (xs ++ ys) = (f.copy p va xs).copy p (va + xs.length) ys := by
  induction xs generalizing f va with
  | nil => simp [copy]
  | cons x xs ih =>
    simp only [List.cons_append, copy, ih, List.length_cons]
    congr 1
    omega

@[simp] theorem copy_size (f : Flat) (p : ProcIdx) (va : ℕ) (xs : List Byte) :
    (f.copy p va xs).size = f.size := by
  induction xs generalizing f va with
  | nil => rfl
  | cons x xs ih => rw [copy, ih, write, setPage]

@[simp] theorem copy_status (f : Flat) (p : ProcIdx) (va : ℕ) (xs : List Byte) :
    (f.copy p va xs).status = f.status := by
  induction xs generalizing f va with
  | nil => rfl
  | cons x xs ih => rw [copy, ih, write, setPage]

theorem setPage_setPage (f : Flat) (p : ProcIdx) (v : ℕ) (x y : Page) :
    (f.setPage p v x).setPage p v y = f.setPage p v y := by
  simp [setPage]

theorem setPage_self (f : Flat) (p : ProcIdx) (v : ℕ) : f.setPage p v (f.page p v) = f := by
  simp [setPage]

theorem overlay_nil (x : Page) (i : ℕ) : overlay x i [] = x := by
  funext j
  simp [overlay]

theorem overlay_cons (x : Page) (b : Byte) (bs : List Byte) (va : ℕ) :
    overlay (Function.update x (pageOffset va) b) (va % pgSize + 1) bs =
      overlay x (va % pgSize) (b :: bs) := by
  funext j
  simp only [overlay, List.length_cons]
  by_cases hj : (j : ℕ) = va % pgSize
  · have hoff : j = pageOffset va := Fin.ext hj
    subst hoff
    rw [if_neg (by omega), if_pos (by omega), Function.update_self, hj, Nat.sub_self]
    rfl
  · have hoff : j ≠ pageOffset va := fun e => hj (congrArg Fin.val e)
    rw [Function.update_of_ne hoff]
    by_cases hin : va % pgSize + 1 ≤ j ∧ (j : ℕ) < va % pgSize + 1 + bs.length
    · rw [if_pos hin, if_pos (by omega)]
      obtain ⟨m, hm⟩ : ∃ m, (j : ℕ) - va % pgSize = m + 1 := ⟨j - va % pgSize - 1, by omega⟩
      rw [hm, List.getD_cons_succ]
      congr 1
      omega
    · rw [if_neg hin, if_neg (by omega)]

/-- Bytes that go to one page. -/
theorem copy_eq (f : Flat) (p : ProcIdx) (va : ℕ) (xs : List Byte)
    (h : va % pgSize + xs.length ≤ pgSize) :
    f.copy p va xs =
      f.setPage p (va / pgSize) (overlay (f.page p (va / pgSize)) (va % pgSize) xs) := by
  induction xs generalizing f va with
  | nil => rw [copy, overlay_nil, setPage_self]
  | cons x xs ih =>
    rw [List.length_cons] at h
    rw [copy]
    cases xs with
    | nil => rw [copy, write, ← overlay_cons, overlay_nil]
    | cons y ys =>
      rw [List.length_cons] at h
      have hlt : va % pgSize + 1 < pgSize := by omega
      have hdiv : (va + 1) / pgSize = va / pgSize := by
        simp only [pgSize] at hlt ⊢
        omega
      have hmod : (va + 1) % pgSize = va % pgSize + 1 := by
        simp only [pgSize] at hlt ⊢
        omega
      rw [ih _ _ (by rw [hmod, List.length_cons]; omega), hdiv, hmod, write, setPage_setPage,
        ← overlay_cons]
      congr 2
      simp [setPage]

theorem read_write (f : Flat) (p q : ProcIdx) (va a : ℕ) (b : Byte) :
    (f.write p va b).read q a = if q = p ∧ a = va then b else f.read q a := by
  simp only [read, write, setPage]
  by_cases hq : q = p
  · subst hq
    rw [Function.update_self]
    by_cases hdiv : a / pgSize = va / pgSize
    · have hoff : pageOffset a = pageOffset va ↔ a = va := by
        constructor
        · intro he
          have hmod : a % pgSize = va % pgSize := congrArg Fin.val he
          simp only [pgSize] at hdiv hmod
          omega
        · rintro rfl
          rfl
      rw [hdiv, Function.update_self, Function.update_apply]
      simp only [hoff, true_and]
    · have hne : a ≠ va := fun he => hdiv (by rw [he])
      rw [Function.update_of_ne hdiv, if_neg (fun h => hne h.2)]
  · rw [Function.update_of_ne hq, if_neg (fun h => hq h.1)]

/-- A copy replaces the bytes of its range and no others. -/
theorem read_copy (f : Flat) (p q : ProcIdx) (va a : ℕ) (xs : List Byte) :
    (f.copy p va xs).read q a =
      if q = p ∧ va ≤ a ∧ a < va + xs.length then xs.getD (a - va) 0 else f.read q a := by
  induction xs generalizing f va with
  | nil =>
    rw [copy, if_neg]
    rintro ⟨-, hle, hlt⟩
    simp only [List.length_nil] at hlt
    omega
  | cons x xs ih =>
    rw [copy, ih, read_write, List.length_cons]
    by_cases hq : q = p
    · subst hq
      simp only [true_and]
      by_cases ha : a = va
      · subst ha
        rw [if_neg (by omega), if_pos rfl, if_pos (by omega), Nat.sub_self]
        rfl
      · rw [if_neg ha]
        by_cases hin : va + 1 ≤ a ∧ a < va + 1 + xs.length
        · obtain ⟨m, hm⟩ : ∃ m, a - va = m + 1 := ⟨a - va - 1, by omega⟩
          rw [if_pos hin, if_pos (by omega), hm, List.getD_cons_succ]
          congr 1
          omega
        · rw [if_neg hin, if_neg (by omega)]
    · simp only [hq, false_and, if_false]

end Flat

end Xv6Swap.Paging
