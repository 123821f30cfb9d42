import Mathlib.Tactic
import Mathlib.Data.LawfulXor.Basic
import Mathlib.Logic.Function.Basic

/-!
# Parity of a family of blocks

`parity l f` accumulates the exclusive or of `f d` over a list `l` of positions, in the order of the
list, starting from zero: the shape of a loop that reconstructs a lost block from the surviving
ones. The values may be bit vectors or, as here, functions into bit vectors.

The facts an array of disks rests on are how the parity reacts to the change of one member
(`parity_update_of_mem`), that it does not see the others (`parity_congr`), and that dropping one
position from a full list leaves the value needed to recover it (`parity_filter_ne`).

A *stripe* is a family of members of which one may have failed. `recover` reads a member, from the
parity of the survivors if it is the failed one, and `stripeWrite` replaces a data member and
adjusts the parity member, as far as they survive. Whatever the stripe held, a write is read back
(`recover_stripeWrite_self`) and moves no other data member (`recover_stripeWrite_of_ne`).
-/

namespace Xv6Swap.Parity

instance xorOpPi {ι B : Type*} [XorOp B] : XorOp (ι → B) where
  xor f g := fun i => f i ^^^ g i

instance lawfulXorPi {ι B : Type*} [XorOp B] [Zero B] [LawfulXor B] : LawfulXor (ι → B) where
  xor_assoc _ _ _ := funext fun _ => LawfulXor.xor_assoc _ _ _
  xor_self _ := funext fun _ => LawfulXor.xor_self _
  xor_zero _ := funext fun _ => xor_zero _
  xor_comm _ _ := funext fun _ => LawfulXor.xor_comm _ _

/-- The exclusive or of `f d` over the positions `d` of `l`, accumulated in order. -/
def parity {ι B : Type*} [XorOp B] [Zero B] (l : List ι) (f : ι → B) : B :=
  l.foldl (fun acc d => acc ^^^ f d) 0

@[simp] theorem parity_nil {ι B : Type*} [XorOp B] [Zero B] (f : ι → B) :
    parity [] f = 0 := rfl

variable {ι B : Type*} [XorOp B] [Zero B] [LawfulXor B]

-- Mathlib's instances are about `XorOp.xor`, which `ac_rfl` does not see under the notation.
instance xor_associative : Std.Associative (α := B) (· ^^^ ·) := ⟨LawfulXor.xor_assoc⟩

instance xor_commutative : Std.Commutative (α := B) (· ^^^ ·) := ⟨LawfulXor.xor_comm⟩

theorem foldl_xor_eq (l : List ι) (f : ι → B) (a : B) :
    l.foldl (fun acc d => acc ^^^ f d) a = a ^^^ parity l f := by
  induction l generalizing a with
  | nil => simp [xor_zero]
  | cons d l ih =>
    simp only [parity, List.foldl_cons] at ih ⊢
    rw [ih (a ^^^ f d), ih (0 ^^^ f d), zero_xor, LawfulXor.xor_assoc]

@[simp] theorem parity_cons (d : ι) (l : List ι) (f : ι → B) :
    parity (d :: l) f = f d ^^^ parity l f := by
  rw [parity, List.foldl_cons, foldl_xor_eq, zero_xor]

/-- The parity reads only the positions of the list. -/
theorem parity_congr {l : List ι} {f g : ι → B} (h : ∀ d ∈ l, f d = g d) :
    parity l f = parity l g := by
  induction l with
  | nil => rfl
  | cons d l ih =>
    rw [parity_cons, parity_cons, h d (by simp), ih fun e he => h e (by simp [he])]

variable [DecidableEq ι]

theorem parity_update_of_notMem {l : List ι} {d : ι} (hd : d ∉ l) (f : ι → B) (v : B) :
    parity l (Function.update f d v) = parity l f :=
  parity_congr fun e he => Function.update_of_ne (fun h : e = d => hd (h ▸ he)) _ _

/-- Replacing one member changes the parity by the old and the new value. -/
theorem parity_update_of_mem {l : List ι} (hl : l.Nodup) {d : ι} (hd : d ∈ l) (f : ι → B) (v : B) :
    parity l (Function.update f d v) = parity l f ^^^ f d ^^^ v := by
  induction l with
  | nil => simp at hd
  | cons e l ih =>
    obtain ⟨he, hl⟩ := List.nodup_cons.1 hl
    rw [parity_cons, parity_cons]
    rcases List.mem_cons.1 hd with rfl | hd
    · rw [Function.update_self, parity_update_of_notMem he, LawfulXor.xor_comm (f d) (parity l f),
        xor_cancel_right, LawfulXor.xor_comm]
    · rw [Function.update_of_ne (fun h : e = d => he (h ▸ hd)), ih hl hd, LawfulXor.xor_assoc,
        LawfulXor.xor_assoc, LawfulXor.xor_assoc]

/-- Leaving one member out of the parity of a full list. -/
theorem parity_filter_ne {l : List ι} (hl : l.Nodup) {d : ι} (hd : d ∈ l) (f : ι → B) :
    parity (l.filter (· ≠ d)) f = parity l f ^^^ f d := by
  induction l with
  | nil => simp at hd
  | cons e l ih =>
    obtain ⟨he, hl⟩ := List.nodup_cons.1 hl
    rcases List.mem_cons.1 hd with rfl | hd
    · have hself : l.filter (· ≠ d) = l :=
        List.filter_eq_self.2 fun x hx => by simpa using fun h : x = d => he (h ▸ hx)
      rw [List.filter_cons_of_neg (by simp), hself, parity_cons, LawfulXor.xor_comm (f d),
        xor_cancel_right]
    · have hne : e ≠ d := fun h => he (h ▸ hd)
      rw [List.filter_cons_of_pos (by simpa using hne), parity_cons, parity_cons, ih hl hd,
        LawfulXor.xor_assoc]

/-! ## Stripes with a failed member -/

/-- The members that have not failed. -/
def survivors (l : List ι) (failed : Option ι) : List ι := l.filter fun d => some d ≠ failed

theorem mem_survivors {l : List ι} {failed : Option ι} {d : ι} :
    d ∈ survivors l failed ↔ d ∈ l ∧ failed ≠ some d := by
  simp only [survivors, List.mem_filter, decide_eq_true_eq, ne_comm]

theorem nodup_survivors {l : List ι} (hl : l.Nodup) (failed : Option ι) :
    (survivors l failed).Nodup :=
  hl.filter _

theorem survivors_some (l : List ι) (f : ι) : survivors l (some f) = l.filter (· ≠ f) := by
  simp [survivors]

/-- Read member `d` of the stripe `w`, from the survivors if it has failed. -/
def recover (l : List ι) (failed : Option ι) (w : ι → B) (d : ι) : B :=
  if failed = some d then parity (survivors l failed) w else w d

/-- Write `v` to data member `d` of the stripe `w` with parity member `p`. -/
def stripeWrite (l : List ι) (failed : Option ι) (w : ι → B) (d p : ι) (v : B) : ι → B :=
  if failed = some d then Function.update w p (w p ^^^ parity (survivors l failed) w ^^^ v)
  else if failed = some p then Function.update w d v
  else Function.update (Function.update w d v) p (w p ^^^ w d ^^^ v)

variable {l : List ι} {failed : Option ι}

/-- Reading sees only the survivors. -/
theorem recover_congr {w w' : ι → B} {d : ι} (hd : d ∈ l)
    (h : ∀ e ∈ survivors l failed, w e = w' e) : recover l failed w d = recover l failed w' d := by
  unfold recover
  split
  · exact parity_congr h
  · exact h d (mem_survivors.2 ⟨hd, ‹_›⟩)

/-- A read-modify-write of a member and the parity leaves the survivors' parity as it was. -/
theorem parity_update_update {l : List ι} (hl : l.Nodup) {d p : ι} (hd : d ∈ l) (hp : p ∈ l)
    (hdp : d ≠ p) (w : ι → B) (v : B) :
    parity l (Function.update (Function.update w d v) p (w p ^^^ w d ^^^ v)) = parity l w := by
  rw [parity_update_of_mem hl hp, parity_update_of_mem hl hd, Function.update_of_ne hdp.symm]
  have key : parity l w ^^^ w d ^^^ v ^^^ w p ^^^ (w p ^^^ w d ^^^ v) =
      parity l w ^^^ (w d ^^^ v ^^^ w p) ^^^ (w d ^^^ v ^^^ w p) := by ac_rfl
  rw [key, xor_cancel_right]

/-- A write is read back. -/
theorem recover_stripeWrite_self (hl : l.Nodup) {d p : ι} (hp : p ∈ l) (hdp : d ≠ p)
    (w : ι → B) (v : B) : recover l failed (stripeWrite l failed w d p v) d = v := by
  unfold recover stripeWrite
  by_cases hf : failed = some d
  · rw [if_pos hf, if_pos hf, parity_update_of_mem (nodup_survivors hl failed)
      (mem_survivors.2 ⟨hp, by simpa [hf] using hdp⟩)]
    have key : parity (survivors l failed) w ^^^ w p ^^^
        (w p ^^^ parity (survivors l failed) w ^^^ v) =
        v ^^^ (parity (survivors l failed) w ^^^ w p) ^^^
          (parity (survivors l failed) w ^^^ w p) := by ac_rfl
    rw [key, xor_cancel_right]
  · rw [if_neg hf, if_neg hf]
    split
    · exact Function.update_self ..
    · rw [Function.update_of_ne hdp, Function.update_self]

/-- A write moves no other data member. -/
theorem recover_stripeWrite_of_ne (hl : l.Nodup) {d e p : ι} (hd : d ∈ l) (hp : p ∈ l)
    (hdp : d ≠ p) (hep : e ≠ p) (hed : e ≠ d) (w : ι → B) (v : B) :
    recover l failed (stripeWrite l failed w d p v) e = recover l failed w e := by
  unfold recover stripeWrite
  by_cases hfd : failed = some d
  · have hfe : failed ≠ some e := by simpa [hfd] using hed.symm
    rw [if_neg hfe, if_neg hfe, if_pos hfd, Function.update_of_ne hep]
  rw [if_neg hfd]
  by_cases hfp : failed = some p
  · have hfe : failed ≠ some e := by simpa [hfp] using hep.symm
    rw [if_neg hfe, if_neg hfe, if_pos hfp, Function.update_of_ne hed]
  rw [if_neg hfp]
  split
  · exact parity_update_update (nodup_survivors hl failed) (mem_survivors.2 ⟨hd, hfd⟩)
      (mem_survivors.2 ⟨hp, hfp⟩) hdp w v
  · rw [Function.update_of_ne hep, Function.update_of_ne hed]

/-- With every member present, a write keeps the parity of the whole stripe. -/
theorem parity_stripeWrite_none (hl : l.Nodup) {d p : ι} (hd : d ∈ l) (hp : p ∈ l) (hdp : d ≠ p)
    (w : ι → B) (v : B) : parity l (stripeWrite l none w d p v) = parity l w := by
  simp only [stripeWrite, reduceCtorEq, if_false]
  exact parity_update_update hl hd hp hdp w v

/-- In a stripe of parity zero, a failed member is recovered as what it held. -/
theorem recover_eq_of_parity_zero (hl : l.Nodup) {w : ι → B} (h : parity l w = 0) {d : ι}
    (hd : d ∈ l) : recover l failed w d = w d := by
  unfold recover
  split
  · rename_i hf
    rw [hf, survivors_some, parity_filter_ne hl hd, h, zero_xor]
  · rfl

end Xv6Swap.Parity
