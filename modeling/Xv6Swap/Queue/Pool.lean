import Xv6Swap.Queue.Invariant

/-!
# The request pool does not run out

Every entry in use belongs to a process that is inside `submit_disk_request`, and a process has one
entry: `DispatchInv.card_used_le`. A process that comes in is not yet one of them, so that with at
most `MAX_DISK_REQS` processes it finds an entry (`DispatchInv.allocReq_isSome`), and none of them
panics (`pool_suffices`).
-/

namespace Xv6Swap.Queue

open Pool Interleave

variable {β ι : Type*}

/-- The entries in use. -/
def DiskQueue.usedReqs (q : DiskQueue β ι) : Finset ReqIdx :=
  Finset.univ.filter fun r => (q.pool r).used = true

/-- The process is inside `submit_disk_request`. -/
def Pc.inSubmit : Pc → Bool
  | .idle => false
  | _ => true

theorem Pc.inSubmit_of_own {pc : Pc} {r : ReqIdx} (h : pc.own = some r) : pc.inSubmit = true := by
  cases pc with
  | idle => cases h
  | _ => rfl

/-- The processes inside `submit_disk_request`. -/
def submitters [Fintype ι] (loc : ι → Pc) : Finset ι :=
  Finset.univ.filter fun i => (loc i).inSubmit = true

@[simp]
theorem DiskQueue.mem_usedReqs {q : DiskQueue β ι} {r : ReqIdx} :
    r ∈ q.usedReqs ↔ (q.pool r).used = true := by
  simp [usedReqs]

@[simp]
theorem mem_submitters [Fintype ι] {loc : ι → Pc} {i : ι} :
    i ∈ submitters loc ↔ (loc i).inSubmit = true := by
  simp [submitters]

variable [DecidableEq β] [DecidableEq ι] {c : Cfg ι Pc (DiskState β ι)} {i : ι}

/-- An entry in use has an owner. -/
theorem DispatchInv.exists_own (hinv : DispatchInv c) {r : ReqIdx}
    (hused : (c.mem.q.pool r).used = true) : ∃ i, (c.loc i).own = some r := by
  have hentry := hinv.entry r
  unfold EntryInv at hentry
  generalize life c.mem.log r = st at hentry
  cases hentry with
  | free h => simp [hused] at h
  | queued _ _ _ _ howns => exact ⟨_, (howns _).2 rfl⟩
  | inHand _ _ _ _ howns => exact ⟨_, (howns _).2 rfl⟩
  | moved _ _ _ howns => exact ⟨_, (howns _).2 rfl⟩
  | completed _ _ _ howns => exact ⟨_, (howns _).2 rfl⟩

theorem DispatchInv.card_used_le [Fintype ι] (hinv : DispatchInv c) :
    c.mem.q.usedReqs.card ≤ (submitters c.loc).card := by
  -- every entry in use is the own one of some process inside
  have hsub : c.mem.q.usedReqs.image some ⊆ (submitters c.loc).image fun i => (c.loc i).own := by
    intro x hx
    obtain ⟨r, hr, rfl⟩ := Finset.mem_image.1 hx
    obtain ⟨i, hi⟩ := hinv.exists_own (DiskQueue.mem_usedReqs.1 hr)
    exact Finset.mem_image.2 ⟨i, mem_submitters.2 (Pc.inSubmit_of_own hi), hi⟩
  calc c.mem.q.usedReqs.card
      = (c.mem.q.usedReqs.image some).card :=
        (Finset.card_image_of_injective _ (Option.some_injective _)).symm
    _ ≤ ((submitters c.loc).image fun i => (c.loc i).own).card := Finset.card_le_card hsub
    _ ≤ (submitters c.loc).card := Finset.card_image_le

/-- A process that is not inside finds an entry. -/
theorem DispatchInv.allocReq_isSome [Fintype ι] (hcard : Fintype.card ι ≤ maxDiskReqs)
    (hinv : DispatchInv c) (hi : c.loc i = .idle) : c.mem.q.allocReq.isSome := by
  cases halloc : c.mem.q.allocReq with
  | some r => rfl
  | none =>
    have hall : c.mem.q.usedReqs = Finset.univ := by
      ext r
      simp [DiskQueue.allocReq_eq_none halloc r]
    have hlt : (submitters c.loc).card < Fintype.card ι := by
      refine Finset.card_lt_card (Finset.ssubset_univ_iff.2 fun huniv => ?_)
      have hmem := mem_submitters.1 (huniv ▸ Finset.mem_univ i)
      rw [hi] at hmem
      cases hmem
    have hle := hinv.card_used_le
    rw [hall, Finset.card_univ, Fintype.card_fin] at hle
    omega

omit [DecidableEq β] [DecidableEq ι] in
theorem awaitRequest_ne_panicked (i : ι) (own : ReqIdx) (d : DiskState β ι) :
    (awaitRequest i own d).1 ≠ .panicked := by
  unfold awaitRequest
  split
  · exact Pc.noConfusion
  · exact Pc.noConfusion

omit [DecidableEq β] [DecidableEq ι] in
/-- Only a process that finds no entry panics. -/
theorem submitDiskRequest_ne_panicked (i : ι) (b : β) (blockno : UInt32) (type : Int32)
    {d : DiskState β ι} (h : d.q.allocReq.isSome) :
    (submitDiskRequest i b blockno type d).1 ≠ .panicked := by
  unfold submitDiskRequest
  split
  · rename_i hnone
    simp [hnone] at h
  · dsimp only
    split
    · exact Pc.noConfusion
    · exact awaitRequest_ne_panicked _ _ _

omit [DecidableEq β] [DecidableEq ι] in
theorem runStep_ne_panicked {level : ι → Int32} {d d' : DiskState β ι} {pc pc' : Pc}
    (h : runStep i level d pc = some (pc', d')) : pc' ≠ .panicked := by
  cases pc with
  | idle => cases h
  | panicked => cases h
  | dequeue own =>
    simp only [runStep] at h
    split at h
    · obtain ⟨rfl, -⟩ := Prod.mk.inj (Option.some.inj h)
      exact Pc.noConfusion
    · obtain ⟨rfl, -⟩ := Prod.mk.inj (Option.some.inj h)
      exact Pc.noConfusion
  | returned own | sleeping own =>
    have hpc : (awaitRequest i own d).1 = pc' := congrArg Prod.fst (Option.some.inj h)
    exact hpc ▸ awaitRequest_ne_panicked i own d
  | seek own r | account own r latency | transfer own r | complete own r =>
    obtain ⟨rfl, -⟩ := Prod.mk.inj (Option.some.inj h)
    exact Pc.noConfusion

/-- **The request pool suffices** for `MAX_DISK_REQS` processes: no more entries are in use than
processes are inside `submit_disk_request`, a process that comes in finds one, and none panics. -/
theorem pool_suffices [Fintype ι] (hcard : Fintype.card ι ≤ maxDiskReqs)
    (hrun : (diskSystem β ι).Reaches System.any (diskStart β ι) c) :
    c.mem.q.usedReqs.card ≤ (submitters c.loc).card ∧
      (∀ i, c.loc i = .idle → c.mem.q.allocReq.isSome) ∧ ∀ i, c.loc i ≠ .panicked := by
  have hinv : DispatchInv c ∧ ∀ i, c.loc i ≠ .panicked := by
    refine hrun.inv (P := fun c => DispatchInv c ∧ ∀ i, c.loc i ≠ .panicked)
      (fun c i a l g _ h hn => ⟨h.1.step hn, fun j => ?_⟩)
      ⟨dispatchInv_start, fun _ => Pc.noConfusion⟩
    by_cases hj : j = i
    · subst hj
      dsimp only
      rw [Function.update_self]
      cases a with
      | setDiskPolicy policy =>
        obtain ⟨rfl, -⟩ := Prod.mk.inj (Option.some.inj hn)
        exact h.2 j
      | run level => exact runStep_ne_panicked hn
      | submit b blockno type =>
        cases hpc : c.loc j <;> simp only [diskSystem, hpc, Option.some.injEq, reduceCtorEq] at hn
        have hpc' : (submitDiskRequest j b blockno type c.mem).1 = l := congrArg Prod.fst hn
        exact hpc' ▸ submitDiskRequest_ne_panicked _ _ _ _ (h.1.allocReq_isSome hcard hpc)
    · dsimp only
      rw [Function.update_of_ne hj]
      exact h.2 j
  exact ⟨hinv.1.card_used_le, fun i hi => hinv.1.allocReq_isSome hcard hi, hinv.2⟩

end Xv6Swap.Queue
