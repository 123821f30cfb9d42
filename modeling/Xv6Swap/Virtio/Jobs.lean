import Xv6Swap.Virtio.Descriptors

/-!
# Jobs

A process between the allocation of its descriptors and its return has a `Job`. `Owned`: the
descriptors that are not free are those of the jobs. `Exclusive`: no two processes have the same
buffer. `Tracked`: the requests that are on their way through the two rings and the device are those
whose process still waits for them. Each of them comes with what the driver and the device do to it.
-/

namespace Xv6Swap.Virtio

open Raid (Byte)

variable {ι β : Type*} {N : ℕ}

/-- A request and its descriptors. -/
structure Job (N : ℕ) (β : Type*) where
  b : β
  write : Bool
  chain : Chain N

/-! ## Descriptors -/

/-- The descriptors in use are those of the jobs, and each of them belongs to one job. -/
structure Owned (job : ι → Option (Job N β)) (free : Fin N → Bool) : Prop where
  free_iff : ∀ d, free d = false ↔ ∃ i j, job i = some j ∧ d ∈ j.chain
  apart : ∀ {i i' j j' d}, job i = some j → job i' = some j' → d ∈ j.chain → d ∈ j'.chain → i = i'
  distinct : ∀ {i j}, job i = some j → j.chain.Distinct

namespace Owned

variable {job : ι → Option (Job N β)} {free : Fin N → Bool} {i i' : ι} {j j' : Job N β}

theorem eq_of_head (h : Owned job free) (hj : job i = some j) (hj' : job i' = some j')
    (heq : j.chain.head = j'.chain.head) : i = i' :=
  h.apart hj hj' j.chain.head_mem (heq ▸ j'.chain.head_mem)

variable [DecidableEq ι]

theorem alloc (h : Owned job free) (hi : job i = none) (hc : j.chain.Distinct)
    (hfree : ∀ d ∈ j.chain, free d = true) :
    Owned (Function.update job i (some j)) (j.chain.set false free) := by
  -- a descriptor of another job is not free
  have hother {i' : ι} {j' : Job N β} (hj' : job i' = some j') {d : Fin N} (hd : d ∈ j'.chain) :
      d ∉ j.chain := by
    intro hmem
    have hused := (h.free_iff d).2 ⟨i', j', hj', hd⟩
    rw [hfree d hmem] at hused
    cases hused
  refine ⟨fun d => ?_, @fun i₁ i₂ j₁ j₂ d h₁ h₂ hd₁ hd₂ => ?_, @fun i' j' hj' => ?_⟩
  · by_cases hd : d ∈ j.chain
    · rw [Chain.set_of_mem hd]
      exact iff_of_true rfl ⟨i, j, Function.update_self .., hd⟩
    · rw [Chain.set_of_notMem hd, h.free_iff]
      constructor
      · rintro ⟨i', j', hj', hd'⟩
        have hne : i' ≠ i := fun heq => by simp [heq, hi] at hj'
        exact ⟨i', j', by rwa [Function.update_of_ne hne], hd'⟩
      · rintro ⟨i', j', hj', hd'⟩
        by_cases heq : i' = i
        · rw [heq, Function.update_self] at hj'
          exact absurd (Option.some.inj hj' ▸ hd') hd
        · exact ⟨i', j', by rwa [Function.update_of_ne heq] at hj', hd'⟩
  · by_cases heq₁ : i₁ = i <;> by_cases heq₂ : i₂ = i
    · rw [heq₁, heq₂]
    · rw [heq₁, Function.update_self] at h₁
      rw [Function.update_of_ne heq₂] at h₂
      exact absurd (Option.some.inj h₁ ▸ hd₁) (hother h₂ hd₂)
    · rw [Function.update_of_ne heq₁] at h₁
      rw [heq₂, Function.update_self] at h₂
      exact absurd (Option.some.inj h₂ ▸ hd₂) (hother h₁ hd₁)
    · rw [Function.update_of_ne heq₁] at h₁
      rw [Function.update_of_ne heq₂] at h₂
      exact h.apart h₁ h₂ hd₁ hd₂
  · by_cases heq : i' = i
    · rw [heq, Function.update_self] at hj'
      exact Option.some.inj hj' ▸ hc
    · rw [Function.update_of_ne heq] at hj'
      exact h.distinct hj'

theorem of_update_none {x : ι} (h : Function.update job i none x = some j) :
    x ≠ i ∧ job x = some j := by
  by_cases heq : x = i
  · rw [heq, Function.update_self] at h
    cases h
  · exact ⟨heq, by rwa [Function.update_of_ne heq] at h⟩

theorem release (h : Owned job free) (hi : job i = some j) :
    Owned (Function.update job i none) (j.chain.set true free) := by
  refine ⟨fun d => ?_, fun h₁ h₂ => h.apart (of_update_none h₁).2 (of_update_none h₂).2,
    fun hj' => h.distinct (of_update_none hj').2⟩
  by_cases hd : d ∈ j.chain
  · rw [Chain.set_of_mem hd]
    refine iff_of_false (by simp) ?_
    rintro ⟨i', j', hj', hd'⟩
    obtain ⟨hne, hj'⟩ := of_update_none hj'
    exact hne (h.apart hj' hi hd' hd)
  · rw [Chain.set_of_notMem hd, h.free_iff]
    constructor
    · rintro ⟨i', j', hj', hd'⟩
      have hne : i' ≠ i := by
        rintro rfl
        exact hd (Option.some.inj (hi.symm.trans hj') ▸ hd')
      exact ⟨i', j', by rwa [Function.update_of_ne hne], hd'⟩
    · rintro ⟨i', j', hj', hd'⟩
      exact ⟨i', j', (of_update_none hj').2, hd'⟩

end Owned

/-! ## Buffers -/

/-- No two processes have the same buffer. -/
def Exclusive (buf : ι → Option β) : Prop := ∀ ⦃i i' b⦄, buf i = some b → buf i' = some b → i = i'

theorem Exclusive.take [DecidableEq ι] {buf : ι → Option β} {b : β} (h : Exclusive buf)
    (hfree : ∀ i', buf i' ≠ some b) (i : ι) : Exclusive (Function.update buf i (some b)) := by
  intro i₁ i₂ b' h₁ h₂
  by_cases heq₁ : i₁ = i <;> by_cases heq₂ : i₂ = i
  · rw [heq₁, heq₂]
  · rw [heq₁, Function.update_self] at h₁
    rw [Function.update_of_ne heq₂, ← h₁] at h₂
    exact absurd h₂ (hfree i₂)
  · rw [heq₂, Function.update_self] at h₂
    rw [Function.update_of_ne heq₁, ← h₂] at h₁
    exact absurd h₁ (hfree i₁)
  · rw [Function.update_of_ne heq₁] at h₁
    rw [Function.update_of_ne heq₂] at h₂
    exact h h₁ h₂

theorem Exclusive.drop [DecidableEq ι] {buf : ι → Option β} (h : Exclusive buf) (i : ι) :
    Exclusive (Function.update buf i none) := by
  intro i₁ i₂ b h₁ h₂
  have hne {x : ι} (hx : Function.update buf i none x = some b) : buf x = some b := by
    by_cases heq : x = i
    · rw [heq, Function.update_self] at hx
      cases hx
    · rwa [Function.update_of_ne heq] at hx
  exact h (hne h₁) (hne h₂)

/-! ## Requests on their way -/

/-- The requests on their way are those whose processes wait for them, once each; the device has
done those that are no longer `waiting`. -/
structure Tracked (waiting served : List (Fin N)) (sent : ι → Option (Job N β)) (disk : β → Bool)
    (status : Fin N → Byte) : Prop where
  nodup : (waiting ++ served).Nodup
  mem_iff : ∀ d, d ∈ waiting ++ served ↔
    ∃ i j, sent i = some j ∧ j.chain.head = d ∧ disk j.b = true
  status_iff : ∀ {i j}, sent i = some j → (status j.chain.head = 0 ↔ j.chain.head ∉ waiting)

namespace Tracked

variable {waiting served waiting' served' : List (Fin N)} {sent : ι → Option (Job N β)}
  {disk disk' : β → Bool} {status status' : Fin N → Byte} {i : ι} {j : Job N β} {d : Fin N}

theorem perm (h : Tracked waiting served sent disk status) (hwaiting : waiting'.Perm waiting)
    (hserved : served'.Perm served) : Tracked waiting' served' sent disk status := by
  have hperm := hwaiting.append hserved
  refine ⟨hperm.nodup_iff.2 h.nodup, fun d => ?_, fun hsent => ?_⟩
  · rw [hperm.mem_iff, h.mem_iff]
  · rw [hwaiting.mem_iff, h.status_iff hsent]

theorem congr (h : Tracked waiting served sent disk status)
    (hdisk : ∀ {i j}, sent i = some j → disk' j.b = disk j.b)
    (hstatus : ∀ {i j}, sent i = some j → status' j.chain.head = status j.chain.head) :
    Tracked waiting served sent disk' status' := by
  refine ⟨h.nodup, fun d => (h.mem_iff d).trans ?_, fun hsent => ?_⟩
  · constructor
    · rintro ⟨i, j, hsent, hd, hj⟩
      exact ⟨i, j, hsent, hd, (hdisk hsent).trans hj⟩
    · rintro ⟨i, j, hsent, hd, hj⟩
      exact ⟨i, j, hsent, hd, (hdisk hsent).symm.trans hj⟩
  · rw [hstatus hsent, h.status_iff hsent]

/-- The device executes a request. -/
theorem execute (h : Tracked (d :: waiting) served sent disk status) :
    Tracked waiting (d :: served) sent disk (Function.update status d 0) := by
  have hperm : (waiting ++ d :: served).Perm (d :: waiting ++ served) := List.perm_middle
  have hd : d ∉ waiting := fun hmem =>
    (List.nodup_cons.1 h.nodup).1 (List.mem_append_left _ hmem)
  refine ⟨hperm.nodup_iff.2 h.nodup, fun d' => by rw [hperm.mem_iff, h.mem_iff],
    @fun i j hsent => ?_⟩
  by_cases heq : j.chain.head = d
  · rw [heq, Function.update_self]
    exact iff_of_true rfl hd
  · rw [Function.update_of_ne heq, h.status_iff hsent, List.mem_cons, not_or]
    exact ⟨fun hnot => hnot.2, fun hnot => ⟨heq, hnot⟩⟩

variable [DecidableEq ι]

/-- The driver puts a request into the ring. -/
theorem publish (h : Tracked waiting served sent disk status) (hi : sent i = none)
    (hnew : ∀ {i' j'}, sent i' = some j' → j'.chain.head ≠ j.chain.head) (hdisk : disk j.b = true)
    (hstatus : status j.chain.head ≠ 0) :
    Tracked (j.chain.head :: waiting) served (Function.update sent i (some j)) disk status := by
  have hnot : j.chain.head ∉ waiting ++ served := by
    intro hmem
    obtain ⟨i', j', hsent, hhead, -⟩ := (h.mem_iff _).1 hmem
    exact hnew hsent hhead
  refine ⟨List.nodup_cons.2 ⟨hnot, h.nodup⟩, fun d => ?_, @fun i' j' hsent => ?_⟩
  · rw [List.cons_append, List.mem_cons, h.mem_iff]
    constructor
    · rintro (rfl | ⟨i', j', hsent, hd, hj⟩)
      · exact ⟨i, j, Function.update_self .., rfl, hdisk⟩
      · have hne : i' ≠ i := fun heq => by simp [heq, hi] at hsent
        exact ⟨i', j', by rwa [Function.update_of_ne hne], hd, hj⟩
    · rintro ⟨i', j', hsent, hd, hj⟩
      by_cases heq : i' = i
      · rw [heq, Function.update_self] at hsent
        exact .inl (Option.some.inj hsent ▸ hd.symm)
      · rw [Function.update_of_ne heq] at hsent
        exact .inr ⟨i', j', hsent, hd, hj⟩
  · by_cases heq : i' = i
    · rw [heq, Function.update_self] at hsent
      obtain rfl := Option.some.inj hsent
      exact iff_of_false hstatus (not_not_intro List.mem_cons_self)
    · rw [Function.update_of_ne heq] at hsent
      rw [h.status_iff hsent, List.mem_cons, not_or]
      exact ⟨fun hw => ⟨hnew hsent, hw⟩, fun hw => hw.2⟩

omit [DecidableEq ι] in
/-- The driver takes note of a request that is done. -/
theorem handle [DecidableEq β] (h : Tracked waiting (j.chain.head :: served) sent disk status)
    (hi : sent i = some j)
    (hhead : ∀ {i' j'}, sent i' = some j' → j'.chain.head = j.chain.head → i' = i)
    (hbuf : ∀ {i' j'}, sent i' = some j' → j'.b = j.b → i' = i) :
    Tracked waiting served sent (Function.update disk j.b false) status := by
  have hperm : (waiting ++ j.chain.head :: served).Perm (j.chain.head :: (waiting ++ served)) :=
    List.perm_middle
  have hnodup := List.nodup_cons.1 (hperm.nodup_iff.1 h.nodup)
  refine ⟨hnodup.2, fun d => ?_, h.status_iff⟩
  constructor
  · intro hd
    have hmem : d ∈ waiting ++ j.chain.head :: served :=
      hperm.mem_iff.2 (List.mem_cons_of_mem _ hd)
    obtain ⟨i', j', hsent, rfl, hdisk⟩ := (h.mem_iff d).1 hmem
    have hne : j'.b ≠ j.b := by
      intro heq
      obtain rfl := hbuf hsent heq
      exact hnodup.1 (Option.some.inj (hi.symm.trans hsent) ▸ hd)
    exact ⟨i', j', hsent, rfl, by rwa [Function.update_of_ne hne]⟩
  · rintro ⟨i', j', hsent, rfl, hdisk⟩
    have hne : j'.b ≠ j.b := fun heq => by simp [heq] at hdisk
    rw [Function.update_of_ne hne] at hdisk
    have hmem := hperm.mem_iff.1 ((h.mem_iff _).2 ⟨i', j', hsent, rfl, hdisk⟩)
    refine (List.mem_cons.1 hmem).resolve_left fun heq => hne ?_
    obtain rfl := hhead hsent heq
    rw [Option.some.inj (hi.symm.trans hsent)]

/-- A process leaves with its request done. -/
theorem leave (h : Tracked waiting served sent disk status) (hi : sent i = some j)
    (hdisk : disk j.b = false) :
    Tracked waiting served (Function.update sent i none) disk status := by
  refine ⟨h.nodup, fun d => (h.mem_iff d).trans ?_,
    fun hsent => h.status_iff (Owned.of_update_none hsent).2⟩
  constructor
  · rintro ⟨i', j', hsent, hd, hj⟩
    have hne : i' ≠ i := by
      rintro rfl
      rw [← Option.some.inj (hi.symm.trans hsent), hdisk] at hj
      cases hj
    exact ⟨i', j', by rwa [Function.update_of_ne hne], hd, hj⟩
  · rintro ⟨i', j', hsent, hd, hj⟩
    exact ⟨i', j', (Owned.of_update_none hsent).2, hd, hj⟩

end Tracked

end Xv6Swap.Virtio
