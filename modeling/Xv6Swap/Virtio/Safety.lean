import Xv6Swap.Foundations.Interleave
import Xv6Swap.Virtio.Invariant

/-!
# The driver does not panic

Every step keeps the invariant of the driver (`Inv.step`), group by group. So along every run, with
any number of processes and harts and any order in which the device works on requests, `free_desc`
never panics, `virtio_disk_intr` finds the status and the buffer of each request, and the device
meets only chains that it understands (`virtio_safe`).
-/

namespace Xv6Swap.Virtio.State

open Raid (Byte Block bSize)
open Fifo (slot)
open Mutex (Guarded)

variable {ι κ β : Type*} {N : ℕ} [NeZero N] [DecidableEq ι] [DecidableEq κ] [DecidableEq β]
variable {s s' : State ι κ β N} {a : Act ι κ β N}

/-! ## The lock -/

omit [NeZero N] [DecidableEq β] in
theorem inside_update_pc (s : State ι κ β N) (i : ι) (pc : Pc N β) :
    inside { s with pc := Function.update s.pc i pc } =
      Function.update s.inside (.inl i) pc.holds := by
  rw [inside, inside, Sum.update_elim_inl, ← Function.comp_def Pc.holds, Function.comp_update]
  rfl

omit [NeZero N] [DecidableEq β] in
theorem inside_update_intr (s : State ι κ β N) (h : κ) (pc : IntrPc) :
    inside { s with intr := Function.update s.intr h pc } =
      Function.update s.inside (.inr h) pc.holds := by
  rw [inside, inside, Sum.update_elim_inr, ← Function.comp_def IntrPc.holds, Function.comp_update]
  rfl

omit [NeZero N] [DecidableEq β] in
theorem Guarded.goto (hs : Guarded s.lock s.inside) {i : ι} {pc pc' : Pc N β} (hpc : s.pc i = pc)
    (hholds : pc'.holds = pc.holds) :
    Guarded s.lock (inside { s with pc := Function.update s.pc i pc' }) := by
  rw [inside_update_pc]
  exact hs.stay (hholds.trans (congrArg Pc.holds hpc).symm)

omit [NeZero N] [DecidableEq β] in
theorem Guarded.unlock (hs : Guarded s.lock s.inside) {i : ι} {pc pc' : Pc N β} (hpc : s.pc i = pc)
    (hholds : pc.holds = true) (hholds' : pc'.holds = false) :
    Guarded none (inside { s with pc := Function.update s.pc i pc' }) := by
  rw [inside_update_pc, hholds']
  exact hs.leave ((congrArg Pc.holds hpc).trans hholds)

theorem Inv.lock_moves (hs : s.Inv) (h : Moves s a s') : Guarded s'.lock s'.inside := by
  cases h with
  | call hpc | alloc hpc | fill hpc | ring hpc | publish hpc | done hpc =>
    exact Guarded.goto hs.lock hpc rfl
  | @lock i pc hpc hlock =>
    have hguard := hs.lock
    rw [hlock] at hguard
    change Guarded (some (.inl i)) (inside { s with pc := Function.update s.pc i pc })
    rw [inside_update_pc, Pc.holds_of_locked hpc]
    exact hguard.enter _
  | full hpc hcount htried =>
    rw [htried.rest]
    exact Guarded.unlock hs.lock hpc rfl rfl
  | sleep hpc | ret hpc => exact Guarded.unlock hs.lock hpc rfl rfl
  | modify | kill | handle | take | execute | post | bump | raise => exact hs.lock
  | @intrStart h hpc | @ack h hpc =>
    change Guarded s.lock (inside { s with intr := Function.update s.intr h _ })
    rw [inside_update_intr]
    exact hs.lock.stay (congrArg IntrPc.holds hpc).symm
  | @intrLock h hpc hlock =>
    have hguard := hs.lock
    rw [hlock] at hguard
    change Guarded (some (.inr h)) (inside { s with intr := Function.update s.intr h _ })
    rw [inside_update_intr]
    exact hguard.enter _
  | @intrEnd h hpc =>
    change Guarded none (inside { s with intr := Function.update s.intr h _ })
    rw [inside_update_intr]
    exact hs.lock.leave (congrArg IntrPc.holds hpc)

/-! ## Descriptors and buffers -/

section Update

omit [NeZero N] [DecidableEq κ] [DecidableEq β]

theorem update_comp {α : Type*} (f : Pc N β → α) (s : State ι κ β N) (i : ι) (pc : Pc N β) :
    (fun k => f (Function.update s.pc i pc k)) = Function.update (fun k => f (s.pc k)) i (f pc) :=
  Function.comp_update f s.pc i pc

/-- A process goes on with what it has. -/
theorem update_eq {α : Type*} (f : Pc N β → α) {i : ι} {pc pc' : Pc N β} (hpc : s.pc i = pc)
    (hf : f pc' = f pc) : (fun k => f (Function.update s.pc i pc' k)) = fun k => f (s.pc k) := by
  rw [update_comp, hf, ← hpc]
  exact Function.update_eq_self i fun k => f (s.pc k)

theorem of_update_eq {α : Type*} {f : Pc N β → α} {x : α} {i k : ι} {pc pc' : Pc N β}
    (hpc : s.pc i = pc) (h : f (Function.update s.pc i pc' k) = x) (hf : f pc' = f pc) :
    f (s.pc k) = x :=
  (congrFun (update_eq f hpc hf) k).symm.trans h

end Update

theorem Inv.owned_moves (hs : s.Inv) (h : Moves s a s') :
    Owned (fun i => (s'.pc i).job) s'.free := by
  have hsame {i : ι} {pc pc' : Pc N β} (hpc : s.pc i = pc) (hjob : pc'.job = pc.job) :
      Owned (fun k => (Function.update s.pc i pc' k).job) s.free := by
    rw [update_eq Pc.job hpc hjob]
    exact hs.owned
  cases h with
  | call hpc | fill hpc | ring hpc | publish hpc | sleep hpc | done hpc => exact hsame hpc rfl
  | lock hpc => exact hsame rfl (Pc.same_of_locked hpc).job
  | full hpc hcount htried =>
    rw [htried.rest]
    exact hsame hpc rfl
  | @alloc i b write c hpc hc hfree =>
    change Owned (fun k => (Function.update s.pc i _ k).job) (c.set false s.free)
    rw [update_comp]
    exact hs.owned.alloc (congrArg Pc.job hpc) hc hfree
  | @ret i b write c hpc =>
    change Owned (fun k => (Function.update s.pc i _ k).job) (c.set true s.free)
    rw [update_comp]
    exact hs.owned.release (congrArg Pc.job hpc)
  | modify | kill | intrStart | intrLock | ack | handle | intrEnd | take | execute | post | bump
  | raise => exact hs.owned

theorem Inv.exclusive_moves (hs : s.Inv) (h : Moves s a s') : Exclusive fun i => (s'.pc i).buf := by
  have hsame {i : ι} {pc pc' : Pc N β} (hpc : s.pc i = pc) (hbuf : pc'.buf = pc.buf) :
      Exclusive fun k => (Function.update s.pc i pc' k).buf := by
    rw [update_eq Pc.buf hpc hbuf]
    exact hs.exclusive
  cases h with
  | @call i b write hpc hfree =>
    change Exclusive fun k => (Function.update s.pc i _ k).buf
    rw [update_comp]
    exact hs.exclusive.take hfree i
  | alloc hpc | fill hpc | ring hpc | publish hpc | sleep hpc | done hpc => exact hsame hpc rfl
  | lock hpc => exact hsame rfl (Pc.same_of_locked hpc).buf
  | full hpc hcount htried =>
    rw [htried.rest]
    exact hsame hpc rfl
  | @ret i b write c hpc =>
    change Exclusive fun k => (Function.update s.pc i _ k).buf
    rw [update_comp]
    exact hs.exclusive.drop i
  | modify | kill | intrStart | intrLock | ack | handle | intrEnd | take | execute | post | bump
  | raise => exact hs.exclusive


/-! ## Requests -/

section Apart

omit [DecidableEq ι] [DecidableEq κ] [DecidableEq β]

variable {i i' : ι} {j j' : Job N β}

theorem Inv.notMem_chain (hs : s.Inv) (hne : i ≠ i') (hj : (s.pc i).job = some j)
    (hj' : (s.pc i').job = some j') {d : Fin N} (hd : d ∈ j.chain) : d ∉ j'.chain :=
  fun hd' => hne (hs.owned.apart hj hj' hd hd')

theorem Inv.head_ne (hs : s.Inv) (hne : i ≠ i') (hj : (s.pc i).job = some j)
    (hj' : (s.pc i').job = some j') : j.chain.head ≠ j'.chain.head :=
  fun heq => hne (hs.owned.eq_of_head hj hj' heq)

theorem Inv.buf_ne (hs : s.Inv) (hne : i ≠ i') (hj : (s.pc i).job = some j)
    (hj' : (s.pc i').job = some j') : j.b ≠ j'.b :=
  fun heq => hne (hs.exclusive (Pc.buf_of_job hj) (heq ▸ Pc.buf_of_job hj'))

omit [NeZero N] in
theorem ne_of_ready_of_sent (hj : (s.pc i).ready = some j) (hj' : (s.pc i').sent = some j') :
    i ≠ i' := by
  rintro rfl
  rw [Pc.sent_of_ready hj] at hj'
  cases hj'

theorem Filled.congr (h : s.Filled j) (hdesc : ∀ d ∈ j.chain, s'.desc d = s.desc d)
    (hop : s'.ops j.chain.head = s.ops j.chain.head)
    (hinfo : (s'.info j.chain.head).b = (s.info j.chain.head).b)
    (hbuf : (s'.buf j.b).blockno = (s.buf j.b).blockno) : s'.Filled j where
  op := by rw [hop, h.op, request, request, hbuf]
  head := (hdesc _ j.chain.head_mem).trans h.head
  data := (hdesc _ j.chain.data_mem).trans h.data
  status := (hdesc _ j.chain.status_mem).trans h.status
  info := hinfo.trans h.info

end Apart

omit [NeZero N] [DecidableEq κ] [DecidableEq β] in
theorem of_update {f : Pc N β → Option (Job N β)} {i k : ι} {pc : Pc N β} {j : Job N β}
    (h : f (Function.update s.pc i pc k) = some j) :
    k = i ∧ f pc = some j ∨ k ≠ i ∧ f (s.pc k) = some j := by
  by_cases heq : k = i
  · rw [heq, Function.update_self] at h
    exact .inl ⟨heq, h⟩
  · rw [Function.update_of_ne heq] at h
    exact .inr ⟨heq, h⟩

section Fill

omit [DecidableEq ι] [DecidableEq κ]

theorem filled_fillChain (s : State ι κ β N) {b : β} {write : Bool} {c : Chain N}
    (hc : c.Distinct) : (s.fillChain b write c).Filled ⟨b, write, c⟩ where
  op := by simp [fillChain, request]
  head := by
    simp [fillChain, Function.update_of_ne hc.head_data, Function.update_of_ne hc.head_status]
  data := by simp [fillChain, Function.update_of_ne hc.data_status]
  status := Function.update_self ..
  info := by simp [fillChain]

theorem fillChain_desc (s : State ι κ β N) (b : β) (write : Bool) {c : Chain N} {d : Fin N}
    (hd : d ∉ c) : (s.fillChain b write c).desc d = s.desc d := by
  rw [Chain.mem_iff, not_or, not_or] at hd
  simp only [fillChain, Function.update_of_ne hd.1, Function.update_of_ne hd.2.1,
    Function.update_of_ne hd.2.2]

end Fill

theorem Inv.filled_moves (hs : s.Inv) (h : Moves s a s') {i : ι} {j : Job N β}
    (hj : (s'.pc i).filled = some j) : s'.Filled j := by
  cases h with
  | call hpc | alloc hpc | ring hpc | publish hpc | sleep hpc | done hpc =>
    exact (hs.filled (of_update_eq (f := Pc.filled) hpc hj rfl)).congr (fun _ _ => rfl) rfl rfl rfl
  | lock hpc =>
    have hj' := of_update_eq (f := Pc.filled) rfl hj (Pc.same_of_locked hpc).filled
    exact (hs.filled hj').congr (fun _ _ => rfl) rfl rfl rfl
  | full hpc hcount htried =>
    rw [htried.rest] at hj ⊢
    have hj' := of_update_eq (f := Pc.filled) hpc hj rfl
    refine (hs.filled hj').congr (fun d hd => htried.desc d ?_) rfl rfl rfl
    exact (hs.owned.free_iff d).2 ⟨i, j, Pc.job_of_filled hj', hd⟩
  | @fill i' b write c hpc =>
    have hjob : (s.pc i').job = some ⟨b, write, c⟩ := congrArg Pc.job hpc
    rcases of_update (f := Pc.filled) hj with ⟨rfl, hf⟩ | ⟨hne, hf⟩
    · obtain rfl := Option.some.inj hf
      exact (s.filled_fillChain (hs.owned.distinct hjob)).congr (fun _ _ => rfl) rfl rfl rfl
    · have hj' := Pc.job_of_filled hf
      have hhead := hs.head_ne hne hj' hjob
      refine (hs.filled hf).congr (fun d hd => ?_) (Function.update_of_ne hhead _ _)
        (congrArg Info.b (Function.update_of_ne hhead _ _))
        (congrArg Buf.blockno (Function.update_of_ne (hs.buf_ne hne hj' hjob) _ _))
      exact s.fillChain_desc b write (hs.notMem_chain hne hj' hjob hd)
  | @ret i' b write c hpc =>
    rcases of_update (f := Pc.filled) hj with ⟨rfl, hf⟩ | ⟨hne, hf⟩
    · cases hf
    · have hj' := Pc.job_of_filled hf
      have hjob : (s.pc i').job = some ⟨b, write, c⟩ := congrArg Pc.job hpc
      refine (hs.filled hf).congr (fun d hd => ?_) rfl
        (congrArg Info.b (Function.update_of_ne (hs.head_ne hne hj' hjob) _ _)) rfl
      exact Chain.set_of_notMem (hs.notMem_chain hne hj' hjob hd) _ _
  | @modify b blockno data hfree =>
    have hb : j.b ≠ b := fun heq => hfree i (heq ▸ Pc.buf_of_job (Pc.job_of_filled hj))
    exact (hs.filled hj).congr (fun _ _ => rfl) rfl rfl
      (congrArg Buf.blockno (Function.update_of_ne hb _ _))
  | @handle h i' j' hpc hne hid hsent =>
    refine (hs.filled hj).congr (fun _ _ => rfl) rfl rfl ?_
    by_cases hb : j.b = j'.b
    · simp [wakeup, hb]
    · simp [wakeup, Function.update_of_ne hb]
  | @execute i' j' hphase hmem hsent =>
    refine (hs.filled hj).congr (fun _ _ => rfl) rfl ?_ (transfer_buf ..).1
    by_cases hd : j.chain.head = j'.chain.head
    · simp [hd]
    · simp [Function.update_of_ne hd]
  | kill | intrStart | intrLock | ack | intrEnd | take | post | bump | raise =>
    exact (hs.filled hj).congr (fun _ _ => rfl) rfl rfl rfl

theorem Inv.ready_moves (hs : s.Inv) (h : Moves s a s') {i : ι} {j : Job N β}
    (hj : (s'.pc i).ready = some j) :
    (s'.buf j.b).disk = true ∧ (s'.info j.chain.head).status = 0xff := by
  cases h with
  | call hpc | alloc hpc | ring hpc | sleep hpc | done hpc =>
    exact hs.ready (of_update_eq (f := Pc.ready) hpc hj rfl)
  | lock hpc => exact hs.ready (of_update_eq (f := Pc.ready) rfl hj (Pc.same_of_locked hpc).ready)
  | full hpc hcount htried =>
    rw [htried.rest] at hj ⊢
    exact hs.ready (of_update_eq (f := Pc.ready) hpc hj rfl)
  | @fill i' b write c hpc =>
    have hjob : (s.pc i').job = some ⟨b, write, c⟩ := congrArg Pc.job hpc
    rcases of_update (f := Pc.ready) hj with ⟨rfl, hf⟩ | ⟨hne, hf⟩
    · obtain rfl := Option.some.inj hf
      simp [goto, fillChain]
    · have hj' := Pc.job_of_filled (Pc.filled_of_ready hf)
      simpa [goto, fillChain, Function.update_of_ne (hs.head_ne hne hj' hjob),
        Function.update_of_ne (hs.buf_ne hne hj' hjob)] using hs.ready hf
  | @publish i' b write c hpc =>
    rcases of_update (f := Pc.ready) hj with ⟨rfl, hf⟩ | ⟨hne, hf⟩
    · cases hf
    · exact hs.ready hf
  | @ret i' b write c hpc =>
    rcases of_update (f := Pc.ready) hj with ⟨rfl, hf⟩ | ⟨hne, hf⟩
    · cases hf
    · have hj' := Pc.job_of_filled (Pc.filled_of_ready hf)
      have hjob : (s.pc i').job = some ⟨b, write, c⟩ := congrArg Pc.job hpc
      simpa [goto, wakeup, Function.update_of_ne (hs.head_ne hne hj' hjob)] using hs.ready hf
  | @modify b blockno data hfree =>
    have hb : j.b ≠ b := fun heq =>
      hfree i (heq ▸ Pc.buf_of_job (Pc.job_of_filled (Pc.filled_of_ready hj)))
    simpa [Function.update_of_ne hb] using hs.ready hj
  | @handle h i' j' hpc hne hid hsent =>
    have hi : i ≠ i' := ne_of_ready_of_sent hj hsent
    have hb := hs.buf_ne hi (Pc.job_of_filled (Pc.filled_of_ready hj)) (Pc.job_of_sent hsent)
    simpa [wakeup, Function.update_of_ne hb] using hs.ready hj
  | @execute i' j' hphase hmem hsent =>
    have hi : i ≠ i' := ne_of_ready_of_sent hj hsent
    have hd := hs.head_ne hi (Pc.job_of_filled (Pc.filled_of_ready hj)) (Pc.job_of_sent hsent)
    simpa [(transfer_buf s _ _ _ _).2, Function.update_of_ne hd] using hs.ready hj
  | kill | intrStart | intrLock | ack | intrEnd | take | post | bump | raise => exact hs.ready hj

theorem Inv.finished_moves (hs : s.Inv) (h : Moves s a s') {i : ι} {j : Job N β}
    (hj : (s'.pc i).finishing = some j) : (s'.buf j.b).disk = false := by
  cases h with
  | call hpc | alloc hpc | ring hpc | publish hpc | sleep hpc =>
    exact hs.finished (of_update_eq (f := Pc.finishing) hpc hj rfl)
  | lock hpc =>
    exact hs.finished (of_update_eq (f := Pc.finishing) rfl hj (Pc.same_of_locked hpc).finishing)
  | full hpc hcount htried =>
    rw [htried.rest] at hj ⊢
    exact hs.finished (of_update_eq (f := Pc.finishing) hpc hj rfl)
  | @fill i' b write c hpc =>
    rcases of_update (f := Pc.finishing) hj with ⟨rfl, hf⟩ | ⟨hne, hf⟩
    · cases hf
    · have hb := hs.buf_ne hne (Pc.job_of_sent (Pc.sent_of_finishing hf)) (congrArg Pc.job hpc)
      simpa [goto, fillChain, Function.update_of_ne hb] using hs.finished hf
  | @done i' b write c hpc hdisk =>
    rcases of_update (f := Pc.finishing) hj with ⟨rfl, hf⟩ | ⟨hne, hf⟩
    · obtain rfl := Option.some.inj hf
      exact hdisk
    · exact hs.finished hf
  | @ret i' b write c hpc =>
    rcases of_update (f := Pc.finishing) hj with ⟨rfl, hf⟩ | ⟨hne, hf⟩
    · cases hf
    · exact hs.finished hf
  | @modify b blockno data hfree =>
    have hb : j.b ≠ b := fun heq =>
      hfree i (heq ▸ Pc.buf_of_job (Pc.job_of_sent (Pc.sent_of_finishing hj)))
    simpa [Function.update_of_ne hb] using hs.finished hj
  | @handle h i' j' hpc hne hid hsent =>
    by_cases hb : j.b = j'.b
    · simp [wakeup, hb]
    · simpa [wakeup, Function.update_of_ne hb] using hs.finished hj
  | @execute i' j' hphase hmem hsent =>
    exact (transfer_buf s _ _ _ _).2.trans (hs.finished hj)
  | kill | intrStart | intrLock | ack | intrEnd | take | post | bump | raise => exact hs.finished hj

/-! ## The rings -/

theorem Inv.ring_moves (hs : s.Inv) (h : Moves s a s') {i : ι} {j : Job N β}
    (hj : (s'.pc i).publishing = some j) :
    s'.avail.ring (slot N s'.avail.idx) = j.chain.head := by
  -- the mover was inside the lock, so it is the only one that publishes
  have hmover {i' : ι} {pc : Pc N β} (hpc : s.pc i' = pc) (hholds : pc.holds = true)
      (hi : (s.pc i).publishing = some j) : i = i' := by
    have hinside : s.inside (.inl i) = true := Pc.holds_of_publishing hi
    exact Sum.inl.inj (hs.lock.unique hinside ((congrArg Pc.holds hpc).trans hholds))
  cases h with
  | call hpc | alloc hpc | fill hpc | sleep hpc | done hpc =>
    exact hs.ring (of_update_eq (f := Pc.publishing) hpc hj rfl)
  | lock hpc =>
    exact hs.ring (of_update_eq (f := Pc.publishing) rfl hj (Pc.same_of_locked hpc).publishing)
  | full hpc hcount htried =>
    rw [htried.rest] at hj ⊢
    exact hs.ring (of_update_eq (f := Pc.publishing) hpc hj rfl)
  | @ring i' b write c hpc =>
    rcases of_update (f := Pc.publishing) hj with ⟨rfl, hf⟩ | ⟨hne, hf⟩
    · obtain rfl := Option.some.inj hf
      exact Function.update_self ..
    · exact absurd (hmover hpc rfl hf) hne
  | @publish i' b write c hpc =>
    rcases of_update (f := Pc.publishing) hj with ⟨rfl, hf⟩ | ⟨hne, hf⟩
    · cases hf
    · exact absurd (hmover hpc rfl hf) hne
  | @ret i' b write c hpc => exact hs.ring (of_update_eq (f := Pc.publishing) hpc hj rfl)
  | modify | kill | intrStart | intrLock | ack | handle | intrEnd | take | execute | post | bump
  | raise => exact hs.ring hj

theorem Inv.posted_moves (hs : s.Inv) (h : Moves s a s') {d : Fin N} (hd : s'.phase = .bump d) :
    s'.used.ring (slot N s'.used.idx) = d := by
  cases h with
  | full hpc hcount htried =>
    rw [htried.rest] at hd ⊢
    exact hs.posted hd
  | post hphase =>
    obtain rfl := Phase.bump.inj hd
    exact Function.update_self ..
  | execute | bump | raise => cases hd
  | call | lock | alloc | fill | ring | publish | sleep | done | ret | modify | kill | intrStart
  | intrLock | ack | handle | intrEnd | take => exact hs.posted hd

/-! ## Requests on their way -/

theorem Inv.tracked_moves (hN : N ∣ 2 ^ 15) (hs : s.Inv) (h : Moves s a s') :
    Tracked s'.waiting s'.served (fun i => (s'.pc i).sent) (fun b => (s'.buf b).disk)
      fun d => (s'.info d).status := by
  have hN' : N ∣ 2 ^ 16 := hN.trans (pow_dvd_pow 2 (Nat.le_succ 15))
  have hle : N ≤ 2 ^ 15 := Nat.le_of_dvd (by positivity) hN
  have hsame {i : ι} {pc pc' : Pc N β} (hpc : s.pc i = pc) (hsent : pc'.sent = pc.sent) :
      Tracked s.waiting s.served (fun k => (Function.update s.pc i pc' k).sent)
        (fun b => (s.buf b).disk) fun d => (s.info d).status := by
    rw [update_eq Pc.sent hpc hsent]
    exact hs.tracked
  cases h with
  | call hpc | alloc hpc | sleep hpc | done hpc => exact hsame hpc rfl
  | lock hpc => exact hsame rfl (Pc.same_of_locked hpc).sent
  | full hpc hcount htried =>
    rw [htried.rest]
    exact hsame hpc rfl
  | @fill i b write c hpc =>
    have hjob : (s.pc i).job = some ⟨b, write, c⟩ := congrArg Pc.job hpc
    have hother {k : ι} {j : Job N β}
        (hk : (Function.update s.pc i (.ring b write c) k).sent = some j) :
        k ≠ i ∧ (s.pc k).job = some j := by
      rcases of_update (f := Pc.sent) hk with ⟨rfl, hf⟩ | ⟨hne, hf⟩
      · cases hf
      · exact ⟨hne, Pc.job_of_sent hf⟩
    refine Tracked.congr (hsame hpc rfl) (fun hk => ?_) fun hk => ?_
    · exact congrArg Buf.disk (Function.update_of_ne
        (hs.buf_ne (hother hk).1 (hother hk).2 hjob) _ _)
    · exact congrArg Info.status (Function.update_of_ne
        (hs.head_ne (hother hk).1 (hother hk).2 hjob) _ _)
  | @ring i b write c hpc =>
    have hnot := hs.notMem_of_sent_eq_none (congrArg Pc.job hpc) (congrArg Pc.sent hpc)
    change Tracked (Fifo.contents (Function.update s.avail.ring (slot N s.avail.idx) c.head)
      s.takenIdx s.avail.idx ++ s.taken) s.served _ _ _
    rw [Fifo.contents_update hN' (hs.count_avail_lt hnot)]
    exact hsame hpc rfl
  | @publish i b write c hpc =>
    have hjob : (s.pc i).job = some ⟨b, write, c⟩ := congrArg Pc.job hpc
    have hsent : (s.pc i).sent = none := congrArg Pc.sent hpc
    have hcount := hs.count_avail_lt (hs.notMem_of_sent_eq_none hjob hsent)
    have hring := hs.ring (i := i) (congrArg Pc.publishing hpc)
    obtain ⟨hdisk, hstatus⟩ := hs.ready (i := i) (congrArg Pc.ready hpc)
    change Tracked (Fifo.contents s.avail.ring s.takenIdx (s.avail.idx + 1) ++ s.taken) s.served
      (fun k => (Function.update s.pc i (.check b write c) k).sent) _ _
    rw [Fifo.contents_bump (by omega), update_comp, hring, List.append_assoc]
    refine (hs.tracked.publish (j := ⟨b, write, c⟩) hsent (fun hk => ?_) hdisk ?_).perm
      List.perm_middle (.refl _)
    · refine hs.head_ne (fun heq => ?_) (Pc.job_of_sent hk) hjob
      rw [heq, hsent] at hk
      cases hk
    · rw [hstatus]
      decide
  | @ret i b write c hpc =>
    have hsent : (s.pc i).sent = some ⟨b, write, c⟩ := congrArg Pc.sent hpc
    have hdisk := hs.finished (i := i) (congrArg Pc.finishing hpc)
    have hleave : Tracked s.waiting s.served (fun k => (Function.update s.pc i .idle k).sent)
        (fun b => (s.buf b).disk) fun d => (s.info d).status := by
      rw [update_comp]
      exact hs.tracked.leave hsent hdisk
    refine hleave.congr (fun _ => rfl) fun {k j} hk => ?_
    by_cases hd : j.chain.head = c.head
    · simp [goto, wakeup, hd]
    · simp [goto, wakeup, Function.update_of_ne hd]
  | @modify b blockno data hfree =>
    refine hs.tracked.congr (fun {i j} hsent => ?_) fun _ => rfl
    have hb : j.b ≠ b := fun heq => hfree i (heq ▸ Pc.buf_of_job (Pc.job_of_sent hsent))
    exact congrArg Buf.disk (Function.update_of_ne hb _ _)
  | @handle h i j hpc hne hid hsent =>
    have hperm : (j.chain.head :: (s.phase.head.toList ++
        Fifo.contents s.used.ring (s.usedIdx + 1) s.used.idx)).Perm s.served := by
      rw [served, Fifo.contents_pop hne, hid]
      exact List.perm_middle.symm
    have htracked := (hs.tracked.perm (.refl _) hperm).handle hsent
      (fun hk heq => hs.owned.eq_of_head (Pc.job_of_sent hk) (Pc.job_of_sent hsent) heq)
      fun hk heq => hs.exclusive (heq ▸ Pc.buf_of_job (Pc.job_of_sent hk))
        (Pc.buf_of_job (Pc.job_of_sent hsent))
    refine htracked.congr (fun {k j'} _ => ?_) fun _ => rfl
    by_cases hb : j'.b = j.b
    · simp [wakeup, hb]
    · simp [wakeup, Function.update_of_ne hb]
  | take hne =>
    refine hs.tracked.perm ?_ (.refl _)
    rw [waiting, waiting, Fifo.contents_pop hne, ← List.append_assoc]
    exact List.perm_append_singleton _ _
  | @execute i j hphase hmem hsent =>
    have hwaiting : (j.chain.head :: (Fifo.contents s.avail.ring s.takenIdx s.avail.idx ++
        s.taken.erase j.chain.head)).Perm s.waiting :=
      List.perm_middle.symm.trans ((List.perm_cons_erase hmem).symm.append_left _)
    have hexec := (hs.tracked.perm hwaiting (.refl _)).execute
    have hserved : s.served = Fifo.contents s.used.ring s.usedIdx s.used.idx := by
      rw [served, hphase]
      rfl
    rw [hserved] at hexec
    refine hexec.congr (fun _ => (transfer_buf s _ _ _ _).2) fun {k j'} _ => ?_
    by_cases hd : j'.chain.head = j.chain.head
    · simp [hd]
    · simp [Function.update_of_ne hd]
  | @post d hphase =>
    have hhead : s.phase.head = some d := congrArg Phase.head hphase
    have hserved : s.served = [d] ++ Fifo.contents s.used.ring s.usedIdx s.used.idx := by
      rw [served, hhead]
      rfl
    change Tracked s.waiting ([d] ++ Fifo.contents (Function.update s.used.ring
      (slot N s.used.idx) d) s.usedIdx s.used.idx) _ _ _
    rw [Fifo.contents_update hN' (hs.count_used_lt hhead), ← hserved]
    exact hs.tracked
  | @bump d hphase =>
    have hhead : s.phase.head = some d := congrArg Phase.head hphase
    have hcount := hs.count_used_lt hhead
    change Tracked s.waiting (Fifo.contents s.used.ring s.usedIdx (s.used.idx + 1)) _ _ _
    refine hs.tracked.perm (.refl _) ?_
    rw [Fifo.contents_bump (by omega), hs.posted hphase, served, hhead]
    exact List.perm_append_singleton _ _
  | raise hphase =>
    refine hs.tracked.perm (.refl _) ?_
    rw [served, served, hphase]
    exact .refl _
  | kill | intrStart | intrLock | ack | intrEnd => exact hs.tracked

/-! ## Every step -/

theorem Inv.pc_moves (hs : s.Inv) (h : Moves s a s') (i : ι) (e : Panic) :
    s'.pc i ≠ .panicked e := by
  have hgoto {i' : ι} {pc : Pc N β} (hpc : pc ≠ .panicked e) :
      Function.update s.pc i' pc i ≠ .panicked e := by
    by_cases heq : i = i'
    · rwa [heq, Function.update_self]
    · rw [Function.update_of_ne heq]
      exact hs.pc i e
  cases h with
  | call | alloc | fill | ring | publish | sleep | done | ret => exact hgoto (by simp)
  | @lock i' pc hpc =>
    refine hgoto fun heq => ?_
    rw [heq] at hpc
    cases hi : s.pc i' <;> simp [hi, Pc.locked] at hpc
  | full hpc hcount htried =>
    rw [htried.rest]
    exact hgoto (by simp)
  | modify | kill | intrStart | intrLock | ack | handle | intrEnd | take | execute | post | bump
  | raise => exact hs.pc i e

theorem Inv.intr_moves (hs : s.Inv) (h : Moves s a s') (k : κ) (e : Panic) :
    s'.intr k ≠ .panicked e := by
  have hgoto {k' : κ} {pc : IntrPc} (hpc : pc ≠ .panicked e) :
      Function.update s.intr k' pc k ≠ .panicked e := by
    by_cases heq : k = k'
    · rwa [heq, Function.update_self]
    · rw [Function.update_of_ne heq]
      exact hs.intr k e
  cases h with
  | intrStart | intrLock | ack | intrEnd => exact hgoto (by simp)
  | full hpc hcount htried =>
    rw [htried.rest]
    exact hs.intr k e
  | call | lock | alloc | fill | ring | publish | sleep | done | ret | modify | kill | handle | take
  | execute | post | bump | raise => exact hs.intr k e

theorem Inv.phase_moves (hs : s.Inv) (h : Moves s a s') : s'.phase ≠ .broken := by
  cases h with
  | execute | post | bump | raise => simp
  | full hpc hcount htried =>
    rw [htried.rest]
    exact hs.phase
  | call | lock | alloc | fill | ring | publish | sleep | done | ret | modify | kill | intrStart
  | intrLock | ack | handle | intrEnd | take => exact hs.phase

theorem Inv.step (hN : N ∣ 2 ^ 15) (hs : s.Inv) (h : s.Step a s') : s'.Inv :=
  have hmoves := hs.moves_of_step h
  { lock := hs.lock_moves hmoves
    owned := hs.owned_moves hmoves
    exclusive := hs.exclusive_moves hmoves
    filled := hs.filled_moves hmoves
    ready := hs.ready_moves hmoves
    ring := hs.ring_moves hmoves
    finished := hs.finished_moves hmoves
    posted := hs.posted_moves hmoves
    tracked := hs.tracked_moves hN hmoves
    pc := hs.pc_moves hmoves
    intr := hs.intr_moves hmoves
    phase := hs.phase_moves hmoves }

omit [DecidableEq ι] [DecidableEq κ] [DecidableEq β] in
theorem Started.inv (h : s.Started) : s.Inv := by
  have hnone {f : Pc N β → Option (Job N β)} {i : ι} {j : Job N β} (hf : f .idle = none) :
      f (s.pc i) ≠ some j := by
    rw [h.pc, hf]
    simp
  have hwaiting : s.waiting = [] := by
    rw [waiting, h.takenIdx, h.avail, Fifo.contents_self, h.taken, List.append_nil]
  have hserved : s.served = [] := by
    rw [served, h.usedIdx, h.used, Fifo.contents_self, h.phase]
    rfl
  exact {
    lock := by
      rintro (i | k)
      · simp [h.lock, inside, h.pc, Pc.holds]
      · simp [h.lock, inside, h.intr, IntrPc.holds]
    owned := by
      refine ⟨fun d => ?_, fun hj => absurd hj (hnone (f := Pc.job) rfl),
        fun hj => absurd hj (hnone (f := Pc.job) rfl)⟩
      refine iff_of_false (by simp [h.free]) ?_
      rintro ⟨i, j, hj, -⟩
      exact hnone (f := Pc.job) rfl hj
    exclusive := by
      intro i i' b hb
      simp [h.pc, Pc.buf] at hb
    filled := fun hj => absurd hj (hnone rfl)
    ready := fun hj => absurd hj (hnone rfl)
    ring := fun hj => absurd hj (hnone rfl)
    finished := fun hj => absurd hj (hnone rfl)
    posted := by simp [h.phase]
    tracked := by
      rw [hwaiting, hserved]
      refine ⟨List.nodup_nil, fun d => ?_, fun hj => absurd hj (hnone (f := Pc.sent) rfl)⟩
      refine iff_of_false List.not_mem_nil ?_
      rintro ⟨i, j, hj, -⟩
      exact hnone (f := Pc.sent) rfl hj
    pc := by simp [h.pc]
    intr := by simp [h.intr]
    phase := by simp [h.phase] }

omit [DecidableEq ι] [DecidableEq κ] [DecidableEq β] in
/-- No ring holds more than its entries. -/
theorem Inv.count_le (hs : s.Inv) : Fifo.count s.takenIdx s.avail.idx ≤ N ∧
    Fifo.count s.usedIdx s.used.idx ≤ N := by
  have hcard := hs.tracked.nodup.length_le_card
  rw [List.length_append, waiting, served, List.length_append, List.length_append,
    Fifo.length_contents, Fifo.length_contents, Fintype.card_fin] at hcard
  omega

/-- **The driver does not panic**: neither `free_desc` nor `virtio_disk_intr` does, the device meets
only requests that are filled in, and no entry of a ring is overwritten before it is taken. -/
theorem virtio_safe (hN : N ∣ 2 ^ 15) (hstart : s.Started) {l : List (Act ι κ β N)}
    (hrun : Simulation.Runs Step s l s') :
    (∀ i e, s'.pc i ≠ .panicked e) ∧ (∀ h e, s'.intr h ≠ .panicked e) ∧ s'.phase ≠ .broken ∧
      Fifo.count s'.takenIdx s'.avail.idx ≤ N ∧ Fifo.count s'.usedIdx s'.used.idx ≤ N := by
  have hinv : s'.Inv := hrun.inv (fun _ _ _ hs hstep => hs.step hN hstep) hstart.inv
  exact ⟨hinv.pc, hinv.intr, hinv.phase, hinv.count_le⟩

/-- Three buffers on a disk with eight descriptors. -/
def threeBuffers : State (Fin 3) (Fin 1) (Fin 3) 8 :=
  virtioDiskInit (fun b => ⟨UInt32.ofNat b, fun _ => BitVec.ofNat 8 b, false⟩) fun _ => 9

/-- Two processes send requests and a third one waits for descriptors. The device does the second
request first, with its chain at `d`. -/
def contention (i j k : ι) (h : κ) (a b c : β) (d : Fin N) : List (Act ι κ β N) :=
  List.flatten [[.call i a true, .call j b false, .call k c true], List.replicate 6 (.proc i),
    List.replicate 6 (.proc j), List.replicate 2 (.proc k),
    [.dev .take, .dev .take, .dev (.execute d), .dev .post, .dev .bump, .dev .raise],
    List.replicate 5 (.intr h), [.proc j, .proc j, .ret j]]

/-- The second process has returned, the first one waits, and the third one has been woken. -/
theorem exec_contention :
    ∃ s', Simulation.exec next (contention 0 1 2 0 0 1 2 3) threeBuffers = some s' ∧
    (s'.pc 0 = .sleepBuf 0 true ⟨0, 1, 2⟩ ∧ s'.pc 1 = .idle ∧ s'.pc 2 = .sleepFree 2 true ∧
      s'.asleep 2 = none) := by
  have hrun : (Simulation.exec next (contention 0 1 2 0 0 1 2 3) threeBuffers).map (fun s' =>
      decide (s'.pc 0 = .sleepBuf 0 true ⟨0, 1, 2⟩ ∧ s'.pc 1 = .idle ∧
        s'.pc 2 = .sleepFree 2 true ∧ s'.asleep 2 = none)) = some true := by
    decide +kernel
  obtain ⟨s', hs', hdecide⟩ := Option.map_eq_some_iff.1 hrun
  exact ⟨s', hs', of_decide_eq_true hdecide⟩

theorem virtio_safe_contention :
    ∃ s', Simulation.Runs Step threeBuffers (contention 0 1 2 0 0 1 2 3) s' ∧
    s'.pc 1 = .idle ∧ (∀ i e, s'.pc i ≠ .panicked e) ∧ (∀ h e, s'.intr h ≠ .panicked e) ∧
      s'.phase ≠ .broken ∧ Fifo.count s'.takenIdx s'.avail.idx ≤ 8 ∧
      Fifo.count s'.usedIdx s'.used.idx ≤ 8 := by
  obtain ⟨s', hexec, -, hidle, -⟩ := exec_contention
  have hrun := Simulation.runs_of_exec step_of_next hexec
  exact ⟨s', hrun, hidle, virtio_safe (by decide) (started_virtioDiskInit _ _) hrun⟩

end Xv6Swap.Virtio.State
