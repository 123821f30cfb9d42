import Xv6Swap.Virtio.Safety

/-!
# No wakeup and no interrupt is lost

Who sleeps in the driver has a reason (`Reason`): a process that sleeps for descriptors finds fewer
than three of them free, and one that sleeps for its request finds it not done. As long as there are
used entries that the driver has not seen, an interrupt is pending or a handler is on its way. All
of that holds after every step (`Alert.step`).
-/

namespace Xv6Swap.Virtio

open Fifo (slot)

variable {ι κ β : Type*} {N : ℕ}

/-- In one of the two calls of `sleep`. -/
def Pc.sleeping : Pc N β → Bool
  | .sleepFree _ _ | .sleepBuf _ _ _ => true
  | _ => false

namespace State

/-- Why a process sleeps on a channel. -/
def Reason (s : State ι κ β N) (i : ι) : Chan β → Prop
  | .free => (∃ b write, s.pc i = .sleepFree b write) ∧ s.freeCount < 3
  | .buf b => (∃ write c, s.pc i = .sleepBuf b write c) ∧ (s.buf b).disk = true

structure Alert (s : State ι κ β N) : Prop where
  reason : ∀ i chan, s.asleep i = some chan → s.Reason i chan
  intr : s.usedIdx ≠ s.used.idx → s.intrStatus = true ∨ s.phase = .raise ∨ ∃ h, s.intr h ≠ .idle

variable {s s' : State ι κ β N} {i : ι} {chan : Chan β}

theorem Reason.sleeping (h : s.Reason i chan) : (s.pc i).sleeping = true := by
  cases chan with
  | free =>
    obtain ⟨⟨b, write, hpc⟩, -⟩ := h
    rw [hpc]
    rfl
  | buf b =>
    obtain ⟨⟨write, c, hpc⟩, -⟩ := h
    rw [hpc]
    rfl

theorem Reason.congr (h : s.Reason i chan) (hpc : s'.pc i = s.pc i)
    (hfree : chan = .free → s'.freeCount ≤ s.freeCount)
    (hdisk : ∀ b, chan = .buf b → (s.buf b).disk = true → (s'.buf b).disk = true) :
    s'.Reason i chan := by
  cases chan with
  | free => exact ⟨hpc ▸ h.1, (hfree rfl).trans_lt h.2⟩
  | buf b => exact ⟨hpc ▸ h.1, hdisk b rfl h.2⟩

theorem freeCount_set_false (c : Chain N) :
    freeCount { s with free := c.set false s.free } ≤ s.freeCount := by
  refine Finset.card_le_card fun d hd => ?_
  have hset : c.set false s.free d = true := (Finset.mem_filter.1 hd).2
  have hmem : d ∉ c := fun hmem => by simp [Chain.set_of_mem hmem] at hset
  rw [Chain.set_of_notMem hmem] at hset
  exact Finset.mem_filter.2 ⟨Finset.mem_univ d, hset⟩

theorem Started.alert (h : s.Started) : s.Alert where
  reason i chan hi := by
    rw [h.asleep] at hi
    cases hi
  intr hne := absurd (h.usedIdx.trans h.used.symm) hne

theorem sleepOn_asleep [DecidableEq ι] (s : State ι κ β N) (i k : ι) (chan : Chan β) (pc : Pc N β) :
    (s.sleepOn i chan pc).asleep k = if k = i then some chan else s.asleep k :=
  Function.update_apply ..

variable [NeZero N] [DecidableEq ι] [DecidableEq κ] [DecidableEq β] {a : Act ι κ β N}

theorem Alert.reason_moves (hw : s.Alert) (h : Moves s a s') (k : ι) (chan : Chan β)
    (hk : s'.asleep k = some chan) : s'.Reason k chan := by
  -- a process that does something is not asleep
  have hawake {i : ι} (hi : (s.pc i).sleeping = false) (hk : s.asleep k = some chan) : k ≠ i := by
    rintro rfl
    rw [(hw.reason k chan hk).sleeping] at hi
    cases hi
  have hsame (hk : s.asleep k = some chan) (hpc : s'.pc k = s.pc k) (hfree : s'.free = s.free)
      (hdisk : ∀ b, (s'.buf b).disk = (s.buf b).disk) : s'.Reason k chan :=
    (hw.reason k chan hk).congr hpc (fun _ => by rw [freeCount, freeCount, hfree])
      fun b _ hb => (hdisk b).trans hb
  cases h with
  | call hpc | ring hpc | publish hpc | done hpc =>
    have hne := hawake (congrArg Pc.sleeping hpc) hk
    exact hsame hk (Function.update_of_ne hne _ _) rfl fun _ => rfl
  | @lock i pc hpc hlock hwoken =>
    have hne : k ≠ i := by
      rintro rfl
      cases hwoken.symm.trans hk
    exact hsame hk (Function.update_of_ne hne _ _) rfl fun _ => rfl
  | alloc hpc =>
    have hne := hawake (congrArg Pc.sleeping hpc) hk
    exact (hw.reason k chan hk).congr (Function.update_of_ne hne _ _)
      (fun _ => freeCount_set_false _) fun _ _ hb => hb
  | @full i b write s₁ hpc hcount htried =>
    rw [sleepOn_asleep] at hk
    by_cases hki : k = i
    · subst hki
      obtain rfl := Option.some.inj ((if_pos rfl).symm.trans hk)
      rw [htried.rest]
      exact ⟨⟨b, write, Function.update_self ..⟩, hcount⟩
    · rw [if_neg hki] at hk
      rw [htried.rest] at hsame ⊢
      refine hsame ?_ (Function.update_of_ne hki _ _) rfl fun _ => rfl
      rcases htried.asleep k with hsame₁ | hnone
      · exact hsame₁.symm.trans hk
      · cases hnone.symm.trans hk
  | @fill i b write c hpc =>
    have hne := hawake (congrArg Pc.sleeping hpc) hk
    refine (hw.reason k chan hk).congr (Function.update_of_ne hne _ _) (fun _ => le_rfl)
      fun b' _ hb' => ?_
    by_cases hb : b' = b
    · simp [goto, fillChain, hb]
    · simpa [goto, fillChain, Function.update_of_ne hb] using hb'
  | @sleep i b write c hpc hdisk =>
    rw [sleepOn_asleep] at hk
    by_cases hki : k = i
    · subst hki
      obtain rfl := Option.some.inj ((if_pos rfl).symm.trans hk)
      exact ⟨⟨write, c, Function.update_self ..⟩, hdisk⟩
    · rw [if_neg hki] at hk
      exact hsame hk (Function.update_of_ne hki _ _) rfl fun _ => rfl
  | @ret i b write c hpc =>
    -- who sleeps for descriptors is woken
    have hk' : (if s.asleep k = some .free then none else s.asleep k) = some chan := hk
    split_ifs at hk' with hfree
    have hne := hawake (congrArg Pc.sleeping hpc) hk'
    refine (hw.reason k chan hk').congr (Function.update_of_ne hne _ _) (fun heq => ?_)
      fun _ _ hb => hb
    exact absurd (heq ▸ hk') hfree
  | @modify b blockno data hfree =>
    refine hsame hk rfl rfl fun b' => ?_
    by_cases hb : b' = b
    · simp [hb]
    · simp [Function.update_of_ne hb]
  | @kill i =>
    have hk' : Function.update s.asleep i none k = some chan := hk
    rw [Function.update_apply] at hk'
    split_ifs at hk' with hki
    exact hsame hk' rfl rfl fun _ => rfl
  | @handle h i j =>
    -- who sleeps for the request is woken
    have hk' : (if s.asleep k = some (.buf j.b) then none else s.asleep k) = some chan := hk
    split_ifs at hk' with hbuf
    refine (hw.reason k chan hk').congr rfl (fun _ => le_rfl) fun b hchan hb => ?_
    have hne : b ≠ j.b := by
      rintro rfl
      exact hbuf (hchan ▸ hk')
    simpa [wakeup, Function.update_of_ne hne] using hb
  | execute => exact hsame hk rfl rfl fun b => (transfer_buf ..).2
  | intrStart | intrLock | ack | intrEnd | take | post | bump | raise =>
    exact hsame hk rfl rfl fun _ => rfl

theorem Alert.intr_moves (hw : s.Alert) (h : Moves s a s') (hne : s'.usedIdx ≠ s'.used.idx) :
    s'.intrStatus = true ∨ s'.phase = .raise ∨ ∃ h, s'.intr h ≠ .idle := by
  cases h with
  | full hpc hcount htried =>
    rw [htried.rest] at hne ⊢
    exact hw.intr hne
  | @intrStart h | @intrLock h | @ack h => exact .inr (.inr ⟨h, by simp⟩)
  | @handle h i j hpc => exact .inr (.inr ⟨h, by simp [wakeup, hpc]⟩)
  | intrEnd hpc heq => exact absurd heq hne
  | execute hphase | post hphase =>
    have hintr := hw.intr hne
    rw [hphase] at hintr
    exact hintr.imp_right fun hor => .inr (hor.resolve_left (by simp))
  | bump => exact .inr (.inl rfl)
  | raise => exact .inl rfl
  | call | lock | alloc | fill | ring | publish | sleep | done | ret | modify | kill | take =>
    exact hw.intr hne

theorem Alert.step (hs : s.Inv) (hw : s.Alert) (h : s.Step a s') : s'.Alert :=
  have hmoves := hs.moves_of_step h
  ⟨hw.reason_moves hmoves, hw.intr_moves hmoves⟩

end State

end Xv6Swap.Virtio
