import Xv6Swap.Virtio.Wakeups

/-!
# Every request can be completed

From every state that the driver reaches it can go on, without a new call and without a process
being killed, until every call has returned (`virtio_completes`). So no processes wait for each
other, no descriptor leaks, and neither a wakeup nor an interrupt that somebody needs is lost.

`work` counts what the processes have to do, `delay` what keeps them from it: the lock and the
requests that the device has not done. From every state with a call in progress some steps lower
`work`, or lower `delay` and leave `work` as it is (`Live.advance`). Not all steps do: processes
that wait for descriptors wake each other up in `alloc3_desc`.
-/

namespace Xv6Swap.Virtio

open Fifo (slot)

variable {ι κ β : Type*} {N : ℕ}

/-- Steps of the driver and the device, without calls from outside. -/
def Act.internal : Act ι κ β N → Bool
  | .proc _ | .ret _ | .intr _ | .dev _ => true
  | .call _ _ _ | .modify _ _ _ | .kill _ => false

/-- How far a process is from its return. -/
def Pc.rank (disk : β → Bool) : Pc N β → ℕ
  | .idle | .panicked _ => 0
  | .finish _ _ _ => 1
  | .check b _ _ | .sleepBuf b _ _ => if disk b then 3 else 2
  | .publish _ _ _ => 4
  | .ring _ _ _ => 5
  | .fill _ _ _ => 6
  | .acquire _ _ | .alloc _ _ | .sleepFree _ _ => 7

def Phase.rank : Phase N → ℕ
  | .idle | .broken => 0
  | .raise => 1
  | .bump _ => 2
  | .post _ => 3

theorem Pc.rank_congr {pc : Pc N β} {disk disk' : β → Bool}
    (h : ∀ {j}, pc.sent = some j → disk' j.b = disk j.b) : pc.rank disk' = pc.rank disk := by
  cases pc with
  | check b write c | sleepBuf b write c =>
    have hb : disk' b = disk b := h rfl
    simp only [rank, hb]
  | _ => rfl

theorem Pc.rank_le {pc : Pc N β} {disk disk' : β → Bool}
    (h : ∀ b, disk' b = true → disk b = true) : pc.rank disk' ≤ pc.rank disk := by
  cases pc with
  | check b write c | sleepBuf b write c =>
    simp only [rank]
    split_ifs with hb' hb
    · exact le_rfl
    · exact absurd (h b hb') hb
    · exact Nat.le_succ 2
    · exact le_rfl
  | _ => exact le_rfl

theorem Pc.rank_lt {pc : Pc N β} {j : Job N β} {disk disk' : β → Bool} (hsent : pc.sent = some j)
    (hfinish : pc.finishing = none) (hdisk : disk j.b = true) (hdisk' : disk' j.b = false) :
    pc.rank disk' < pc.rank disk := by
  cases pc with
  | check b write c | sleepBuf b write c =>
    obtain rfl := Option.some.inj hsent
    simp only [rank, hdisk, hdisk', Bool.false_eq_true, if_true, if_false]
    exact Nat.lt_succ_self 2
  | finish b write c => cases hfinish
  | _ => cases hsent

namespace State

def work [Fintype ι] (s : State ι κ β N) : ℕ := ∑ i, (s.pc i).rank fun b => (s.buf b).disk

def delay (s : State ι κ β N) : ℕ :=
  (if s.lock.isNone then 0 else 1) + 5 * Fifo.count s.takenIdx s.avail.idx + 4 * s.taken.length +
    s.phase.rank

/-- There is less to do, or less that keeps the processes from it. -/
def Closer [Fintype ι] (s' s : State ι κ β N) : Prop :=
  s'.work < s.work ∨ s'.work = s.work ∧ s'.delay < s.delay

section Work

variable [Fintype ι] {s s' : State ι κ β N}

theorem work_lt {i : ι} (hle : ∀ k, ((s'.pc k).rank fun b => (s'.buf b).disk) ≤
      (s.pc k).rank fun b => (s.buf b).disk)
    (hlt : ((s'.pc i).rank fun b => (s'.buf b).disk) < (s.pc i).rank fun b => (s.buf b).disk) :
    s'.work < s.work :=
  Finset.sum_lt_sum (fun k _ => hle k) ⟨i, Finset.mem_univ i, hlt⟩

variable [DecidableEq ι] {i : ι} {pc : Pc N β}

theorem work_lt_of_goto (hpc : s'.pc = Function.update s.pc i pc)
    (hdisk : ∀ b, (s'.buf b).disk = (s.buf b).disk)
    (hlt : (pc.rank fun b => (s.buf b).disk) < (s.pc i).rank fun b => (s.buf b).disk) :
    s'.work < s.work := by
  refine work_lt (i := i) (fun k => ?_) ?_
  · simp only [hdisk, hpc]
    by_cases hk : k = i
    · rw [hk, Function.update_self]
      exact hlt.le
    · rw [Function.update_of_ne hk]
  · simp only [hdisk, hpc, Function.update_self]
    exact hlt

theorem work_eq_of_goto (hpc : s'.pc = Function.update s.pc i pc)
    (hdisk : ∀ b, (s'.buf b).disk = (s.buf b).disk)
    (heq : (pc.rank fun b => (s.buf b).disk) = (s.pc i).rank fun b => (s.buf b).disk) :
    s'.work = s.work := by
  refine Finset.sum_congr rfl fun k _ => ?_
  simp only [hdisk, hpc]
  by_cases hk : k = i
  · rw [hk, Function.update_self, heq]
  · rw [Function.update_of_ne hk]

end Work

variable [NeZero N] [DecidableEq ι] [DecidableEq κ] [DecidableEq β] {s s' : State ι κ β N}

/-- A step of the driver or the device. -/
def Internal (s s' : State ι κ β N) : Prop := ∃ a : Act ι κ β N, a.internal = true ∧ s.Step a s'

/-- Some steps of the driver and the device. -/
def Leads : State ι κ β N → State ι κ β N → Prop := Relation.ReflTransGen Internal

structure Live (s : State ι κ β N) : Prop where
  inv : s.Inv
  alert : s.Alert

theorem Live.internal (hN : N ∣ 2 ^ 15) (hs : s.Live) (h : s.Internal s') : s'.Live := by
  obtain ⟨a, -, hstep⟩ := h
  exact ⟨hs.inv.step hN hstep, hs.alert.step hs.inv hstep⟩

theorem Live.leads (hN : N ∣ 2 ^ 15) (hs : s.Live) (h : s.Leads s') : s'.Live := by
  induction h with
  | refl => exact hs
  | tail _ hstep ih => exact ih.internal hN hstep

/-! ## The steps -/

section Steps

variable {i : ι} {h : κ} {b : β} {write : Bool} {c : Chain N}

theorem internal_lock {pc : Pc N β} (hpc : (s.pc i).locked = some pc) (hlock : s.lock = none)
    (hwoken : s.asleep i = none) : s.Internal ({ s with lock := some (.inl i) }.goto i pc) := by
  refine ⟨.proc i, rfl, trivial, ?_⟩
  cases hi : s.pc i with
  | acquire b write | sleepFree b write | sleepBuf b write c =>
    rw [hi] at hpc
    obtain rfl := Option.some.inj hpc
    simp only [step, procStep, hi, acquire, hlock, hwoken, and_self, if_true]
  | _ =>
    rw [hi] at hpc
    cases hpc

theorem internal_done (hpc : s.pc i = .check b write c) (hdisk : (s.buf b).disk = false) :
    s.Internal (s.goto i (.finish b write c)) :=
  ⟨.proc i, rfl, trivial, by simp [step, procStep, hpc, hdisk]⟩

end Steps

variable [Fintype ι]

/-- Who holds the lock goes on, or gives it back. -/
theorem Inv.advance_proc (hs : s.Inv) {i : ι} (hlock : s.lock = some (.inl i)) :
    ∃ s', s.Internal s' ∧ s'.Closer s := by
  have hholds : (s.pc i).holds = true := (hs.lock (.inl i)).1 hlock
  cases hpc : s.pc i with
  | idle | acquire b write | sleepFree b write | sleepBuf b write c =>
    rw [hpc] at hholds
    cases hholds
  | panicked e => exact absurd hpc (hs.pc i e)
  | alloc b write =>
    rcases s.alloc3Desc_cases with ⟨c, hc, hfree, heq⟩ | ⟨hcount, s₁, heq, htried⟩
    · refine ⟨{ s with free := c.set false s.free }.goto i (.fill b write c),
        ⟨.proc i, rfl, trivial, by simp only [State.step, procStep, hpc, heq]⟩, .inl ?_⟩
      exact work_lt_of_goto rfl (fun _ => rfl) (by rw [hpc]; exact Nat.lt_succ_self 6)
    · refine ⟨s₁.sleepOn i .free (.sleepFree b write),
        ⟨.proc i, rfl, trivial, by simp only [State.step, procStep, hpc, heq]⟩, .inr ?_⟩
      rw [htried.rest]
      refine ⟨work_eq_of_goto rfl (fun _ => rfl) (by rw [hpc]; rfl), ?_⟩
      simp [delay, sleepOn, hlock]
  | fill b write c =>
    refine ⟨(s.fillChain b write c).goto i (.ring b write c),
      ⟨.proc i, rfl, trivial, by simp only [State.step, procStep, hpc]⟩, .inl ?_⟩
    have hjob : (s.pc i).job = some ⟨b, write, c⟩ := congrArg Pc.job hpc
    have hother {k : ι} (hk : k ≠ i) :
        ((s.pc k).rank fun b' => ((s.fillChain b write c).buf b').disk) =
          (s.pc k).rank fun b' => (s.buf b').disk :=
      Pc.rank_congr fun hsent => congrArg Buf.disk
        (Function.update_of_ne (hs.buf_ne hk (Pc.job_of_sent hsent) hjob) _ _)
    have hrank : ((Function.update s.pc i (.ring b write c) i).rank
        fun b' => ((s.fillChain b write c).buf b').disk) <
          (s.pc i).rank fun b' => (s.buf b').disk := by
      rw [Function.update_self, hpc]
      exact Nat.lt_succ_self 5
    refine work_lt (i := i) (fun k => ?_) hrank
    by_cases hk : k = i
    · exact hk ▸ hrank.le
    · simp only [goto, Function.update_of_ne hk]
      exact (hother hk).le
  | ring b write c =>
    refine ⟨_, ⟨.proc i, rfl, trivial, by simp only [State.step, procStep, hpc]; rfl⟩, .inl ?_⟩
    exact work_lt_of_goto rfl (fun _ => rfl) (by rw [hpc]; exact Nat.lt_succ_self 4)
  | publish b write c =>
    refine ⟨_, ⟨.proc i, rfl, trivial, by simp only [State.step, procStep, hpc]; rfl⟩, .inl ?_⟩
    refine work_lt_of_goto rfl (fun _ => rfl) ?_
    rw [hpc]
    simp only [Pc.rank]
    split_ifs <;> decide
  | check b write c =>
    by_cases hdisk : (s.buf b).disk = true
    · refine ⟨s.sleepOn i (.buf b) (.sleepBuf b write c),
        ⟨.proc i, rfl, trivial, by simp only [State.step, procStep, hpc, hdisk, if_true]⟩, .inr ?_⟩
      refine ⟨work_eq_of_goto rfl (fun _ => rfl) (by rw [hpc]; rfl), ?_⟩
      simp [delay, sleepOn, hlock]
    · rw [Bool.not_eq_true] at hdisk
      refine ⟨_, internal_done hpc hdisk, .inl (work_lt_of_goto rfl (fun _ => rfl) ?_)⟩
      rw [hpc]
      simp [Pc.rank, hdisk]
  | finish b write c =>
    have hfilled : (s.pc i).filled = some ⟨b, write, c⟩ := congrArg Pc.filled hpc
    refine ⟨_, ⟨.ret i, rfl, trivial, by
      simp only [State.step, procReturn, hpc, hs.freeChain hfilled]; rfl⟩, .inl ?_⟩
    exact work_lt_of_goto rfl (fun _ => rfl) (by rw [hpc]; exact Nat.one_pos)

/-- The handler takes note of a request, or gives the lock back. -/
theorem Inv.advance_loop (hs : s.Inv) {h : κ} (hpc : s.intr h = .loop) :
    ∃ s', s.Internal s' ∧ s'.Closer s ∧ (s.usedIdx ≠ s.used.idx → s'.work < s.work) := by
  have hlock : s.lock = some (.inr h) := (hs.lock (.inr h)).2 (congrArg IntrPc.holds hpc)
  by_cases hne : s.usedIdx = s.used.idx
  · refine ⟨{ s with lock := none, intr := Function.update s.intr h .idle },
      ⟨.intr h, rfl, trivial, by simp [State.step, intrStep, hpc, hne]⟩, .inr ⟨rfl, ?_⟩,
      fun hnot => absurd hne hnot⟩
    simp [delay, hlock]
  · obtain ⟨s', hstep⟩ : ∃ s', s.intrStep h = some s' := by
      simp only [intrStep, hpc, if_pos hne]
      split_ifs
      · exact ⟨_, rfl⟩
      · split <;> exact ⟨_, rfl⟩
    have hwork : s'.work < s.work := by
      cases hs.moves_of_intrStep hstep with
      | @handle _ i j hpc hne hid hsent hdisk =>
        have hfinish : (s.pc i).finishing = none := by
          cases hfin : (s.pc i).finishing with
          | none => rfl
          | some j' =>
            obtain rfl := Option.some.inj ((Pc.sent_of_finishing hfin).symm.trans hsent)
            cases (hs.finished hfin).symm.trans hdisk
        refine work_lt (i := i) (fun k => Pc.rank_le fun b hb => ?_)
          (Pc.rank_lt hsent hfinish hdisk (by simp [wakeup]))
        by_cases hj : b = j.b
        · rw [hj, hdisk]
        · simpa [wakeup, Function.update_of_ne hj] using hb
      | intrEnd hpc heq => exact absurd heq hne
      | intrStart hpc' => cases hpc'.symm.trans hpc
      | intrLock hpc' => cases hpc'.symm.trans hpc
      | ack hpc' => cases hpc'.symm.trans hpc
    exact ⟨s', ⟨.intr h, rfl, trivial, hstep⟩, .inl hwork, fun _ => hwork⟩

/-- A handler in `virtio_disk_intr` goes on. -/
theorem Live.advance_ack (hN : N ∣ 2 ^ 15) (hs : s.Live) {h : κ} (hpc : s.intr h = .ack) :
    ∃ s', s.Leads s' ∧ s'.Closer s ∧ (s.usedIdx ≠ s.used.idx → s'.work < s.work) := by
  have hack : s.Internal { s with intrStatus := false, intr := Function.update s.intr h .loop } :=
    ⟨.intr h, rfl, trivial, by simp only [State.step, intrStep, hpc]⟩
  obtain ⟨s', hstep, hcloser, hwork⟩ :=
    (hs.internal hN hack).inv.advance_loop (Function.update_self h .loop s.intr)
  exact ⟨s', .tail (.single hack) hstep, hcloser, hwork⟩

theorem Live.advance_intr (hN : N ∣ 2 ^ 15) (hs : s.Live) {h : κ}
    (hlock : s.lock = some (.inr h)) : ∃ s', s.Leads s' ∧ s'.Closer s := by
  have hholds : (s.intr h).holds = true := (hs.inv.lock (.inr h)).1 hlock
  cases hpc : s.intr h with
  | idle | acquire =>
    rw [hpc] at hholds
    cases hholds
  | panicked e => exact absurd hpc (hs.inv.intr h e)
  | ack =>
    obtain ⟨s', hleads, hcloser, -⟩ := hs.advance_ack hN hpc
    exact ⟨s', hleads, hcloser⟩
  | loop =>
    obtain ⟨s', hstep, hcloser, -⟩ := hs.inv.advance_loop hpc
    exact ⟨s', .single hstep, hcloser⟩

/-- With the lock free and a used entry not seen, an interrupt is handled. -/
theorem Live.advance_used (hN : N ∣ 2 ^ 15) [Nonempty κ] (hs : s.Live) (hlock : s.lock = none)
    (hphase : s.phase = .idle) (hne : s.usedIdx ≠ s.used.idx) : ∃ s', s.Leads s' ∧ s'.Closer s := by
  -- a handler that waits for the lock gets it
  have hacquire {s : State ι κ β N} (hs : s.Live) (hlock : s.lock = none)
      (hne : s.usedIdx ≠ s.used.idx) {h : κ} (hpc : s.intr h = .acquire) :
      ∃ s', s.Leads s' ∧ s'.work < s.work := by
    have hstep : s.Internal
        { s with lock := some (.inr h), intr := Function.update s.intr h .ack } :=
      ⟨.intr h, rfl, trivial, by simp only [State.step, intrStep, hpc, hlock, if_true]⟩
    obtain ⟨s', hleads, -, hwork⟩ :=
      (hs.internal hN hstep).advance_ack hN (Function.update_self h .ack s.intr)
    exact ⟨s', .head hstep hleads, hwork hne⟩
  by_cases hactive : ∃ h, s.intr h ≠ .idle
  · obtain ⟨h, hh⟩ := hactive
    have hout : (s.intr h).holds = false := by
      have hguard := hs.inv.lock
      rw [hlock] at hguard
      exact hguard.eq_false_of_none (.inr h)
    have hpc : s.intr h = .acquire := by
      cases hpc : s.intr h with
      | acquire => rfl
      | idle => exact absurd hpc hh
      | ack | loop | panicked e =>
        rw [hpc] at hout
        cases hout
    obtain ⟨s', hleads, hwork⟩ := hacquire hs hlock hne hpc
    exact ⟨s', hleads, .inl hwork⟩
  · have hstatus : s.intrStatus = true := by
      rcases hs.alert.intr hne with hstatus | hraise | hintr
      · exact hstatus
      · cases hraise.symm.trans hphase
      · exact absurd hintr hactive
    obtain ⟨h⟩ := ‹Nonempty κ›
    have hidle : s.intr h = .idle := not_not.1 fun hh => hactive ⟨h, hh⟩
    have hstep : s.Internal { s with intr := Function.update s.intr h .acquire } :=
      ⟨.intr h, rfl, trivial, by simp only [State.step, intrStep, hidle, hstatus, if_true]⟩
    obtain ⟨s', hleads, hwork⟩ := hacquire (hs.internal hN hstep) hlock hne
      (Function.update_self h .acquire s.intr)
    exact ⟨s', .head hstep hleads, .inl hwork⟩

theorem leads_of_devStep {a : DevAct N} (h : s.devStep a = some s') (hwork : s'.work = s.work)
    (hdelay : s'.delay < s.delay) : ∃ s', s.Leads s' ∧ s'.Closer s :=
  ⟨s', .single ⟨.dev a, rfl, trivial, h⟩, .inr ⟨hwork, hdelay⟩⟩

/-- The device works on a request that it has not done. -/
theorem Live.advance_device (hN : N ∣ 2 ^ 15) [Nonempty κ] (hs : s.Live) (hlock : s.lock = none)
    (hout : s.waiting ++ s.served ≠ []) : ∃ s', s.Leads s' ∧ s'.Closer s := by
  cases hphase : s.phase with
  | broken => exact absurd hphase hs.inv.phase
  | post d =>
    have hstep : s.devStep .post = some { s with
        used := { s.used with ring := Function.update s.used.ring (slot N s.used.idx) d }
        phase := .bump d } := by
      simp only [devStep, hphase]
    exact leads_of_devStep hstep rfl (by simp [delay, hphase, Phase.rank])
  | bump d =>
    have hstep : s.devStep .bump = some { s with
        used := { s.used with idx := s.used.idx + 1 }, phase := .raise } := by
      simp only [devStep, hphase]
    exact leads_of_devStep hstep rfl (by simp [delay, hphase, Phase.rank])
  | raise =>
    have hstep : s.devStep .raise = some { s with intrStatus := true, phase := .idle } := by
      simp only [devStep, hphase]
    exact leads_of_devStep hstep rfl (by simp [delay, hphase, Phase.rank])
  | idle =>
    by_cases hne : s.usedIdx = s.used.idx
    · have hserved : s.served = [] := by
        rw [served, hphase, hne, Fifo.contents_self]
        rfl
      rw [hserved, List.append_nil] at hout
      by_cases htaken : s.taken = []
      · have htake : s.takenIdx ≠ s.avail.idx := by
          intro heq
          rw [waiting, heq, Fifo.contents_self, htaken] at hout
          exact hout rfl
        have hstep : s.devStep .take = some { s with
            taken := s.taken ++ [s.avail.ring (slot N s.takenIdx)]
            takenIdx := s.takenIdx + 1 } := by
          simp only [devStep, if_pos htake]
        refine leads_of_devStep hstep rfl ?_
        have hcount := Fifo.count_succ_left htake
        simp only [delay, List.length_append, List.length_singleton]
        omega
      · obtain ⟨d, hd⟩ := List.exists_mem_of_ne_nil _ htaken
        obtain ⟨i, j, hsent, rfl, -⟩ := hs.inv.sent_of_mem
          (List.mem_append_left s.served (List.mem_append_right _ hd))
        have hparse := (hs.inv.filled (Pc.filled_of_sent hsent)).parseChain
        have hstep : s.devStep (.execute j.chain.head) = some
            { s.transfer (s.request j) j.b j.chain.head with
              taken := s.taken.erase j.chain.head, phase := .post j.chain.head } := by
          simp only [devStep, hphase, if_pos hd, hparse]
        rw [transfer_eq] at hstep
        refine leads_of_devStep hstep ?_ ?_
        · simp only [work, (transfer_buf s _ _ _ _).2]
        · have hlength := List.length_erase_of_mem hd
          have hpos := List.length_pos_of_mem hd
          simp only [delay, hphase, Phase.rank]
          omega
    · exact hs.advance_used hN hlock hphase hne

/-- A process whose request is done returns to the loop and leaves it. -/
theorem Live.advance_done (hs : s.Live) (hlock : s.lock = none) {i : ι} {b : β} {write : Bool}
    {c : Chain N} (hpc : s.pc i = .sleepBuf b write c) (hdisk : (s.buf b).disk = false) :
    ∃ s', s.Leads s' ∧ s'.Closer s := by
  have hawake : s.asleep i = none := by
    cases hasleep : s.asleep i with
    | none => rfl
    | some chan =>
      cases chan with
      | free =>
        obtain ⟨⟨b', write', hpc'⟩, -⟩ := hs.alert.reason i _ hasleep
        cases hpc'.symm.trans hpc
      | buf b' =>
        obtain ⟨⟨write', c', hpc'⟩, hdisk'⟩ := hs.alert.reason i _ hasleep
        obtain ⟨rfl, -, -⟩ := Pc.sleepBuf.inj (hpc'.symm.trans hpc)
        cases hdisk.symm.trans hdisk'
  have hlocked : (s.pc i).locked = some (.check b write c) := by rw [hpc]; rfl
  have hcheck := internal_lock hlocked hlock hawake
  have hdone := internal_done (s := { s with lock := some (.inl i) }.goto i (.check b write c))
    (Function.update_self ..) hdisk
  refine ⟨_, .tail (.single hcheck) hdone, .inl ?_⟩
  refine work_lt_of_goto (Function.update_idem ..) (fun _ => rfl) ?_
  rw [hpc]
  simp [Pc.rank, hdisk]

omit [DecidableEq ι] [DecidableEq κ] [DecidableEq β] [Fintype ι] in
/-- Without jobs all descriptors are free. -/
theorem Inv.freeCount_eq (hs : s.Inv) (hjob : ∀ k, (s.pc k).job = none) : s.freeCount = N := by
  have hfree (d : Fin N) : s.free d = true := by
    by_contra hused
    obtain ⟨k, j, hj, -⟩ := (hs.owned.free_iff d).1 (by simpa using hused)
    cases (hjob k).symm.trans hj
  rw [freeCount, Finset.filter_true_of_mem fun d _ => hfree d, Finset.card_univ, Fintype.card_fin]

/-- A process that waits for descriptors gets them when nobody else has any. -/
theorem Live.advance_start (h3 : 3 ≤ N) (hs : s.Live) (hlock : s.lock = none)
    (hjob : ∀ k, (s.pc k).job = none) {i : ι} {b : β} {write : Bool}
    (hpc : (s.pc i).locked = some (.alloc b write)) : ∃ s', s.Leads s' ∧ s'.Closer s := by
  have hcount := hs.inv.freeCount_eq hjob
  have hawake : s.asleep i = none := by
    cases hasleep : s.asleep i with
    | none => rfl
    | some chan =>
      cases chan with
      | free =>
        have hfew := (hs.alert.reason i _ hasleep).2
        omega
      | buf b' =>
        obtain ⟨⟨write', c', hpc'⟩, -⟩ := hs.alert.reason i _ hasleep
        have hnone := hjob i
        rw [hpc'] at hnone
        cases hnone
  have hrank : ((s.pc i).rank fun b => (s.buf b).disk) = 7 := by
    cases hi : s.pc i with
    | acquire b write | sleepFree b write => rfl
    | _ => rw [hi] at hpc; cases hpc
  have halloc := internal_lock hpc hlock hawake
  set s₁ := { s with lock := some (.inl i) }.goto i (.alloc b write) with hs₁
  rcases s₁.alloc3Desc_cases with ⟨c, -, -, heq⟩ | ⟨hfew, -⟩
  · have hpc₁ : s₁.pc i = .alloc b write := Function.update_self ..
    refine ⟨{ s₁ with free := c.set false s₁.free }.goto i (.fill b write c),
      .tail (.single halloc) ⟨.proc i, rfl, trivial, by
        simp only [State.step, procStep, hpc₁, heq]⟩, .inl ?_⟩
    refine work_lt_of_goto (Function.update_idem ..) (fun _ => rfl) ?_
    rw [hrank]
    exact Nat.lt_succ_self 6
  · exact absurd (hcount.symm.trans_lt hfew) (by omega)

/-- From every state with a call in progress the system gets closer to their end. -/
theorem Live.advance (hN : N ∣ 2 ^ 15) (h3 : 3 ≤ N) [Nonempty κ] (hs : s.Live) {i : ι}
    (hi : s.pc i ≠ .idle) : ∃ s', s.Leads s' ∧ s'.Closer s := by
  cases hlock : s.lock with
  | some t =>
    cases t with
    | inl i =>
      obtain ⟨s', hstep, hcloser⟩ := hs.inv.advance_proc hlock
      exact ⟨s', .single hstep, hcloser⟩
    | inr h => exact hs.advance_intr hN hlock
  | none =>
    by_cases hbuf : ∃ k b write c, s.pc k = .sleepBuf b write c
    · obtain ⟨k, b, write, c, hk⟩ := hbuf
      by_cases hdisk : (s.buf b).disk = true
      · -- the device or a handler has its request
        refine hs.advance_device hN hlock (List.ne_nil_of_mem (a := c.head) ?_)
        exact (hs.inv.tracked.mem_iff _).2 ⟨k, ⟨b, write, c⟩, congrArg Pc.sent hk, rfl, hdisk⟩
      · exact hs.advance_done hlock hk (by simpa using hdisk)
    · have hout (k : ι) : (s.pc k).holds = false := by
        have hguard := hs.inv.lock
        rw [hlock] at hguard
        exact hguard.eq_false_of_none (.inl k)
      have hjob (k : ι) : (s.pc k).job = none := by
        have hk := hout k
        cases hpc : s.pc k with
        | idle | acquire b write | sleepFree b write => rfl
        | sleepBuf b write c => exact absurd ⟨k, b, write, c, hpc⟩ hbuf
        | _ => rw [hpc] at hk; cases hk
      have hk := hout i
      cases hpc : s.pc i with
      | idle => exact absurd hpc hi
      | acquire b write | sleepFree b write =>
        exact hs.advance_start h3 hlock hjob (i := i) (by rw [hpc]; rfl)
      | sleepBuf b write c => exact absurd ⟨i, b, write, c, hpc⟩ hbuf
      | _ => rw [hpc] at hk; cases hk

/-- All calls of a state can be completed. -/
theorem Live.completes (hN : N ∣ 2 ^ 15) (h3 : 3 ≤ N) [Nonempty κ] (hs : s.Live) :
    ∃ s', s.Leads s' ∧ ∀ i, s'.pc i = .idle := by
  induction hm : toLex (s.work, s.delay) using WellFoundedLT.induction generalizing s with
  | ind m ih =>
    by_cases hrest : ∀ i, s.pc i = .idle
    · exact ⟨s, .refl, hrest⟩
    · rw [not_forall] at hrest
      obtain ⟨i, hi⟩ := hrest
      obtain ⟨s₁, hleads, hcloser⟩ := hs.advance hN h3 hi
      have hlt : toLex (s₁.work, s₁.delay) < m := by
        rw [← hm, Prod.Lex.toLex_lt_toLex]
        exact hcloser
      obtain ⟨s', hleads', hidle⟩ := ih _ hlt (hs.leads hN hleads) rfl
      exact ⟨s', hleads.trans hleads', hidle⟩

/-- **Every request can be completed**: from every state that the driver reaches, the driver and the
device can go on until every call has returned. -/
theorem virtio_completes (hN : N ∣ 2 ^ 15) (h3 : 3 ≤ N) [Nonempty κ] (hstart : s.Started)
    {l : List (Act ι κ β N)} (hrun : Simulation.Runs Step s l s') :
    ∃ s'', s'.Leads s'' ∧ ∀ i, s''.pc i = .idle := by
  have hlive : s'.Live := hrun.inv
    (fun _ _ _ hs hstep => ⟨hs.inv.step hN hstep, hs.alert.step hs.inv hstep⟩)
    ⟨hstart.inv, hstart.alert⟩
  exact hlive.completes hN h3

theorem virtio_completes_contention :
    ∃ s', Simulation.Runs Step threeBuffers (contention 0 1 2 0 0 1 2 3) s' ∧
    s'.pc 0 = .sleepBuf 0 true ⟨0, 1, 2⟩ ∧ ∃ s'', s'.Leads s'' ∧ ∀ i, s''.pc i = .idle := by
  obtain ⟨s', hexec, hwaits, -⟩ := exec_contention
  have hrun := Simulation.runs_of_exec step_of_next hexec
  exact ⟨s', hrun, hwaits,
    virtio_completes (by decide) (by decide) (started_virtioDiskInit _ _) hrun⟩

end State

end Xv6Swap.Virtio
