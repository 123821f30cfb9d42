import Xv6Swap.Cache.Invariant

/-!
# The buffer cache is a transparent block store

`Ordered` is the invariant of the links: they form a ring of all buffers in which those that nobody
uses stand in the order of their last `brelse`. `CacheInv` adds it to `BufInv`, and that the disk
has what the log says was last written. `cache_transparent` is the result: in every run of clients
that keep to their `Contract`, `bread` gives what was last written to the block, a block has one
buffer at most, the list is intact, and a miss recycles the buffer that was released longest ago.
-/

namespace Xv6Swap.Cache

open Pool Interleave
open Queue (diskReqRead diskReqWrite)

/-! ## Reading the log -/

section Log

variable {δ : Type*} {block : UInt32 → δ} {log : List (Event δ)} {e : Event δ} {b : BufIdx}

theorem lastWrite_append_bwrite (block : UInt32 → δ) (log : List (Event δ)) (n : UInt32) (x : δ) :
    lastWrite block (log ++ [.bwrite n x]) = Function.update (lastWrite block log) n x := by
  simp [lastWrite]

theorem lastWrite_append_bread (block : UInt32 → δ) (log : List (Event δ)) (n : UInt32) (x : δ) :
    lastWrite block (log ++ [.bread n x]) = lastWrite block log := by
  simp [lastWrite]

theorem lastWrite_append_brelse (block : UInt32 → δ) (log : List (Event δ)) (b : BufIdx) :
    lastWrite block (log ++ [.brelse b]) = lastWrite block log := by
  simp [lastWrite]

theorem lastRelse_le (log : List (Event δ)) (b : BufIdx) : lastRelse log b ≤ log.length :=
  Nat.sub_le ..

theorem lastRelse_append (h : e.releases b = false) :
    lastRelse (log ++ [e]) b = lastRelse log b := by
  simp [lastRelse, List.findIdx_cons, h]

theorem lastRelse_append_brelse (log : List (Event δ)) (b : BufIdx) :
    lastRelse (log ++ [.brelse b]) b = log.length + 1 := by
  simp [lastRelse, List.findIdx_cons, Event.releases]

/-- Every `bread` in the log returned what was last written before it. -/
def Faithful (block : UInt32 → δ) (log : List (Event δ)) : Prop :=
  ∀ log₁ n x log₂, log = log₁ ++ .bread n x :: log₂ → x = lastWrite block log₁ n

theorem Faithful.append (h : Faithful block log)
    (he : ∀ n x, e = .bread n x → x = lastWrite block log n) : Faithful block (log ++ [e]) := by
  intro log₁ n x log₂ heq
  rcases List.eq_nil_or_concat log₂ with rfl | ⟨log₂', e', rfl⟩
  · obtain ⟨rfl, hlast⟩ := List.append_inj' heq rfl
    exact he n x (List.head_eq_of_cons_eq hlast)
  · rw [List.concat_eq_append, ← List.cons_append, ← List.append_assoc] at heq
    exact h log₁ n x log₂' (List.append_inj' heq rfl).1

end Log

/-! ## The order of the list -/

/-- Links through all buffers, those that nobody uses in the order of their last `brelse`. -/
def Ordered {ι δ : Type*} (c : Bcache ι δ) (log : List (Event δ)) : Prop :=
  ∃ l, Ring c.links l ∧ (∀ b, b ∈ l) ∧
    (l.filter fun b => (c.buf b).refcnt == 0).Pairwise fun a b => lastRelse log b ≤ lastRelse log a

section Order

variable {ι δ : Type*} {c c' : Bcache ι δ} {log log' : List (Event δ)} {b : BufIdx}
  {dev n : UInt32}

theorem ring_length_le {l : List BufIdx} (h : Ring c.links l) : l.length ≤ nbuf := by
  have hlen := h.nodup.length_le_card
  rwa [Fintype.card_fin] at hlen

/-- The first loop of `bget`. -/
theorem Ordered.lookup_eq_some (h : Ordered c log) (hb : c.lookup dev n = some b) :
    (c.buf b).dev = dev ∧ (c.buf b).blockno = n := by
  obtain ⟨l, hring, -, -⟩ := h
  rw [Bcache.lookup, hring.search_next _ (ring_length_le hring)] at hb
  simpa using List.find?_some hb

theorem Ordered.lookup_eq_none (h : Ordered c log) (hnone : c.lookup dev n = none) (b : BufIdx) :
    ¬ ((c.buf b).dev = dev ∧ (c.buf b).blockno = n) := by
  obtain ⟨l, hring, hall, -⟩ := h
  rw [Bcache.lookup, hring.search_next _ (ring_length_le hring), List.find?_eq_none] at hnone
  simpa using hnone b (hall b)

/-- The second loop of `bget`. -/
theorem Ordered.unused_eq_some (h : Ordered c log) (hb : c.unused = some b) :
    (c.buf b).refcnt = 0 ∧ ∀ a, (c.buf a).refcnt = 0 → lastRelse log b ≤ lastRelse log a := by
  obtain ⟨l, hring, hall, hsorted⟩ := h
  rw [Bcache.unused, hring.search_prev _ (ring_length_le hring)] at hb
  have hfree : (c.buf b).refcnt = 0 := by simpa using List.find?_some hb
  refine ⟨hfree, fun a ha => ?_⟩
  -- the buffer found is the last one of those that nobody uses
  rw [← List.head?_filter, List.filter_reverse, List.head?_reverse, List.getLast?_eq_some_iff] at hb
  obtain ⟨l', hl'⟩ := hb
  rw [hl'] at hsorted
  have hmem : a ∈ l' ++ [b] := by
    rw [← hl', List.mem_filter]
    exact ⟨hall a, by simpa using ha⟩
  rcases List.mem_append.1 hmem with ha' | ha'
  · exact (List.pairwise_append.1 hsorted).2.2 a ha' b List.mem_cons_self
  · rw [List.mem_singleton.1 ha']

theorem Ordered.unused_eq_none (h : Ordered c log) (hnone : c.unused = none) :
    c.referenced = nbuf := by
  obtain ⟨l, hring, hall, -⟩ := h
  rw [Bcache.unused, hring.search_prev _ (ring_length_le hring), List.find?_eq_none] at hnone
  have hused : ∀ b, (c.buf b).refcnt ≠ 0 := fun b => by
    simpa using hnone b (List.mem_reverse.2 (hall b))
  rw [Bcache.referenced, Finset.filter_true_of_mem fun b _ => hused b, Finset.card_univ,
    Fintype.card_fin]

/-- A step that releases no buffer that nobody uses afterwards. -/
theorem Ordered.mono (h : Ordered c log) (hlinks : c'.links = c.links)
    (hfree : ∀ b, (c'.buf b).refcnt = 0 →
      (c.buf b).refcnt = 0 ∧ lastRelse log' b = lastRelse log b) : Ordered c' log' := by
  obtain ⟨l, hring, hall, hsorted⟩ := h
  refine ⟨l, hlinks ▸ hring, hall, ?_⟩
  have hsub : (l.filter fun b => (c'.buf b).refcnt == 0).Sublist
      (l.filter fun b => (c.buf b).refcnt == 0) :=
    List.monotone_filter_right l fun b hb => by
      simpa using (hfree b (by simpa using hb)).1
  refine (hsorted.sublist hsub).imp_of_mem fun {a b} ha hb hab => ?_
  rw [(hfree a (by simpa using (List.mem_filter.1 ha).2)).2,
    (hfree b (by simpa using (List.mem_filter.1 hb).2)).2]
  exact hab

/-- The fields that `brelse` leaves. -/
theorem brelse_buf (c : Bcache ι δ) (b : BufIdx) : (c.brelse b).buf =
    Function.update c.buf b { c.buf b with holder := none, refcnt := (c.buf b).refcnt - 1 } := by
  simp only [Bcache.brelse, Bcache.modify, Function.update_self, Function.update_idem]
  split <;> rfl

theorem brelse_links (c : Bcache ι δ) (b : BufIdx) : (c.brelse b).links =
    if (c.buf b).refcnt - 1 = 0 then (c.links.unlink b).pushFront b else c.links := by
  simp only [Bcache.brelse, Bcache.modify, Function.update_self]
  split <;> rfl

theorem releases_brelse_of_ne {a b : BufIdx} (h : a ≠ b) :
    (.brelse b : Event δ).releases a = false := by
  simpa [Event.releases] using h.symm

/-- The last user releases a buffer: it goes to the front. -/
theorem Ordered.brelse_last (h : Ordered c log) (hb : (c.buf b).refcnt = 1) :
    Ordered (c.brelse b) (log ++ [.brelse b]) := by
  obtain ⟨l, hring, hall, hsorted⟩ := h
  obtain ⟨l₁, l₂, rfl⟩ := List.append_of_mem (hall b)
  have hnot : b ∉ l₁ ++ l₂ := (List.nodup_middle.1 hring.nodup).notMem
  have hne : ∀ a ∈ l₁ ++ l₂, a ≠ b := fun a ha heq => hnot (heq ▸ ha)
  refine ⟨b :: (l₁ ++ l₂), ?_, fun a => ?_, ?_⟩
  · rw [brelse_links, if_pos (by rw [hb])]
    exact hring.unlink.pushFront hnot
  · have ha := hall a
    simp only [List.mem_append, List.mem_cons] at ha ⊢
    tauto
  · -- the others that nobody uses are as before
    have hfilter : (l₁ ++ l₂).filter (fun a => ((c.brelse b).buf a).refcnt == 0) =
        (l₁ ++ b :: l₂).filter fun a => (c.buf a).refcnt == 0 := by
      rw [List.filter_append l₁ (b :: l₂), List.filter_cons_of_neg (by simp [hb]),
        ← List.filter_append]
      refine List.filter_congr fun a ha => ?_
      rw [brelse_buf, Function.update_of_ne (hne a ha)]
    have hzero : ((c.brelse b).buf b).refcnt = 0 := by
      rw [brelse_buf, Function.update_self, hb]
    rw [List.filter_cons_of_pos (by simp [hzero]), List.pairwise_cons, hfilter]
    have hother : ∀ a ∈ (l₁ ++ b :: l₂).filter fun a => (c.buf a).refcnt == 0,
        lastRelse (log ++ [.brelse b]) a = lastRelse log a := fun a ha =>
      lastRelse_append (releases_brelse_of_ne fun heq => by
        simp [heq, hb] at ha)
    refine ⟨fun a ha => ?_, hsorted.imp_of_mem fun {a a'} ha ha' hle => ?_⟩
    · rw [hother a ha, lastRelse_append_brelse]
      exact (lastRelse_le log a).trans (Nat.le_succ _)
    · rwa [hother a ha, hother a' ha']

/-- `brelse` by a client that uses the buffer. -/
theorem Ordered.brelse (h : Ordered c log) (hb : (c.buf b).refcnt ≠ 0) :
    Ordered (c.brelse b) (log ++ [.brelse b]) := by
  by_cases hlast : (c.buf b).refcnt = 1
  · exact h.brelse_last hlast
  · have hmore : (c.buf b).refcnt - 1 ≠ 0 := by omega
    refine h.mono (by rw [brelse_links, if_neg hmore]) fun a ha => ?_
    have hab : a ≠ b := fun heq => by
      rw [heq, brelse_buf, Function.update_self] at ha
      exact hmore ha
    rw [brelse_buf, Function.update_of_ne hab] at ha
    exact ⟨ha, lastRelse_append (releases_brelse_of_ne hab)⟩

theorem foldl_pushFront_ring {L : Links BufIdx} (l : List BufIdx) {l' : List BufIdx}
    (h : Ring L l') (hnodup : (l.reverse ++ l').Nodup) :
    Ring (l.foldl (fun L b => L.pushFront b) L) (l.reverse ++ l') := by
  induction l generalizing L l' with
  | nil => exact h
  | cons b l ih =>
    rw [List.reverse_cons, List.append_assoc, List.singleton_append] at hnodup ⊢
    exact ih (h.pushFront (List.nodup_cons.1 (List.nodup_append.1 hnodup).2.1).1) hnodup

theorem ordered_binit (data : δ) : Ordered (.binit data : Bcache ι δ) [] := by
  have hnodup : ((List.finRange nbuf).reverse ++ []).Nodup := by
    simpa using List.nodup_finRange nbuf
  refine ⟨_, foldl_pushFront_ring (List.finRange nbuf) ring_empty hnodup, fun b => by simp, ?_⟩
  exact List.pairwise_of_forall fun a b => le_rfl

end Order

/-! ## The invariant -/

/-- The invariant of the cache on a disk that was `block` at first. -/
structure CacheInv {ι δ : Type*} [Fintype ι] (dev : UInt32) (block : UInt32 → δ)
    (c : Cfg ι Client (State ι δ)) : Prop where
  bufs : BufInv dev c.mem.disk.block c.loc c.mem.disk.cache.buf
  order : Ordered c.mem.disk.cache c.mem.log
  idle : QueueIdle c.mem.disk.queue.q
  written : c.mem.disk.block = lastWrite block c.mem.log
  reads : Faithful block c.mem.log
  running : ∀ i, c.loc i ≠ .stuck

section System

variable {ι δ : Type*} [Fintype ι] [DecidableEq ι] {dev : UInt32} {block : UInt32 → δ}
  {c : Cfg ι Client (State ι δ)} {i : ι} {b : BufIdx} {n : UInt32} {l : Client} {s : State ι δ}

omit [DecidableEq ι] in
theorem cacheInv_start (hdev : dev ≠ 0) (data : δ) (block : UInt32 → δ) :
    CacheInv dev block (cacheStart data block : Cfg ι Client (State ι δ)) where
  bufs :=
    { ok b :=
        { devs := .inl rfl
          count := (users_eq_zero.2 fun i => by simp [cacheStart, Client.buf]).symm
          waiting := nofun
          holding := nofun
          holder := nofun
          loaded := nofun
          clean := nofun }
      unique a b ha := absurd ha.symm hdev }
  order := ordered_binit data
  idle := ⟨rfl, rfl, fun r => rfl⟩
  written := rfl
  reads log₁ n x log₂ heq := absurd heq (by simp [cacheStart])
  running i := nofun

omit [Fintype ι] in
theorem running_update (h : ∀ j, c.loc j ≠ .stuck) (hl : l ≠ .stuck) (j : ι) :
    Function.update c.loc i l j ≠ .stuck := by
  intro hj
  rcases update_eq hj with ⟨-, heq⟩ | ⟨-, hj⟩
  · exact hl heq
  · exact h j hj

/-- `bget`: a buffer for the block. If no buffer is for it, the one released longest ago is taken.
-/
theorem CacheInv.bget (h : CacheInv dev block c) (hi : c.loc i = .idle)
    (hroom : c.mem.disk.cache.referenced < nbuf) (n : UInt32) :
    ∃ b s, c.mem.next dev i .idle (.bget n) = some (.waiting b n, s) ∧
      CacheInv dev block ⟨Function.update c.loc i (.waiting b n), s⟩ ∧
      ((∀ a, ¬ ((c.mem.disk.cache.buf a).dev = dev ∧ (c.mem.disk.cache.buf a).blockno = n)) →
        (c.mem.disk.cache.buf b).refcnt = 0 ∧
        ∀ a, (c.mem.disk.cache.buf a).refcnt = 0 →
          lastRelse c.mem.log b ≤ lastRelse c.mem.log a) := by
  have hidle : ∀ a b : BufIdx, a ≠ b → (c.loc i).buf ≠ some a := fun a b _ => by rw [hi]; nofun
  have hwait : ∀ a b : BufIdx, a ≠ b → (Client.waiting b n).buf ≠ some a :=
    fun a b hab heq => hab (Option.some.inj heq).symm
  cases hlook : c.mem.disk.cache.lookup dev n with
  | some b =>
    obtain ⟨hdev, hn⟩ := h.order.lookup_eq_some hlook
    have hnext : c.mem.next dev i .idle (.bget n) = some (.waiting b n,
        { c.mem with disk := { c.mem.disk with cache := c.mem.disk.cache.modify b fun e =>
          { e with refcnt := e.refcnt + 1 } } }) := by
      simp only [State.next, Bcache.bget, hlook]
    refine ⟨b, _, hnext, ⟨?_, ?_, h.idle, h.written, h.reads, running_update h.running nofun⟩,
      fun hmiss => absurd ⟨hdev, hn⟩ (hmiss b)⟩
    · exact h.bufs.step (hidle · b) (hwait · b) ((h.bufs.ok b).refer hi hdev hn)
        (fun a hab _ ha => h.bufs.blockno_ne hab hdev ha) fun _ _ _ => rfl
    · refine h.order.mono rfl fun a ha => ⟨?_, rfl⟩
      by_cases hab : a = b
      · subst hab
        simp [Bcache.modify] at ha
      · simpa [Bcache.modify, hab] using ha
  | none =>
    have hmiss := h.order.lookup_eq_none hlook
    cases hunused : c.mem.disk.cache.unused with
    | none =>
      rw [h.order.unused_eq_none hunused] at hroom
      exact absurd hroom (lt_irrefl _)
    | some b =>
      obtain ⟨hfree, holdest⟩ := h.order.unused_eq_some hunused
      have hnext : c.mem.next dev i .idle (.bget n) = some (.waiting b n,
          { c.mem with disk := { c.mem.disk with cache := c.mem.disk.cache.modify b fun e =>
            { e with dev := dev, blockno := n, valid := false, refcnt := 1 } } }) := by
        simp only [State.next, Bcache.bget, hlook, hunused]
      refine ⟨b, _, hnext, ⟨?_, ?_, h.idle, h.written, h.reads, running_update h.running nofun⟩,
        fun _ => ⟨hfree, holdest⟩⟩
      · exact h.bufs.step (hidle · b) (hwait · b) ((h.bufs.ok b).recycle hi hfree)
          (fun a _ _ ha hn => hmiss a ⟨ha, hn⟩) fun _ _ _ => rfl
      · refine h.order.mono rfl fun a ha => ⟨?_, rfl⟩
        by_cases hab : a = b
        · subst hab
          simp [Bcache.modify] at ha
        · simpa [Bcache.modify, hab] using ha

omit [Fintype ι] [DecidableEq ι] in
/-- `bread` with the lock acquired leaves the data of the block in the buffer. -/
theorem State.bread_eq (level : ι → Int32) (hidle : QueueIdle s.disk.queue.q)
    (hclean : (s.disk.cache.buf b).valid = true →
      (s.disk.cache.buf b).data = s.disk.block (s.disk.cache.buf b).blockno) :
    ∃ queue, QueueIdle queue.q ∧ s.bread i level b n = (.holding b n false,
      ⟨⟨{ s.disk.cache with
          buf := Function.update s.disk.cache.buf b { s.disk.cache.buf b with
            holder := some i, valid := true
            data := s.disk.block (s.disk.cache.buf b).blockno } }, queue, s.disk.block⟩,
        s.log ++ [.bread n (s.disk.block (s.disk.cache.buf b).blockno)]⟩) := by
  cases hvalid : (s.disk.cache.buf b).valid with
  | true =>
    refine ⟨s.disk.queue, hidle, ?_⟩
    simp only [State.bread, Bcache.modify, Function.update_self, hvalid, if_true,
      ← hclean hvalid]
  | false =>
    obtain ⟨queue, hqueue, hsubmit⟩ := submitDiskRequest_spec i level b diskReqRead
      (d := { s.disk with cache := s.disk.cache.modify b fun e => { e with holder := some i } })
        hidle
    refine ⟨queue, hqueue, ?_⟩
    have hread : (diskReqRead == diskReqWrite) = false := rfl
    have hinvalid : ((s.disk.cache.modify b fun e => { e with holder := some i }).buf b).valid =
        false := by
      simp only [Bcache.modify, Function.update_self, hvalid]
    dsimp only at hsubmit
    simp only [State.bread, hinvalid, Bool.false_eq_true, if_false, hsubmit, hread,
      Disk.virtioDiskRw]
    simp only [Bcache.modify, Function.update_self, Function.update_idem]

/-- The rest of `bread` returns the data of the block once the lock is free. -/
theorem CacheInv.bread (h : CacheInv dev block c) (hi : c.loc i = .waiting b n)
    (hfree : (c.mem.disk.cache.buf b).holder = none) (level : ι → Int32) :
    ∃ s x, c.mem.next dev i (.waiting b n) (.await level) = some (.holding b n false, s) ∧
      s.log = c.mem.log ++ [.bread n x] ∧ (s.disk.cache.buf b).data = x ∧
      CacheInv dev block ⟨Function.update c.loc i (.holding b n false), s⟩ := by
  have hok := h.bufs.ok b
  obtain ⟨hdev, hn⟩ := hok.waiting i n hi
  have hclean : (c.mem.disk.cache.buf b).valid = true →
      (c.mem.disk.cache.buf b).data = c.mem.disk.block (c.mem.disk.cache.buf b).blockno :=
    fun hvalid => hok.clean hvalid fun j m hj => by
      have hheld := (hok.holding j m true hj).2.2.2
      rw [hfree] at hheld
      cases hheld
  obtain ⟨queue, hqueue, hbread⟩ := State.bread_eq (i := i) (n := n) level h.idle hclean
  have hnext : c.mem.next dev i (.waiting b n) (.await level) =
      some (c.mem.bread i level b n) := by
    simp only [State.next, hfree, Option.isNone_none, if_true]
  refine ⟨_, _, hnext.trans (congrArg some hbread), rfl, by simp, ?_, ?_, hqueue, ?_, ?_,
    running_update h.running nofun⟩
  · exact h.bufs.step (fun a hab heq => hab (by rw [hi] at heq; exact (Option.some.inj heq).symm))
      (fun a hab heq => hab (Option.some.inj heq).symm) (hok.acquire hi hfree)
      (fun a hab _ ha => h.bufs.blockno_ne hab hdev ha) fun _ _ _ => rfl
  · refine h.order.mono rfl fun a ha => ⟨?_, lastRelse_append rfl⟩
    by_cases hab : a = b
    · subst hab
      simpa using ha
    · simpa [hab] using ha
  · exact h.written.trans (lastWrite_append_bread ..).symm
  · refine h.reads.append fun m x heq => ?_
    obtain ⟨rfl, rfl⟩ := Event.bread.inj heq
    rw [h.written, hn]

variable {dirty : Bool}

omit [Fintype ι] [DecidableEq ι] in
/-- A client that holds a buffer uses no other. -/
theorem buf_ne_of_holding (hi : c.loc i = .holding b n dirty) (a : BufIdx) (hab : a ≠ b) :
    (c.loc i).buf ≠ some a := by
  rw [hi]
  exact fun heq => hab (Option.some.inj heq).symm

/-- The holder of a buffer modifies its data. -/
theorem CacheInv.modify (h : CacheInv dev block c) (hi : c.loc i = .holding b n dirty) (x : δ) :
    CacheInv dev block ⟨Function.update c.loc i (.holding b n true),
      { c.mem with disk := { c.mem.disk with
        cache := c.mem.disk.cache.modify b fun e => { e with data := x } } }⟩ := by
  have hok := h.bufs.ok b
  have hdev := (hok.holding i n dirty hi).1
  refine ⟨?_, ?_, h.idle, h.written, h.reads, running_update h.running nofun⟩
  · exact h.bufs.step (buf_ne_of_holding hi) (fun a hab heq => hab (Option.some.inj heq).symm)
      (hok.keep hi _ x true nofun) (fun a hab _ ha => h.bufs.blockno_ne hab hdev ha)
      fun _ _ _ => rfl
  · refine h.order.mono rfl fun a ha => ⟨?_, rfl⟩
    by_cases hab : a = b
    · subst hab
      simpa [Bcache.modify] using ha
    · simpa [Bcache.modify, hab] using ha

/-- `bwrite` returns with the data on the disk. -/
theorem CacheInv.bwrite (h : CacheInv dev block c) (hi : c.loc i = .holding b n dirty)
    (level : ι → Int32) :
    ∃ s, c.mem.bwrite i level b n = (.holding b n false, s) ∧
      CacheInv dev block ⟨Function.update c.loc i (.holding b n false), s⟩ := by
  have hok := h.bufs.ok b
  obtain ⟨hdev, -, -, hholder⟩ := hok.holding i n dirty hi
  obtain ⟨queue, hqueue, hsubmit⟩ := submitDiskRequest_spec i level b diskReqWrite h.idle
  have hwrite : (diskReqWrite == diskReqWrite) = true := rfl
  rw [hwrite] at hsubmit
  have hnext : c.mem.bwrite i level b n = (.holding b n false,
      ⟨Disk.virtioDiskRw b true { c.mem.disk with queue := queue }, c.mem.log ++
        [.bwrite (c.mem.disk.cache.buf b).blockno (c.mem.disk.cache.buf b).data]⟩) := by
    simp only [State.bwrite, hholder, ne_eq, not_true, if_false, hsubmit]
  refine ⟨_, hnext, ?_, ?_, hqueue, ?_, h.reads.append nofun, running_update h.running nofun⟩
  · have hkeep := hok.keep hi (Function.update c.mem.disk.block (c.mem.disk.cache.buf b).blockno
      (c.mem.disk.cache.buf b).data) (c.mem.disk.cache.buf b).data false
      fun _ => by rw [Function.update_self]
    have hstep := h.bufs.step (l := .holding b n false) (buf_ne_of_holding hi)
      (fun a hab heq => hab (Option.some.inj heq).symm) hkeep
      (fun a hab _ ha => h.bufs.blockno_ne hab hdev ha)
      fun a hab ha => Function.update_of_ne
        (h.bufs.blockno_ne hab hdev ((h.bufs.ok a).loaded ha)) ..
    rwa [Function.update_eq_self] at hstep
  · exact h.order.mono rfl fun a ha => ⟨ha, lastRelse_append rfl⟩
  · rw [lastWrite_append_bwrite, ← h.written]
    rfl

/-- `brelse` by a client that has not modified the data since its last `bwrite`. -/
theorem CacheInv.brelse (h : CacheInv dev block c) (hi : c.loc i = .holding b n false) :
    ∃ s, c.mem.brelse i b = (.idle, s) ∧
      CacheInv dev block ⟨Function.update c.loc i .idle, s⟩ := by
  have hok := h.bufs.ok b
  obtain ⟨hdev, -, -, hholder⟩ := hok.holding i n false hi
  have hnext : c.mem.brelse i b = (.idle,
      ⟨{ c.mem.disk with cache := c.mem.disk.cache.brelse b }, c.mem.log ++ [.brelse b]⟩) := by
    simp only [State.brelse, hholder, ne_eq, not_true, if_false]
  have hused : (c.mem.disk.cache.buf b).refcnt ≠ 0 := fun hzero =>
    users_eq_zero.1 (hok.count.symm.trans hzero) i (by rw [hi]; rfl)
  refine ⟨_, hnext, ?_, h.order.brelse hused, h.idle, ?_, h.reads.append nofun,
    running_update h.running nofun⟩
  · have hstep := h.bufs.step (buf_ne_of_holding hi) (fun _ _ hnone => by cases hnone)
      (hok.release hi)
      (fun a hab _ ha => h.bufs.blockno_ne hab hdev ha) fun _ _ _ => rfl
    rwa [← brelse_buf] at hstep
  · exact h.written.trans (lastWrite_append_brelse ..).symm

/-- Every step of a client that keeps to its contract. -/
theorem CacheInv.next {a : Action ι δ} (h : CacheInv dev block c) (hok : Contract c i a)
    (hn : c.mem.next dev i (c.loc i) a = some (l, s)) :
    CacheInv dev block ⟨Function.update c.loc i l, s⟩ := by
  cases a with
  | setDiskPolicy policy =>
    have heq : c.mem.next dev i (c.loc i) (.setDiskPolicy policy) = some (c.loc i, { c.mem with
        disk := { c.mem.disk with queue := { c.mem.disk.queue with
          q := { c.mem.disk.queue.q with policy := policy } } } }) := by
      cases c.loc i <;> rfl
    obtain ⟨rfl, rfl⟩ := Prod.mk.inj (Option.some.inj (heq.symm.trans hn))
    rw [Function.update_eq_self]
    exact ⟨h.bufs, h.order, ⟨h.idle.head, h.idle.busy, h.idle.free⟩, h.written, h.reads, h.running⟩
  | bget n =>
    cases hi : c.loc i with
    | idle =>
      obtain ⟨b, s', heq, hinv, -⟩ := h.bget hi hok n
      rw [hi] at hn
      obtain ⟨rfl, rfl⟩ := Prod.mk.inj (Option.some.inj (heq.symm.trans hn))
      exact hinv
    | _ => rw [hi] at hn; cases hn
  | await level =>
    cases hi : c.loc i with
    | waiting b n =>
      rw [hi] at hn
      obtain ⟨hfree, -⟩ := Option.ite_none_right_eq_some.1 hn
      obtain ⟨s', x, heq, -, -, hinv⟩ := h.bread hi (Option.isNone_iff_eq_none.1 hfree) level
      obtain ⟨rfl, rfl⟩ := Prod.mk.inj (Option.some.inj (heq.symm.trans hn))
      exact hinv
    | _ => rw [hi] at hn; cases hn
  | modify x =>
    cases hi : c.loc i with
    | holding b n dirty =>
      rw [hi] at hn
      obtain ⟨rfl, rfl⟩ := Prod.mk.inj (Option.some.inj hn)
      exact h.modify hi x
    | _ => rw [hi] at hn; cases hn
  | bwrite level =>
    cases hi : c.loc i with
    | holding b n dirty =>
      rw [hi] at hn
      obtain ⟨s', heq, hinv⟩ := h.bwrite hi level
      obtain ⟨rfl, rfl⟩ := Prod.mk.inj (heq.symm.trans (Option.some.inj hn))
      exact hinv
    | _ => rw [hi] at hn; cases hn
  | brelse =>
    cases hi : c.loc i with
    | holding b n dirty =>
      cases dirty with
      | true => exact absurd hi (hok b n)
      | false =>
        rw [hi] at hn
        obtain ⟨s', heq, hinv⟩ := h.brelse hi
        obtain ⟨rfl, rfl⟩ := Prod.mk.inj (heq.symm.trans (Option.some.inj hn))
        exact hinv
    | _ => rw [hi] at hn; cases hn

/-- The cache in the configuration `c` is a transparent store for the blocks of a disk that was
`block` at first. -/
structure Transparent (dev : UInt32) (block : UInt32 → δ) (c : Cfg ι Client (State ι δ)) :
    Prop where
  /-- every `bread` so far returned what was last written -/
  reads : ∀ log₁ n x log₂, c.mem.log = log₁ ++ .bread n x :: log₂ → x = lastWrite block log₁ n
  /-- `bread` finds a buffer; on a miss the unreferenced one whose last `brelse` is oldest -/
  finds : ∀ i n, c.loc i = .idle → c.mem.disk.cache.referenced < nbuf →
    ∃ b s, (cacheSystem dev).next i (.bget n) (c.loc i) c.mem = some (.waiting b n, s) ∧
      ((∀ a, ¬ ((c.mem.disk.cache.buf a).dev = dev ∧ (c.mem.disk.cache.buf a).blockno = n)) →
        (c.mem.disk.cache.buf b).refcnt = 0 ∧
        ∀ a, (c.mem.disk.cache.buf a).refcnt = 0 → lastRelse c.mem.log b ≤ lastRelse c.mem.log a)
  /-- and it returns when nobody holds the lock, with the data in the buffer -/
  returns : ∀ i b n level, c.loc i = .waiting b n → (c.mem.disk.cache.buf b).holder = none →
    ∃ s, (cacheSystem dev).next i (.await level) (c.loc i) c.mem = some (.holding b n false, s) ∧
      s.log = c.mem.log ++ [.bread n (s.disk.cache.buf b).data] ∧
      (s.disk.cache.buf b).data = lastWrite block c.mem.log n
  unique : ∀ a b, (c.mem.disk.cache.buf a).dev ≠ 0 →
    (c.mem.disk.cache.buf a).dev = (c.mem.disk.cache.buf b).dev →
    (c.mem.disk.cache.buf a).blockno = (c.mem.disk.cache.buf b).blockno → a = b
  /-- the list has every buffer once (`Ring.nodup`), in the same order both ways -/
  linked : ∃ l, Ring c.mem.disk.cache.links l ∧ ∀ b, b ∈ l
  running : ∀ i, c.loc i ≠ .stuck

theorem CacheInv.transparent (h : CacheInv dev block c) : Transparent dev block c where
  reads := h.reads
  finds i n hi hroom := by
    obtain ⟨b, s, hnext, -, hlru⟩ := h.bget hi hroom n
    exact ⟨b, s, by rw [hi]; exact hnext, hlru⟩
  returns i b n level hi hfree := by
    obtain ⟨s, x, hnext, hlog, rfl, hinv⟩ := h.bread hi hfree level
    exact ⟨s, by rw [hi]; exact hnext, hlog, hinv.reads _ n _ [] hlog⟩
  unique a b hne hdev hn := by
    have ha := (h.bufs.ok a).devs.resolve_left hne
    exact h.bufs.unique a b ha (hdev ▸ ha) hn
  linked := by
    obtain ⟨l, hring, hall, -⟩ := h.order
    exact ⟨l, hring, hall⟩
  running := h.running

/-- **The buffer cache over the disk queue is a transparent block store.** For every run of any
clients on one device that keep to their contract, from any contents of the disk, under any changes
of the policy. -/
theorem cache_transparent (hdev : dev ≠ 0) (data : δ)
    (h : (cacheSystem dev).Reaches Contract (cacheStart data block) c) :
    Transparent dev block c := by
  refine (h.inv (P := CacheInv dev block) ?_ (cacheInv_start hdev data block)).transparent
  intro c i a l s hok hinv hn
  exact hinv.next hok hn

end System

/-- A client writes block 7, uses all buffers for other blocks, and reads block 7 again; in between
the policy changes and another client waits for the buffer. -/
def writeAndReturn : List (Fin 2 × Action (Fin 2) ℕ) :=
  List.flatten [[(0, .bget 7), (0, .await fun _ => 0), (1, .bget 7), (0, .modify 42),
      (0, .bwrite fun _ => 0), (0, .brelse), (0, .setDiskPolicy 1), (1, .await fun _ => 0),
        (1, .brelse)],
    (List.range nbuf).flatMap fun k =>
      [(0, .bget (.ofNat (100 + k))), (0, .await fun _ => 0), (0, .brelse)],
    [(0, .bget 7), (0, .await fun _ => 0)]]

theorem cache_transparent_writeAndReturn :
    ∃ c, (cacheSystem 1).Reaches Contract
        (cacheStart 0 (fun _ => 0) : Cfg (Fin 2) Client (State (Fin 2) ℕ)) c ∧
      c.mem.log.getLast? = some (.bread 7 42) ∧ Transparent 1 (fun _ => 0) c := by
  have hrun : ((cacheSystem 1).execWhile Contract writeAndReturn
      (cacheStart 0 (fun _ => 0) : Cfg (Fin 2) Client (State (Fin 2) ℕ))).map
        (fun c => c.mem.log.getLast?) = some (some (.bread 7 42)) := by
    decide +kernel
  obtain ⟨c, hc, hlog⟩ := Option.map_eq_some_iff.1 hrun
  have hreach := System.reaches_of_execWhile hc
  exact ⟨c, hreach, hlog, cache_transparent (by decide) 0 hreach⟩

end Xv6Swap.Cache
