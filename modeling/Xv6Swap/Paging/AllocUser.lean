import Xv6Swap.Paging.Invisible

/-!
# When `kalloc_user` succeeds

`kalloc_user` needs a physical page and an unused entry of the frame table, and may evict a page for
either of them; an eviction needs a page to evict and a free swap slot. `kallocUser_exact`: in a
state in which every used entry of the frame table stands for a mapped page (`FramesMapped`), a page
is returned exactly if there is a free page and an unused entry, or a used entry and a free slot.
At most one page has been evicted then, and if none is returned nothing has changed.
-/

namespace Xv6Swap.Paging.Kernel

open Raid (Page pgSize)
open Tables

variable {σ : Type} {S : SwapOps σ} {k k' : Kernel σ}

/-- Every used frame entry is a user frame of a process whose page table maps its page, to a page of
the allocator that is not free; and the entries are counted. -/
structure FramesMapped (k : Kernel σ) : Prop where
  user : ∀ i, (k.tables.frameTable i).used = true → (k.tables.frameTable i).userFrame = true
  mapped : ∀ i, (k.tables.frameTable i).used = true → ∃ q root e,
    (k.tables.frameTable i).proc = some q ∧ (k.procs q).pagetable = some root ∧
    (k.tables.frameTable i).va < maxVa ∧ k.pteAt root (k.tables.frameTable i).va = some e ∧
    e.pa % pgSize = 0 ∧ k.kernEnd ≤ e.pa ∧ e.pa < phystop ∧ e.pa ∉ k.freelist
  count : k.tables.userFrameCount =
    (Finset.univ.filter fun i => (k.tables.frameTable i).used = true).card
  nodup : k.freelist.Nodup

/-- The page `va` of `q`, mapped to `pa`, is evicted from frame entry `f` to the free slot `s`. -/
structure PagedOut (L : SwapLaws S) (q : ProcIdx) (va : ℕ) (pa : PA) (f : FrameIdx) (s : SlotIdx)
    (k k' : Kernel σ) : Prop where
  entry : (k.tables.frameTable f).entry = (true, true, some q, va)
  mapped : ∃ root perm, (k.procs q).pagetable = some root ∧ k.pteAt root va = some ⟨pa, perm⟩ ∧
    k'.pts = (k.setLeaf root va none).pts
  slot_free : k.tables.swapUsed s = false
  frame_self : k'.tables.frameTable f = .clear
  frame_other : ∀ i ≠ f, (k'.tables.frameTable i).entry = (k.tables.frameTable i).entry
  count : k'.tables.userFrameCount = k.tables.userFrameCount - 1
  swapMap : k'.tables.swapMap = Function.update k.tables.swapMap s ⟨true, some q, va, some s⟩
  swapUsed : k'.tables.swapUsed = Function.update k.tables.swapUsed s true
  stored : L.view k'.swap s = k.mem pa
  view : ∀ s' ≠ s, L.view k'.swap s' = L.view k.swap s'
  freelist : k'.freelist = pa :: k.freelist
  mem : ∀ pa' ≠ pa, k'.mem pa' = k.mem pa'

/-- There is a page to evict, and a slot for it. -/
def CanEvict (k : Kernel σ) : Prop :=
  (∃ i, (k.tables.frameTable i).used = true) ∧ ∃ s, k.tables.swapUsed s = false

/-- Between two operations of the processes the frame table is in such a state. -/
theorem Inv.framesMapped {g : Ghost} (h : Inv k g) (ho : Owns k g) (hpend : g.pend = none) :
    FramesMapped k := by
  refine ⟨fun i hi => ?_, fun i hi => ?_, h.tables.count, h.pages.nodup⟩
  · obtain ⟨p, v, hentry, -⟩ := h.tables.frame_ok i hi
    simp only [Frame.entry, Prod.mk.injEq] at hentry
    exact hentry.2.1
  · obtain ⟨p, v, hentry, hv, ⟨pa, hpa⟩ | ⟨hp, -⟩⟩ := h.tables.frame_ok i hi
    swap
    · simp [hpend] at hp
    simp only [Frame.entry, Prod.mk.injEq] at hentry
    obtain ⟨-, -, hproc, hva⟩ := hentry
    have hvt := hv.trans_le (h.np_le p)
    obtain ⟨root, hown, hleaf, -, huse⟩ := h.pte_user hpa hvt
    obtain ⟨n, hn⟩ := Option.isSome_iff_exists.1 (h.own_size p root hown)
    obtain ⟨halign, hlo, hhi⟩ := h.pages.managed pa (by simp [huse])
    refine ⟨p, root, ⟨pa, .userRw⟩, hproc, (ho p).symm.trans hown, ?_, ?_, halign, hlo, hhi, ?_⟩
    · rw [hva]
      simp only [vpn, trapframeVa, trampolineVa, maxVa, pgSize] at hvt ⊢
      omega
    · rw [hva, ← hleaf]
      exact h.pteAt_eq hn v
    · intro hmem
      have := h.pages.free_use pa hmem
      simp [huse] at this

/-! ## One eviction -/

theorem evictBegin_none_cases {level : ProcIdx → ℤ} {t t' : Tables}
    (h : t.evictBegin level = (none, t')) :
    (∀ i, (t.frameTable i).evictable = false) ∨ ∀ s, t.swapUsed s = true := by
  obtain ⟨hsame, -, hno⟩ := t.selectVictimFrame_spec level
  unfold evictBegin at h
  generalize t.selectVictimFrame level = r at h hsame hno
  obtain ⟨o, t₁⟩ := r
  cases o with
  | none => exact .inl (hno rfl)
  | some i =>
    right
    by_contra hslot
    rw [not_forall] at hslot
    obtain ⟨s, hs⟩ := hslot
    obtain ⟨r, hres⟩ := exists_reserveSlot
      (t := t₁.setFrame i ⟨(t₁.frameTable i).used, false, none, 0, false⟩)
      ⟨s, (congrFun hsame.swapUsed s).trans (by simpa using hs)⟩
    obtain ⟨slot, t₂⟩ := r
    simp only [hres] at h
    cases h

/-- The first attempt of `evict_one_user_frame` succeeds, unless there is nothing to evict or no
slot. -/
theorem evictOneUserFrame_exact (L : SwapLaws S) (h : FramesMapped k) :
    (∃ t, SameEntries k.tables t ∧ ¬ k.CanEvict ∧
      k.evictOneUserFrame S = .ok (false, { k with tables := t })) ∨
    ∃ q va pa f s k', k.evictOneUserFrame S = .ok (true, k') ∧ k.CanEvict ∧ pa ∉ k.freelist ∧
      PagedOut L q va pa f s k k' := by
  have hloop : k.evictOneUserFrame S = evictLoop S (19 + 1) k := rfl
  rw [hloop, evictLoop]
  cases hb : k.tables.evictBegin k.levels with
  | mk r t =>
    cases r with
    | none =>
      refine .inl ⟨t, evictBegin_none hb, ?_, rfl⟩
      rintro ⟨⟨i, hi⟩, s, hs⟩
      rcases evictBegin_none_cases hb with hno | hno
      · exact absurd (hno i) (by simp [Frame.evictable, hi, h.user i hi])
      · simp [hno s] at hs
    | some vic =>
      have hbegun := evictBegin_some hb
      obtain ⟨f, vp, va, s⟩ := vic
      have hentry := hbegun.entry
      simp only [Frame.entry, Prod.mk.injEq] at hentry
      obtain ⟨hused, -, hproc, hva⟩ := hentry
      obtain ⟨q, root, ⟨pa, perm⟩, hq, hroot, hmax, hat, halign, hlo, hhi, hnew⟩ := h.mapped f hused
      obtain rfl : vp = some q := hproc.symm.trans hq
      rw [hva] at hmax hat
      dsimp only at halign hlo hhi hnew
      have hcan : k.CanEvict := ⟨⟨f, hused⟩, s, hbegun.free⟩
      have hkfree : ∃ k', (k.evicted ⟨f, some q, va, s⟩ t root
          (S.write s (k.mem pa) k.swap).2).kfree pa = .ok k' := by
        rw [kfree, if_neg]
        · exact ⟨_, rfl⟩
        · rw [evicted_kernEnd]
          rintro (hpa | hpa | hpa)
          · exact hpa halign
          · exact absurd hlo (Nat.not_le.2 hpa)
          · exact absurd hhi (Nat.not_lt.2 hpa)
      obtain ⟨k', hfree⟩ := hkfree
      refine .inr ⟨q, va, pa, f, s, k', ?_, hcan, hnew, ?_⟩
      · have hvroot : (({ k with tables := t } : Kernel σ)).victimRoot ⟨f, some q, va, s⟩ =
            some root := by simp [victimRoot, hroot]
        have hat' : (({ k with tables := t } : Kernel σ)).pteAt root va = some ⟨pa, perm⟩ := hat
        have hw : ¬ (S.write s (k.mem pa) k.swap).1 < 0 := not_lt.2 (L.write_ok _ _ _)
        simp only [hvroot, if_neg (not_le.2 hmax), hat']
        have hmem : (({ k with tables := t } : Kernel σ).setLeaf root va none).mem pa =
            k.mem pa := rfl
        have hswap : (({ k with tables := t } : Kernel σ).setLeaf root va none).swap =
            k.swap := rfl
        rw [hmem, hswap, if_neg hw]
        change (do let k ← (k.evicted ⟨f, some q, va, s⟩ t root _).kfree pa; return (true, k)) = _
        rw [hfree]
        rfl
      · obtain rfl := kfree_eq_ok hfree
        exact
          { entry := hbegun.entry
            mapped := ⟨root, perm, hroot, hat, by simp [fill]⟩
            slot_free := hbegun.free
            frame_self := by
              simp [fill, evictPublish, decCount, setFrame, setSwap, hbegun.hidden, Frame.clear]
            frame_other := fun i hi => by
              rw [← hbegun.frame i hi]
              simp [fill, evictPublish, decCount, setFrame, setSwap, hi]
            count := by
              simp [fill, evictPublish, decCount, setFrame, setSwap, hbegun.count]
            swapMap := by simp [fill, evictPublish, decCount, setFrame, setSwap, hbegun.swapMap]
            swapUsed := by simp [fill, evictPublish, decCount, setFrame, setSwap, hbegun.swapUsed]
            stored := by simp [fill, L.view_write_self]
            view := fun s' hs' => by simp [fill, L.view_write_of_ne _ _ _ _ hs']
            freelist := by simp
            mem := fun pa' hpa' => by simp [fill, hpa'] }

/-! ## The rounds -/

theorem hasFreeFrameSlot_iff (t : Tables) :
    t.hasFreeFrameSlot = true ↔ ∃ i, (t.frameTable i).used = false := by
  simp only [hasFreeFrameSlot, Fin.isSome_find?_iff, Bool.not_eq_true']

/-- An eviction is needed exactly if the table is full. -/
theorem FramesMapped.needEvict_iff (h : FramesMapped k) :
    k.tables.needEvict = true ↔ ∀ i, (k.tables.frameTable i).used = true := by
  have hfree := hasFreeFrameSlot_iff k.tables
  simp only [needEvict, Bool.or_eq_true, decide_eq_true_eq, Bool.not_eq_true']
  constructor
  · rintro (hcount | hno) i
    · have hcard : (Finset.univ.filter fun i => (k.tables.frameTable i).used = true) =
          Finset.univ := by
        refine Finset.eq_univ_of_card _ (le_antisymm (Finset.card_le_univ _) ?_)
        rw [← h.count, Fintype.card_fin]
        exact hcount
      have hi := Finset.mem_univ i
      rw [← hcard, Finset.mem_filter] at hi
      exact hi.2
    · by_contra hi
      have := hfree.2 ⟨i, by simpa using hi⟩
      simp [hno] at this
  · intro hall
    right
    by_contra hsome
    obtain ⟨i, hi⟩ := hfree.1 (by simpa using hsome)
    simp [hall i] at hi

/-- What `kalloc_user` has done when it returns the page `pa`: at most one eviction, and the page is
cleared, taken off the free list and registered in an unused entry. -/
structure Given (L : SwapLaws S) (p : ProcIdx) (va : ℕ) (k : Kernel σ) (pa : PA)
    (k' : Kernel σ) : Prop where
  zero : k'.mem pa = 0
  not_free : pa ∉ k'.freelist
  registered : ∃ (k₁ : Kernel σ) (i : FrameIdx),
    (k₁ = k ∨ ∃ q va' pa' f s, PagedOut L q va' pa' f s k k₁) ∧
    (k₁.tables.frameTable i).used = false ∧
    k₁.freelist = pa :: k'.freelist ∧
    k' = k₁.taken pa k'.freelist { k₁.tables.setFrame i ⟨true, true, some p, va, true⟩ with
      userFrameCount := k₁.tables.userFrameCount + 1 }

/-- The end of a round that finds a free page and an unused entry. -/
theorem given_of_pop (L : SwapLaws S) {k₁ : Kernel σ} {p : ProcIdx} {va : ℕ} {pa : PA}
    {l : List PA} {t : Tables}
    (hev : k₁ = k ∨ ∃ q va' pa' f s, PagedOut L q va' pa' f s k k₁)
    (hfree : k₁.freelist = pa :: l) (hnew : pa ∉ l)
    (hreg : k₁.tables.registerUserFrame p va = some t) :
    Given L p va k pa (k₁.taken pa l t) := by
  obtain ⟨i, hi, rfl⟩ := registerUserFrame_eq_some hreg
  exact ⟨by simp [taken, fill]; rfl, hnew, k₁, i, hev, hi, hfree, rfl⟩

/-- A round that needs no eviction and finds a free page returns it. -/
theorem kallocUserRound_pop {p : ProcIdx} {va : ℕ} {k₁ : Kernel σ} {pa : PA} {l : List PA}
    {t : Tables} (hfirst : k.evictIfNeeded S = .ok (true, k₁)) (hfree : k₁.freelist = pa :: l)
    (hreg : k₁.tables.registerUserFrame p va = some t) :
    k.kallocUserRound S p va = .ok (some (some pa), k₁.taken pa l t) := by
  have htables : (({ k₁ with freelist := l } : Kernel σ).fill pa 0).tables = k₁.tables := rfl
  simp only [kallocUserRound, hfirst, ok_bind]
  rw [if_neg (by simp)]
  simp only [popFree, hfree, htables, hreg]
  rfl

/-- The loop of `kalloc_user` in a full table: it starts with an eviction. -/
theorem kallocUser_full (L : SwapLaws S) (h : FramesMapped k)
    (hfull : ∀ i, (k.tables.frameTable i).used = true) (p : ProcIdx) (va : ℕ) :
    (¬ k.CanEvict ∧ ∃ t, SameEntries k.tables t ∧
      k.kallocUser S p va = .ok (none, { k with tables := t })) ∨
    (k.CanEvict ∧ ∃ pa k', k.kallocUser S p va = .ok (some pa, k') ∧ Given L p va k pa k') := by
  have hneed : k.evictIfNeeded S = k.evictOneUserFrame S := if_pos (h.needEvict_iff.2 hfull)
  rcases evictOneUserFrame_exact L h with ⟨t, hsame, hno, heq⟩ |
    ⟨q, va', pa, f, s, k₁, heq, hcan, hnew, hout⟩
  · refine .inl ⟨hno, t, hsame, ?_⟩
    have hround : k.kallocUserRound S p va = .ok (some none, { k with tables := t }) := by
      simp only [kallocUserRound, hneed, heq, ok_bind]
      rfl
    simp only [kallocUser, kallocUserLoop, hround, ok_bind]
    rfl
  · obtain ⟨t, hreg⟩ := exists_registerUserFrame p va
      (t := k₁.tables) ⟨f, by rw [hout.frame_self]; rfl⟩
    refine .inr ⟨hcan, pa, _, ?_, given_of_pop L (.inr ⟨q, va', pa, f, s, hout⟩) hout.freelist hnew
      hreg⟩
    simp only [kallocUser, kallocUserLoop,
      kallocUserRound_pop (hneed.trans heq) hout.freelist hreg, ok_bind]
    rfl

/-- The loop of `kalloc_user` with an unused entry: it evicts a page only if there is no free
one. -/
theorem kallocUser_unused (L : SwapLaws S) (h : FramesMapped k)
    (hslot : ∃ i, (k.tables.frameTable i).used = false) (p : ProcIdx) (va : ℕ) :
    (k.freelist = [] ∧ ¬ k.CanEvict ∧ ∃ t, SameEntries k.tables t ∧
      k.kallocUser S p va = .ok (none, { k with tables := t })) ∨
    ((k.freelist ≠ [] ∨ k.CanEvict) ∧ ∃ pa k', k.kallocUser S p va = .ok (some pa, k') ∧
      Given L p va k pa k') := by
  have hneed : k.evictIfNeeded S = .ok (true, k) := by
    refine if_neg fun hall => ?_
    obtain ⟨i, hi⟩ := hslot
    simp [h.needEvict_iff.1 hall i] at hi
  obtain ⟨pa, l, hfree⟩ | hfree : (∃ pa l, k.freelist = pa :: l) ∨ k.freelist = [] := by
    cases k.freelist <;> simp
  · obtain ⟨t, hreg⟩ := exists_registerUserFrame p va hslot
    have hnew : pa ∉ l := (List.nodup_cons.1 (hfree ▸ h.nodup)).1
    refine .inr ⟨.inl (by simp [hfree]), pa, _, ?_, given_of_pop L (.inl rfl) hfree hnew hreg⟩
    simp only [kallocUser, kallocUserLoop, kallocUserRound_pop hneed hfree hreg, ok_bind]
    rfl
  · -- the first round evicts a page, and the second one takes it
    have hround : k.kallocUserRound S p va =
        if k.tables.userFrameCount = 0 then .ok (some none, k) else
          k.evictOneUserFrame S >>= fun r => .ok (if r.1 then none else some none, r.2) := by
      simp only [kallocUserRound, hneed, ok_bind]
      rw [if_neg (by simp)]
      simp only [popFree, hfree]
      rfl
    by_cases hcount : k.tables.userFrameCount = 0
    · refine .inl ⟨hfree, ?_, k.tables, .refl _, ?_⟩
      · rintro ⟨⟨i, hi⟩, -⟩
        have hmem : i ∈ Finset.univ.filter fun i => (k.tables.frameTable i).used = true := by
          simp [hi]
        rw [h.count, Finset.card_eq_zero] at hcount
        simp [hcount] at hmem
      · simp only [kallocUser, kallocUserLoop, hround, if_pos hcount, ok_bind]
        rfl
    · rw [if_neg hcount] at hround
      rcases evictOneUserFrame_exact L h with ⟨t, hsame, hno, heq⟩ |
        ⟨q, va', pa, f, s, k₁, heq, hcan, hnew, hout⟩
      · have hfail : k.kallocUserRound S p va = .ok (some none, { k with tables := t }) := by
          rw [hround, heq]
          rfl
        refine .inl ⟨hfree, hno, t, hsame, ?_⟩
        simp only [kallocUser, kallocUserLoop, hfail, ok_bind]
        rfl
      · have hretry : k.kallocUserRound S p va = .ok (none, k₁) := by
          rw [hround, heq]
          rfl
        have hunused : ∃ i, (k₁.tables.frameTable i).used = false :=
          ⟨f, by rw [hout.frame_self]; rfl⟩
        have hneed₁ : k₁.evictIfNeeded S = .ok (true, k₁) := by
          have hle : k.tables.userFrameCount ≤ maxFrames := by
            rw [h.count]
            exact (Finset.card_le_univ _).trans_eq (Fintype.card_fin _)
          have hlt : ¬ maxFrames ≤ k₁.tables.userFrameCount := by
            rw [hout.count]
            omega
          refine if_neg ?_
          simp [needEvict, hlt, (hasFreeFrameSlot_iff _).2 hunused]
        obtain ⟨t, hreg⟩ := exists_registerUserFrame p va hunused
        refine .inr ⟨.inr hcan, pa, _, ?_, given_of_pop L (.inr ⟨q, va', pa, f, s, hout⟩)
          hout.freelist hnew hreg⟩
        simp only [kallocUser, kallocUserLoop, hretry,
          kallocUserRound_pop hneed₁ hout.freelist hreg, ok_bind]
        rfl

/-- **`kalloc_user` succeeds exactly when it can**: there is a free page and an unused entry of the
frame table, or a used entry and a free swap slot. On success the page is cleared, off the free list
and registered, and at most one page has been evicted; on failure nothing but reference bits and
the clock hand has changed. -/
theorem kallocUser_exact (L : SwapLaws S) (k : Kernel σ) (h : FramesMapped k) (p : ProcIdx)
    (va : ℕ) :
    ∃ r k', k.kallocUser S p va = .ok (r, k') ∧
      (r.isSome = true ↔
        (k.freelist ≠ [] ∧ ∃ i, (k.tables.frameTable i).used = false) ∨
        (∃ i, (k.tables.frameTable i).used = true) ∧ ∃ s, k.tables.swapUsed s = false) ∧
      (∀ pa, r = some pa → Given L p va k pa k') ∧
      (r = none → ∃ t, SameEntries k.tables t ∧ k' = { k with tables := t }) := by
  by_cases hfull : ∀ i, (k.tables.frameTable i).used = true
  · have hno : ¬ (k.freelist ≠ [] ∧ ∃ i, (k.tables.frameTable i).used = false) := by
      rintro ⟨-, i, hi⟩
      simp [hfull i] at hi
    rcases kallocUser_full L h hfull p va with ⟨hcan, t, hsame, heq⟩ | ⟨hcan, pa, k', heq, hgiven⟩
    · exact ⟨none, _, heq, ⟨by simp, fun hr => absurd hr (not_or.2 ⟨hno, hcan⟩)⟩, by simp,
        fun _ => ⟨t, hsame, rfl⟩⟩
    · refine ⟨some pa, k', heq, ⟨fun _ => .inr hcan, fun _ => rfl⟩, ?_, by simp⟩
      rintro pa' ⟨⟩
      exact hgiven
  · have hslot : ∃ i, (k.tables.frameTable i).used = false := by
      simpa using hfull
    rcases kallocUser_unused L h hslot p va with
      ⟨hfree, hcan, t, hsame, heq⟩ | ⟨hcan, pa, k', heq, hgiven⟩
    · refine ⟨none, _, heq, ⟨by simp, ?_⟩, by simp, fun _ => ⟨t, hsame, rfl⟩⟩
      rintro (⟨hne, -⟩ | hc)
      · exact absurd hfree hne
      · exact absurd hc hcan
    · refine ⟨some pa, k', heq, ⟨fun _ => ?_, fun _ => rfl⟩, ?_, by simp⟩
      · exact hcan.imp (fun hne => ⟨hne, hslot⟩) id
      · rintro pa' ⟨⟩
        exact hgiven

/-- A process with one resident page and no free page. -/
def packed : Kernel Raid.Dev :=
  { sole with
    tables := { Tables.init with
      frameTable := fun i => if i.val = 0 then ⟨true, true, some soleProc, pgSize, true⟩ else .clear
      userFrameCount := 1 }
    freelist := []
    pts := fun _ =>
      { mid := fun i => if i = 0 then some (soleRoot + 0x1000) else none
        low := fun j => if j = 0 then some (soleRoot + 0x2000) else none
        leaf := fun v => if v = 1 then some ⟨soleRoot + 0x3000, .userRw⟩ else none } }

theorem packed_framesMapped : FramesMapped packed := by
  have hused : ∀ i, (packed.tables.frameTable i).used = true → i.val = 0 := by decide
  refine ⟨by decide, fun i hi => ?_, by decide, List.nodup_nil⟩
  have hi0 := hused i hi
  refine ⟨soleProc, soleRoot, ⟨soleRoot + 0x3000, .userRw⟩, ?_, rfl, ?_, ?_, by decide, by decide,
    by decide, List.not_mem_nil⟩
  · simp [packed, hi0]
  · simp [packed, hi0, maxVa, pgSize]
  · simp only [packed, hi0, if_true]
    decide

/-- The page is evicted to make room for another one. -/
theorem kallocUser_exact_packed : ∃ pa k',
    packed.kallocUser (raidSwap .raid5) soleProc 0 = .ok (some pa, k') ∧
      Given (raidSwapLaws .raid5) soleProc 0 packed pa k' := by
  obtain ⟨r, k', heq, hiff, hgiven, -⟩ :=
    kallocUser_exact (raidSwapLaws .raid5) packed packed_framesMapped soleProc 0
  obtain ⟨pa, rfl⟩ := Option.isSome_iff_exists.1
    (hiff.2 (.inr ⟨⟨Tables.init.clockHand, by decide⟩, ⟨0, maxSwapPages_pos⟩, rfl⟩))
  exact ⟨pa, k', heq, hgiven pa rfl⟩

end Xv6Swap.Paging.Kernel
