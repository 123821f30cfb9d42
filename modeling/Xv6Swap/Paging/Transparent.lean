import Xv6Swap.Paging.Flat
import Xv6Swap.Paging.Teardown

/-!
# Kernel memory shows flat memories

`Shows L k f`: the processes of the kernel state `k` have the flat memories `f`. The parts of an
operation (accesses with their page faults, the copy of an exit status, `sbrk`, `exit` and `wait`)
keep the table invariants and change the flat memories as they should.
-/

namespace Xv6Swap.Paging.Kernel

open Raid (Byte Page pgSize)

variable {σ : Type} {S : SwapOps σ} {L : SwapLaws S} {k k' : Kernel σ} {g g' : Ghost} {f : Flat}
  {root pa : PA} {n v va : ℕ} {p q : ProcIdx}

/-- The table invariants hold. -/
def Sound (k : Kernel σ) : Prop := ∃ g, Inv k g ∧ Synced k g

/-- The processes have these memories. -/
structure Shows (L : SwapLaws S) (k : Kernel σ) (f : Flat) : Prop where
  size : ∀ p, f.size p = (k.procs p).sz
  status : ∀ p, f.status p = (k.procs p).xstate
  page : ∀ p v, v < npages (k.procs p).sz → v < vpn trapframeVa →
    f.page p v = k.logical L k.roots p v

/-- The memories that processes have in a state. -/
def flat (L : SwapLaws S) (k : Kernel σ) : Flat where
  size p := (k.procs p).sz
  page := k.logical L k.roots
  status p := (k.procs p).xstate

theorem shows_flat (L : SwapLaws S) (k : Kernel σ) : Shows L k (k.flat L) :=
  ⟨fun _ => rfl, fun _ => rfl, fun _ _ _ _ => rfl⟩

/-- All processes and their pages are as they were. -/
structure Stays (L : SwapLaws S) (k k' : Kernel σ) : Prop where
  core : ∀ q, (k'.procs q).core = (k.procs q).core
  logical : ∀ q w, w < vpn trapframeVa → k'.logical L k'.roots q w = k.logical L k.roots q w

theorem Stays.refl (L : SwapLaws S) (k : Kernel σ) : Stays L k k :=
  ⟨fun _ => rfl, fun _ _ _ => rfl⟩

theorem Stays.sz (h : Stays L k k') (q : ProcIdx) : (k'.procs q).sz = (k.procs q).sz :=
  congrArg ProcCore.sz (h.core q)

theorem Stays.pagetable (h : Stays L k k') (q : ProcIdx) :
    (k'.procs q).pagetable = (k.procs q).pagetable :=
  congrArg ProcCore.pagetable (h.core q)

theorem Stays.shows (h : Stays L k k') (hf : Shows L k f) : Shows L k' f where
  size p := by rw [hf.size, h.sz]
  status p := (hf.status p).trans (congrArg ProcCore.xstate (h.core p)).symm
  page p v hv hlt := by
    rw [h.sz] at hv
    rw [hf.page p v hv hlt, h.logical p v hlt]

/-- The processes have the page tables and sizes that they had. -/
theorem Synced.of_core (hs : Synced k g) (hown : g'.own = g.own) (hsize : g'.size = g.size)
    (hcore : ∀ q, (k'.procs q).core = (k.procs q).core) (hpend : g'.pend = none) :
    Synced k' g' where
  own q := by
    rw [hown, hs.own]
    exact (congrArg ProcCore.pagetable (hcore q)).symm
  size q root hq := by
    have hpt : (k'.procs q).pagetable = (k.procs q).pagetable :=
      congrArg ProcCore.pagetable (hcore q)
    have hsz : (k'.procs q).sz = (k.procs q).sz := congrArg ProcCore.sz (hcore q)
    rw [hsize, hsz]
    exact hs.size q root (hpt ▸ hq)
  pend := hpend

theorem Faulted.synced {r : Option PA} (h : Faulted L k g p v r k' g') (hs : Synced k g) :
    Synced k' g' :=
  hs.of_core h.own h.size h.core h.pend

theorem Faulted.stays {r : Option PA} (h : Faulted L k g p v r k' g') (hs : Synced k g) :
    Stays L k k' := by
  refine ⟨h.core, fun q w hw => ?_⟩
  rw [(h.synced hs).roots_eq, hs.roots_eq, h.own]
  exact h.logical q w hw

/-! ## Writing to a page -/

/-- A page that is written is a page of one process only. -/
theorem Inv.write_page (h : Inv k g) (hs : Synced k g) {e : Pte} (he : k.pte g.own p v = some e)
    (hv : v < vpn trapframeVa) (x : Page) (hf : Shows L k f) :
    Inv { k with mem := Function.update k.mem e.pa x } g ∧
      Synced { k with mem := Function.update k.mem e.pa x } g ∧
      Shows L { k with mem := Function.update k.mem e.pa x } (f.setPage p v x) := by
  refine ⟨h.congr rfl rfl rfl (fun _ => rfl) (.refl _), ⟨hs.own, hs.size, hs.pend⟩, hf.size,
    hf.status, fun q w hw hlt => ?_⟩
  obtain ⟨root, ho, -, -, hu⟩ := h.pte_user he hv
  have hroots : ({ k with mem := Function.update k.mem e.pa x } : Kernel σ).roots = g.own :=
    hs.roots_eq
  rw [hroots]
  by_cases hqw : (q, w) = (p, v)
  · obtain ⟨rfl, rfl⟩ := Prod.mk.inj hqw
    have hpte :
        ({ k with mem := Function.update k.mem e.pa x } : Kernel σ).pte g.own q w = some e :=
      he
    simp [logical, hpte, Flat.setPage]
  · have hlog : ({ k with mem := Function.update k.mem e.pa x } : Kernel σ).logical L g.own q w =
        k.logical L g.own q w := by
      refine logical_congr rfl (fun e' he' => ?_) fun _ => rfl
      obtain ⟨root', ho', -, -, hu'⟩ := h.pte_user he' hlt
      have hne : e'.pa ≠ e.pa := by
        intro heq
        rw [heq, hu] at hu'
        obtain ⟨rfl, rfl⟩ := Use.user.inj hu'
        exact hqw (by rw [h.own_inj q p root ho' ho])
      simp [hne]
    have hpage : (f.setPage p v x).page q w = f.page q w := by
      by_cases hq : q = p
      · have hw' : w ≠ v := fun e => hqw (by rw [hq, e])
        simp [Flat.setPage, hq, hw']
      · simp [Flat.setPage, hq]
    rw [hlog, hpage, hf.page q w hw hlt, hs.roots_eq]

/-! ## Accesses -/

theorem translate_spec (h : Inv k g) (hs : Synced k g)
    (hroot : (k.procs p).pagetable = some root) {ok : Perm → Bool}
    (ht : k.translate root va ok = some pa) :
    ∃ e, k.pte g.own p (va / pgSize) = some e ∧ e.pa = pa := by
  have hn := hs.size p root hroot
  rw [translate, h.pteAt_vpn hn] at ht
  have hpte : k.pte g.own p (va / pgSize) = (k.pts root).leaf (vpn va) :=
    pte_of_own ((hs.own p).trans hroot)
  rw [← hpte] at ht
  split at ht
  · rename_i e he
    split at ht
    · exact ⟨e, he, Option.some.inj ht⟩
    · cases ht
  · cases ht

/-- A user access below the size of the process changes nothing that a process can see, and if it
succeeds it is to the page's frame. -/
theorem access_spec (L : SwapLaws S) (h : Inv k g) (hs : Synced k g)
    (hroot : (k.procs p).pagetable = some root) (hva : va < (k.procs p).sz) (ok : Perm → Bool) :
    ∃ r k' g', k.access S p va ok = .ok (r, k') ∧ Inv k' g' ∧ Synced k' g' ∧ Stays L k k' ∧
      ∀ pa, r = some pa → ∃ e, k'.pte g'.own p (va / pgSize) = some e ∧ e.pa = pa := by
  simp only [access, hroot]
  cases ht : k.translate root va ok with
  | some pa =>
    refine ⟨some pa, k, g, rfl, h, hs, .refl L k, ?_⟩
    rintro _ ⟨⟩
    exact translate_spec h hs hroot ht
  | none =>
    obtain ⟨r, k', g', heq, hf⟩ := vmfault_spec L h hs hroot hva
    have hs' := hf.synced hs
    have hst := hf.stays hs
    simp only [heq, ok_bind]
    refine ⟨_, k', g', rfl, hf.inv, hs', hst, fun pa hpa => ?_⟩
    obtain ⟨-, -, ht'⟩ := Option.bind_eq_some_iff.1 hpa
    exact translate_spec hf.inv hs' ((hst.pagetable p).trans hroot) ht'

theorem lt_trapframe (h : Inv k g) (hs : Synced k g) (hroot : (k.procs p).pagetable = some root)
    (hva : va < (k.procs p).sz) : va / pgSize < vpn trapframeVa :=
  (div_lt_npages hva).trans_le (h.pt root _ (hs.size p root hroot)).bound

theorem load_spec (L : SwapLaws S) (h : Inv k g) (hs : Synced k g) (hf : Shows L k f)
    (hroot : (k.procs p).pagetable = some root) (hva : va < (k.procs p).sz) :
    ∃ r k' g', k.load S p va = .ok (r, k') ∧ Inv k' g' ∧ Synced k' g' ∧ Shows L k' f ∧
      ∀ b, r = some b → b = f.read p va := by
  obtain ⟨r, k', g', heq, hinv, hs', hst, hpa⟩ := access_spec L h hs hroot hva Perm.r
  have hf' := hst.shows hf
  simp only [load, heq, ok_bind]
  refine ⟨_, k', g', rfl, hinv, hs', hf', fun b hb => ?_⟩
  obtain ⟨pa, hr, rfl⟩ := Option.map_eq_some_iff.1 hb
  obtain ⟨e, he, rfl⟩ := hpa pa hr
  have hpage := hf'.page p (va / pgSize) (by rw [hst.sz]; exact div_lt_npages hva)
    (lt_trapframe h hs hroot hva)
  rw [Flat.read, hpage, hs'.roots_eq]
  simp [logical, he]

theorem store_spec (L : SwapLaws S) (h : Inv k g) (hs : Synced k g) (hf : Shows L k f)
    (hroot : (k.procs p).pagetable = some root) (hva : va < (k.procs p).sz) (b : Byte) :
    ∃ r k' g', k.store S p va b = .ok (r, k') ∧ Inv k' g' ∧ Synced k' g' ∧
      Shows L k' (if r then f.write p va b else f) := by
  obtain ⟨r, k₁, g₁, heq, hinv, hs', hst, hpa⟩ := access_spec L h hs hroot hva Perm.w
  have hf' := hst.shows hf
  simp only [store, heq, ok_bind]
  cases r with
  | none => exact ⟨false, k₁, g₁, rfl, hinv, hs', hf'⟩
  | some pa =>
    obtain ⟨e, he, rfl⟩ := hpa pa rfl
    have hv := lt_trapframe h hs hroot hva
    obtain ⟨hinv', hs'', hshow⟩ := hinv.write_page hs' he hv
      (Function.update (k₁.mem e.pa) (pageOffset va) b) hf'
    refine ⟨true, _, g₁, rfl, hinv', hs'', ?_⟩
    have hpage : f.page p (va / pgSize) = k₁.mem e.pa := by
      rw [hf'.page p _ (by rw [hst.sz]; exact div_lt_npages hva) hv, hs'.roots_eq]
      simp [logical, he]
    rw [if_pos rfl, Flat.write, hpage]
    exact hshow

/-! ## Copying out -/

/-- The page that `copyout` writes to. -/
theorem userPage_spec (L : SwapLaws S) (h : Inv k g) (hs : Synced k g)
    (hroot : (k.procs p).pagetable = some root) (v : ℕ) :
    ∃ r k' g', k.userPage S p root (v * pgSize) = .ok (r, k') ∧ Inv k' g' ∧ Synced k' g' ∧
      Stays L k k' ∧
      ∀ pa, r = some pa → ∃ e, k'.pte g'.own p v = some e ∧ e.pa = pa ∧ e.perm.u = true := by
  have hn := hs.size p root hroot
  have ho : g.own p = some root := (hs.own p).trans hroot
  unfold userPage
  cases hw : k.walkaddr root (v * pgSize) with
  | some pa =>
    refine ⟨some pa, k, g, rfl, h, hs, .refl L k, ?_⟩
    rintro _ ⟨⟩
    rw [walkaddr, h.pteAt_eq hn, ← pte_of_own ho] at hw
    split at hw
    · cases hw
    · split at hw
      · rename_i e he
        split at hw
        · rename_i hu
          exact ⟨e, he, Option.some.inj hw, hu⟩
        · cases hw
      · cases hw
  | none =>
    by_cases hva : v * pgSize < (k.procs p).sz
    · obtain ⟨r, k', g', heq, hf⟩ := vmfault_spec L h hs hroot hva
      refine ⟨r, k', g', heq, hf.inv, hf.synced hs, hf.stays hs, fun pa hr => ?_⟩
      obtain ⟨perm, hpte, hu⟩ := hf.mapped pa hr
      rw [Nat.mul_div_cancel _ pgSize_pos] at hpte
      exact ⟨_, hf.own ▸ hpte, rfl, hu⟩
    · refine ⟨none, k, g, ?_, h, hs, .refl L k, by simp⟩
      simp only [vmfault, hroot, if_pos (Nat.le_of_not_lt hva)]

theorem copyoutPage_spec (L : SwapLaws S) (h : Inv k g) (hs : Synced k g) (hf : Shows L k f)
    (hroot : (k.procs p).pagetable = some root) (dstva : ℕ) (src : List Byte)
    (hsrc : dstva % pgSize + src.length ≤ pgSize) :
    ∃ b k' g', k.copyoutPage S p root dstva src = .ok (b, k') ∧ Inv k' g' ∧ Synced k' g' ∧
      (∀ q, (k'.procs q).core = (k.procs q).core) ∧
      (b = true → dstva / pgSize < npages (k.procs p).sz) ∧
      Shows L k' (if b then f.copy p dstva src else f) := by
  obtain ⟨r, k₁, g₁, heq, hinv, hs₁, hst, hr⟩ := userPage_spec L h hs hroot (dstva / pgSize)
  have hf₁ := hst.shows hf
  rw [← pgRoundDown] at heq
  by_cases hmax : maxVa ≤ pgRoundDown dstva
  · exact ⟨false, k, g, by simp only [copyoutPage, if_pos hmax], h, hs, fun _ => rfl, by simp, hf⟩
  simp only [copyoutPage, if_neg hmax, heq, ok_bind]
  cases r with
  | none => exact ⟨false, k₁, g₁, rfl, hinv, hs₁, hst.core, by simp, hf₁⟩
  | some pa =>
    obtain ⟨e, he, rfl, hu⟩ := hr pa rfl
    have hroot₁ : (k₁.procs p).pagetable = some root := (hst.pagetable p).trans hroot
    have hn := hs₁.size p root hroot₁
    have ho : g₁.own p = some root := (hs₁.own p).trans hroot₁
    rw [pte_of_own ho] at he
    obtain ⟨hlt, -⟩ := (hinv.pt root _ hn).leaf_user_of_perm he hu
    have hlt' := hlt.trans_le (hinv.pt root _ hn).bound
    have hat : k₁.pteAt root (pgRoundDown dstva) = some e := (hinv.pteAt_eq hn _).trans he
    simp only [hat]
    by_cases hw : e.perm.w = false
    · rw [if_pos hw]
      exact ⟨false, k₁, g₁, rfl, hinv, hs₁, hst.core, by simp, hf₁⟩
    · rw [← pte_of_own ho] at he
      rw [if_neg hw]
      have hoff : dstva - pgRoundDown dstva = dstva % pgSize := by
        simp only [pgRoundDown, pgSize]
        omega
      have hpage : f.page p (dstva / pgSize) = k₁.mem e.pa := by
        rw [hf₁.page p _ hlt hlt', hs₁.roots_eq]
        simp [logical, he]
      obtain ⟨hinv', hs', hshow⟩ := hinv.write_page hs₁ he hlt'
        (overlay (k₁.mem e.pa) (dstva % pgSize) src) hf₁
      refine ⟨true, _, g₁, rfl, ?_⟩
      rw [hoff, if_pos rfl, Flat.copy_eq f p dstva src hsrc, hpage]
      exact ⟨hinv', hs', hst.core, fun _ => hst.sz p ▸ hlt, hshow⟩

/-- How far a copy of `len` bytes to the address `dstva` has come: to the end if it succeeds, and
otherwise nowhere or to the end of a page. -/
structure CopiedTo (k : Kernel σ) (p : ProcIdx) (dstva len : ℕ) (b : Bool) (m : ℕ) : Prop where
  le : m ≤ len
  all : b = true → m = len
  page : b = false → m = 0 ∨ (dstva + m) % pgSize = 0
  inSpace : ∀ a, dstva ≤ a → a < dstva + m → a / pgSize < npages (k.procs p).sz

theorem copiedTo_none (k : Kernel σ) (p : ProcIdx) (dstva len : ℕ) {b : Bool}
    (hb : b = true → len = 0) : CopiedTo k p dstva len b 0 :=
  ⟨len.zero_le, fun h => (hb h).symm, fun _ => .inl rfl, fun a hle hlt => by omega⟩

/-- The first page, and then the rest. -/
theorem CopiedTo.page_add {dstva len m : ℕ} {b : Bool}
    (hv : dstva / pgSize < npages (k.procs p).sz)
    (h : CopiedTo k p (pgRoundDown dstva + pgSize) (len - (pgSize - dstva % pgSize)) b m)
    (hb : len ≤ pgSize - dstva % pgSize → b = true) :
    CopiedTo k p dstva len b (min (pgSize - dstva % pgSize) len + m) := by
  have hmod : dstva % pgSize < pgSize := Nat.mod_lt _ pgSize_pos
  have hnext : pgRoundDown dstva + pgSize = dstva + (pgSize - dstva % pgSize) := by
    simp only [pgRoundDown, pgSize] at hmod ⊢
    omega
  have hzero : (pgRoundDown dstva + pgSize) % pgSize = 0 := by simp [pgRoundDown]
  have hsame : ∀ a, dstva ≤ a → a < dstva + (pgSize - dstva % pgSize) →
      a / pgSize = dstva / pgSize := fun a hle hlt => by
    simp only [pgSize] at hlt hmod ⊢
    omega
  have hle := h.le
  have hall := h.all
  have hpage := h.page
  have hin := h.inSpace
  rw [hnext] at hin hpage hzero
  generalize pgSize - dstva % pgSize = c at *
  refine ⟨by omega, fun ht => ?_, fun hf => .inr ?_, fun a hle hlt => ?_⟩
  · have := hall ht
    omega
  · have hlong : ¬ len ≤ c := fun hshort => by simp [hb hshort] at hf
    rw [min_eq_left (by omega), ← Nat.add_assoc]
    rcases hpage hf with rfl | hm
    · exact hzero
    · exact hm
  · by_cases hfirst : a < dstva + c
    · rwa [hsame a hle hfirst]
    · exact hin a (by omega) (by omega)

theorem copyoutLoop_nil (S : SwapOps σ) (p : ProcIdx) (root : PA) (rounds dstva : ℕ)
    (k : Kernel σ) : copyoutLoop S p root rounds dstva [] k = .ok (true, k) := by
  cases rounds <;> rfl

theorem copyoutLoop_spec (L : SwapLaws S) (rounds : ℕ) (h : Inv k g) (hs : Synced k g)
    (hf : Shows L k f) (hroot : (k.procs p).pagetable = some root) (dstva : ℕ) (src : List Byte)
    (hlen : src.length ≤ rounds) :
    ∃ b k' g' m, copyoutLoop S p root rounds dstva src k = .ok (b, k') ∧ Inv k' g' ∧
      Synced k' g' ∧ (∀ q, (k'.procs q).core = (k.procs q).core) ∧
      CopiedTo k p dstva src.length b m ∧ Shows L k' (f.copy p dstva (src.take m)) := by
  induction rounds generalizing k g f dstva src with
  | zero =>
    obtain rfl : src = [] := List.eq_nil_of_length_eq_zero (by omega)
    exact ⟨true, k, g, 0, rfl, h, hs, fun _ => rfl, copiedTo_none k p dstva 0 fun _ => rfl, hf⟩
  | succ rounds ih =>
    unfold copyoutLoop
    split
    · rename_i hnil
      subst hnil
      exact ⟨true, k, g, 0, rfl, h, hs, fun _ => rfl, copiedTo_none k p dstva 0 fun _ => rfl, hf⟩
    rename_i hne
    have hoff : dstva - pgRoundDown dstva = dstva % pgSize := by
      simp only [pgRoundDown, pgSize]
      omega
    have hmod : dstva % pgSize < pgSize := Nat.mod_lt _ pgSize_pos
    have hpos : 0 < src.length := List.length_pos_iff.2 hne
    simp only [hoff]
    obtain ⟨b, k₁, g₁, heq, hinv, hs₁, hcore, hv, hshow⟩ := copyoutPage_spec L h hs hf hroot dstva
      (src.take (pgSize - dstva % pgSize)) (by rw [List.length_take]; omega)
    simp only [heq, ok_bind]
    cases b with
    | false =>
      exact ⟨false, k₁, g₁, 0, rfl, hinv, hs₁, hcore, copiedTo_none k p dstva _ (by simp), hshow⟩
    | true =>
      rw [if_neg (by simp)]
      obtain ⟨b, k', g', m, heq', hinv', hs', hcore', hb, hshow'⟩ := ih hinv hs₁ hshow
        ((congrArg ProcCore.pagetable (hcore p)).trans hroot) (pgRoundDown dstva + pgSize)
        (src.drop (pgSize - dstva % pgSize)) (by rw [List.length_drop]; omega)
      refine ⟨b, k', g', (src.take (pgSize - dstva % pgSize)).length + m, heq', hinv', hs',
        fun q => (hcore' q).trans (hcore q), ?_, ?_⟩
      · have hsz : (k₁.procs p).sz = (k.procs p).sz := congrArg ProcCore.sz (hcore p)
        rw [List.length_drop] at hb
        rw [List.length_take]
        refine CopiedTo.page_add (hv rfl) ⟨hb.le, hb.all, hb.page, hsz ▸ hb.inSpace⟩
          fun hshort => ?_
        rw [List.drop_eq_nil_of_le hshort, copyoutLoop_nil] at heq'
        exact (Prod.mk.inj (Except.ok.inj heq')).1.symm
      · rw [if_pos rfl] at hshow'
        by_cases hshort : src.length ≤ pgSize - dstva % pgSize
        · -- the last page
          rw [List.drop_eq_nil_of_le hshort, List.take_nil, Flat.copy] at hshow'
          rw [List.take_of_length_le hshort] at hshow' ⊢
          rwa [List.take_of_length_le (by omega)]
        · have hlen' : (src.take (pgSize - dstva % pgSize)).length = pgSize - dstva % pgSize := by
            rw [List.length_take]
            omega
          have hnext : pgRoundDown dstva + pgSize =
              dstva + (src.take (pgSize - dstva % pgSize)).length := by
            rw [hlen']
            simp only [pgRoundDown, pgSize] at hmod ⊢
            omega
          rw [hnext, ← Flat.copy_append] at hshow'
          rwa [hlen', List.take_add]

theorem copyStatus_spec (L : SwapLaws S) (h : Inv k g) (hs : Synced k g) (hf : Shows L k f)
    (hp : (k.procs p).pagetable.isSome) (q : ProcIdx) (addr : ℕ) :
    ∃ b k' g' m, k.copyStatus S p q addr = .ok (b, k') ∧ Inv k' g' ∧ Synced k' g' ∧
      (∀ q, (k'.procs q).core = (k.procs q).core) ∧
      (b = true → m = (if addr = 0 then 0 else (intBytes (f.status q)).length)) ∧
      Shows L k' (f.copy p addr ((intBytes (f.status q)).take m)) := by
  obtain ⟨root, hroot⟩ := Option.isSome_iff_exists.1 hp
  simp only [copyStatus, hroot]
  split
  · exact ⟨true, k, g, 0, rfl, h, hs, fun _ => rfl, fun _ => rfl, hf⟩
  · rw [← hf.status]
    obtain ⟨b, k', g', m, heq, hinv, hs', hcore, hm, hshow⟩ :=
      copyoutLoop_spec L _ h hs hf hroot addr (intBytes (f.status q)) le_rfl
    exact ⟨b, k', g', m, heq, hinv, hs', hcore, hm.all, hshow⟩

/-! ## System calls -/

theorem Resized.sz {sz' : ℕ} (h : Resized L k p sz' k') (q : ProcIdx) :
    (k'.procs q).sz = if q = p then sz' else (k.procs q).sz := by
  have := congrArg ProcCore.sz (h.core q)
  simp only [Proc.core] at this
  rw [this]
  split <;> rfl

theorem Resized.xstate {sz' : ℕ} (h : Resized L k p sz' k') (q : ProcIdx) :
    (k'.procs q).xstate = (k.procs q).xstate := by
  have := congrArg ProcCore.xstate (h.core q)
  simp only [Proc.core] at this
  rw [this]
  split
  · rename_i hq
    rw [hq]
  · rfl

theorem Resized.shows {sz' : ℕ} (h : Resized L k p sz' k') (hf : Shows L k f) :
    Shows L k' (f.resize p sz') where
  size q := by
    rw [h.sz]
    by_cases hq : q = p
    · simp [Flat.resize, hq]
    · simp [Flat.resize, hq, hf.size]
  status q := by
    rw [h.xstate]
    exact hf.status q
  page q w hw hlt := by
    rw [h.sz] at hw
    rw [h.logical q w hlt fun hq => by simpa [hq] using hw]
    by_cases hq : q = p
    · subst hq
      simp only [Flat.resize, Function.update_self, hf.size, true_and]
      split
      · rfl
      · exact hf.page q w (by omega) hlt
    · rw [if_neg (by simp [hq])]
      simp only [Flat.resize, Function.update_of_ne hq]
      exact hf.page q w (by simpa [hq] using hw) hlt

/-- A process that keeps its size keeps its memory. -/
theorem Resized.shows_same (h : Resized L k p (k.procs p).sz k') (hf : Shows L k f) :
    Shows L k' f where
  size q := by
    rw [h.sz, hf.size]
    split
    · rename_i hq
      rw [hq]
    · rfl
  status q := by
    rw [h.xstate]
    exact hf.status q
  page q w hw hlt := by
    have hw' : w < npages (k.procs q).sz := by
      rw [h.sz] at hw
      split at hw
      · rename_i hq
        rwa [hq]
      · exact hw
    rw [h.logical q w hlt fun hq => hq ▸ hw', if_neg, hf.page q w hw' hlt]
    rintro ⟨rfl, hle⟩
    omega

theorem kexit_spec (h : Inv k g) (hs : Synced k g) (hf : Shows L k f) (p : ProcIdx)
    (status : BitVec 32) :
    Inv (k.kexit p status) g ∧ Synced (k.kexit p status) g ∧
      Shows L (k.kexit p status) (f.exit p status) := by
  have hpt : ∀ q, ((k.kexit p status).procs q).pagetable = (k.procs q).pagetable ∧
      ((k.kexit p status).procs q).sz = (k.procs q).sz ∧
      ((k.kexit p status).procs q).trapframe = (k.procs q).trapframe := by
    intro q
    by_cases hq : q = p <;> simp [kexit, setProc, hq]
  have hroots : (k.kexit p status).roots = k.roots := funext fun q => (hpt q).1
  refine ⟨h.congr rfl rfl rfl (fun q => (hpt q).2.2) (.refl _),
    ⟨fun q => (hs.own q).trans (hpt q).1.symm, fun q root hq => ?_, hs.pend⟩, fun q => ?_,
    fun q => ?_, fun q w hw hlt => ?_⟩
  · rw [(hpt q).2.1]
    exact hs.size q root ((hpt q).1 ▸ hq)
  · rw [(hpt q).2.1]
    exact hf.size q
  · by_cases hq : q = p
    · simp [kexit, setProc, Flat.exit, hq]
    · simp [kexit, setProc, Flat.exit, hq, hf.status]
  · rw [(hpt q).2.1] at hw
    rw [hroots]
    exact hf.page q w hw hlt

theorem kwait_spec (L : SwapLaws S) (h : Inv k g) (hs : Synced k g) (hf : Shows L k f)
    (hp : (k.procs p).pagetable.isSome) (hpq : p ≠ q) (addr : ℕ) :
    ∃ b k' g' f', k.kwait S p q addr = .ok (b, k') ∧ Inv k' g' ∧ Synced k' g' ∧ Shows L k' f' ∧
      Flat.Step f (.wait p q addr, if b then .done else .failed) f' := by
  obtain ⟨b, k₁, g₁, m, heq, hinv₁, hs₁, hcore₁, hb, hf₁⟩ := copyStatus_spec L h hs hf hp q addr
  simp only [kwait, heq, ok_bind]
  cases b with
  | false => exact ⟨false, k₁, g₁, _, rfl, hinv₁, hs₁, hf₁, .waitFailed f p q addr m⟩
  | true =>
    obtain ⟨k', g', heq', hinv', hs', hcore, hself, hlog⟩ := freeproc_spec L hinv₁ hs₁ hpq
    rw [if_neg (by simp)]
    simp only [heq', ok_bind]
    refine ⟨true, k', g', (f.copy p addr ((intBytes (f.status q)).take m)).drop q, rfl, hinv', hs',
      ⟨fun r => ?_, fun r => ?_, fun r w hw hlt => ?_⟩, ?_⟩
    · by_cases hr : r = q
      · have := congrArg ProcCore.sz hself
        simp only [Proc.core] at this
        simp [Flat.drop, hr, this]
      · have := congrArg ProcCore.sz (hcore r hr)
        simp only [Proc.core] at this
        simp only [Flat.drop, Function.update_of_ne hr, this]
        exact hf₁.size r
    · by_cases hr : r = q
      · have := congrArg ProcCore.xstate hself
        simp only [Proc.core] at this
        simp [Flat.drop, hr, this]
      · have := congrArg ProcCore.xstate (hcore r hr)
        simp only [Proc.core] at this
        simp only [Flat.drop, Function.update_of_ne hr, this]
        exact hf₁.status r
    · have hr : r ≠ q := by
        rintro rfl
        have := congrArg ProcCore.sz hself
        simp only [Proc.core] at this
        simp [this, npages, pgRoundUp, pgSize] at hw
      have hsz := congrArg ProcCore.sz (hcore r hr)
      simp only [Proc.core] at hsz
      rw [hsz] at hw
      rw [hlog r hr w hlt]
      exact hf₁.page r w hw hlt
    · rw [hb rfl]
      by_cases haddr : addr = 0
      · subst haddr
        simpa [Flat.copy] using Flat.Step.wait f p q
      · simpa [haddr] using Flat.Step.waitStatus f p q haddr

end Xv6Swap.Paging.Kernel
