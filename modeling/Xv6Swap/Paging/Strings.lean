import Xv6Swap.Paging.Retry

/-!
# Copying in bytes and strings

`copyin` and `copyinstr` of `kernel/vm.c`, each run to completion by the process whose page table it
is given. Both go page by page. `copyin` calls `vmfault` for a page that is not mapped, so it sees
the process's memory whether or not a page is in swap (`copyin_spec`). `copyinstr` uses `walkaddr`
alone and fails at the first page that is not mapped: byte for byte it reads the resident memory
(`copyinstr_eq_readString`). An eviction is invisible to it exactly if every byte of the string is
still resident (`copyinstr_unseen_iff`).
-/

namespace Xv6Swap.Paging

open Raid (Byte Page pgSize)

/-- The bytes of a page at the addresses from `a` on, as far as they are in one page. -/
def pageBytes (x : Page) (a n : ℕ) : List Byte := (List.range n).map fun j => x (pageOffset (a + j))

/-- The inner loop of `copyinstr`: the bytes up to a nul, and whether there is one. -/
def untilNul : List Byte → Bool × List Byte
  | [] => (false, [])
  | b :: bs =>
    if b = 0 then (true, [0])
    else
      let (found, rest) := untilNul bs
      (found, b :: rest)

/-- Bytes `f a`, `f (a + 1)`, ... up to a nul, at most `max` of them; it fails when one is missing
or there is no nul. -/
def readString (f : ℕ → Option Byte) : ℕ → ℕ → Bool × List Byte
  | _, 0 => (false, [])
  | a, max + 1 =>
    match f a with
    | none => (false, [])
    | some b =>
      if b = 0 then (true, [0])
      else
        let (found, rest) := readString f (a + 1) max
        (found, b :: rest)

namespace Kernel

variable {σ : Type} (S : SwapOps σ)

/-! ## The functions -/

/-- The loop of `copyinstr` with the rounds left: the result and the bytes written to `dst`. -/
def copyinstrLoop (root : PA) (k : Kernel σ) : ℕ → ℕ → ℕ → Bool × List Byte
  | 0, _, _ => (false, [])
  | rounds + 1, srcva, max =>
    if max = 0 then (false, [])
    else
      let va0 := pgRoundDown srcva
      match k.walkaddr root va0 with
      | none => (false, [])
      | some pa0 =>
        let n := min (pgSize - (srcva - va0)) max
        let (found, bytes) := untilNul (pageBytes (k.mem pa0) srcva n)
        if found then (true, bytes)
        else
          let (ok, rest) := copyinstrLoop root k rounds (va0 + pgSize) (max - n)
          (ok, bytes ++ rest)

/-- `copyinstr`. There are at most as many rounds as bytes. -/
def copyinstr (root : PA) (srcva max : ℕ) (k : Kernel σ) : Bool × List Byte :=
  k.copyinstrLoop root max srcva max

/-- The loop of `copyin` by the process `p` with the rounds left: the result and the bytes written
to `dst`. -/
def copyinLoop (p : ProcIdx) (root : PA) :
    ℕ → ℕ → ℕ → Kernel σ → Result (Bool × List Byte × Kernel σ)
  | 0, _, _, k => .ok (true, [], k)
  | rounds + 1, srcva, len, k =>
    if len = 0 then .ok (true, [], k)
    else do
      let va0 := pgRoundDown srcva
      let (r, k) ← k.userPage S p root va0
      match r with
      | none => return (false, [], k)
      | some pa0 =>
        let n := min (pgSize - (srcva - va0)) len
        let (ok, rest, k') ← copyinLoop p root rounds (va0 + pgSize) (len - n) k
        return (ok, pageBytes (k.mem pa0) srcva n ++ rest, k')

def copyin (p : ProcIdx) (root : PA) (srcva len : ℕ) (k : Kernel σ) :
    Result (Bool × List Byte × Kernel σ) :=
  k.copyinLoop S p root len srcva len

/-! ## `copyinstr` reads the resident memory -/

variable {S} {L : SwapLaws S} {k k' : Kernel σ} {g : Ghost} {root : PA} {p : ProcIdx}

/-- The byte at an address, if its page is mapped for user code. -/
def byteAt (k : Kernel σ) (root : PA) (a : ℕ) : Option Byte :=
  (k.walkaddr root (pgRoundDown a)).map fun pa => k.mem pa (pageOffset a)

/-- The bytes that a round takes from one page. -/
theorem readString_page {f : ℕ → Option Byte} {x : Page} (a n max : ℕ)
    (hf : ∀ j < n, f (a + j) = some (x (pageOffset (a + j)))) :
    readString f a (n + max) =
      if (untilNul (pageBytes x a n)).1 then untilNul (pageBytes x a n)
      else ((readString f (a + n) max).1,
        (untilNul (pageBytes x a n)).2 ++ (readString f (a + n) max).2) := by
  induction n generalizing a with
  | zero => simp [pageBytes, untilNul]
  | succ n ih =>
    have hhead : f a = some (x (pageOffset a)) := hf 0 (by omega)
    have hbytes : pageBytes x a (n + 1) = x (pageOffset a) :: pageBytes x (a + 1) n := by
      simp only [pageBytes, List.range_succ_eq_map, List.map_cons, List.map_map, Nat.add_zero]
      refine congrArg _ (List.map_congr_left fun j _ => ?_)
      simp only [Function.comp_apply]
      congr 2
      omega
    have hrest := ih (a + 1) fun j hj => by
      have := hf (j + 1) (by omega)
      rwa [Nat.add_comm j 1, ← Nat.add_assoc] at this
    have hmax : n + 1 + max = (n + max) + 1 := by omega
    have hnext : a + (n + 1) = a + 1 + n := by omega
    rw [hmax, hbytes, hnext]
    simp only [readString, hhead, untilNul]
    by_cases hb : x (pageOffset a) = 0
    · simp [hb]
    · simp only [if_neg hb, hrest]
      split <;> rfl

theorem pgRoundDown_add {a j : ℕ} (h : a % pgSize + j < pgSize) :
    pgRoundDown (a + j) = pgRoundDown a := by
  simp only [pgRoundDown, pgSize] at h ⊢
  omega

/-- **`copyinstr` reads the resident memory byte by byte.** -/
theorem copyinstr_eq_readString (k : Kernel σ) (root : PA) (srcva max : ℕ) :
    k.copyinstr root srcva max = readString (k.byteAt root) srcva max := by
  have hloop : ∀ rounds srcva max, max ≤ rounds →
      k.copyinstrLoop root rounds srcva max = readString (k.byteAt root) srcva max := by
    intro rounds
    induction rounds with
    | zero =>
      intro srcva max hle
      obtain rfl : max = 0 := by omega
      rfl
    | succ rounds ih =>
      intro srcva max hle
      unfold copyinstrLoop
      split
      · rename_i hmax
        subst hmax
        rfl
      rename_i hmax
      have hoff : srcva - pgRoundDown srcva = srcva % pgSize := by
        simp only [pgRoundDown, pgSize]
        omega
      have hmod : srcva % pgSize < pgSize := Nat.mod_lt _ pgSize_pos
      dsimp only
      rw [hoff]
      cases hwalk : k.walkaddr root (pgRoundDown srcva) with
      | none =>
        obtain ⟨m, rfl⟩ : ∃ m, max = m + 1 := ⟨max - 1, by omega⟩
        simp [readString, byteAt, hwalk]
      | some pa =>
        generalize hn : min (pgSize - srcva % pgSize) max = n
        have hpos : 0 < n := by omega
        have hpage := readString_page (f := k.byteAt root) (x := k.mem pa) srcva n (max - n)
          fun j hj => by
            rw [byteAt, pgRoundDown_add (by omega), hwalk]
            rfl
        rw [Nat.add_sub_cancel' (by omega)] at hpage
        rw [hpage]
        dsimp only
        split
        · rename_i hfound
          exact Prod.ext hfound.symm rfl
        · -- the next page, or nothing is left
          have hrest : k.copyinstrLoop root rounds (pgRoundDown srcva + pgSize) (max - n) =
              readString (k.byteAt root) (srcva + n) (max - n) := by
            rw [ih _ _ (by omega)]
            by_cases hlast : max - n = 0
            · rw [hlast]
              rfl
            · have hnext : pgRoundDown srcva + pgSize = srcva + n := by
                simp only [pgRoundDown, pgSize] at hmod hn hlast ⊢
                omega
              rw [hnext]
          rw [hrest]
  exact hloop max srcva max le_rfl

/-- The address of a byte of the string at `srcva`: the bytes before it are resident and not nul,
it is within `max` bytes, and it is resident itself. -/
structure StringByte (f : ℕ → Option Byte) (srcva max a : ℕ) : Prop where
  le : srcva ≤ a
  lt : a < srcva + max
  before : ∀ b, srcva ≤ b → b < a → ∃ c, f b = some c ∧ c ≠ 0
  resident : (f a).isSome

/-- Two memories, of which `f'` has some of the bytes of `f`, give the same string exactly if the
bytes of the string are still there. -/
theorem readString_eq_iff {f f' : ℕ → Option Byte} (hsub : ∀ a b, f' a = some b → f a = some b)
    (srcva max : ℕ) :
    readString f' srcva max = readString f srcva max ↔
      ∀ a, StringByte f srcva max a → (f' a).isSome := by
  induction max generalizing srcva with
  | zero => exact ⟨fun _ a ha => absurd (ha.lt.trans_le ha.le) (by simp), fun _ => rfl⟩
  | succ max ih =>
    cases hf : f srcva with
    | none =>
      have hf' : f' srcva = none := by
        cases h' : f' srcva with
        | none => rfl
        | some b => exact absurd (hsub srcva b h') (by simp [hf])
      simp only [readString, hf, hf', true_iff]
      intro a ha
      rcases ha.le.eq_or_lt with rfl | hlt
      · simpa [hf] using ha.resident
      · obtain ⟨c, hc, -⟩ := ha.before srcva le_rfl hlt
        simp [hf] at hc
    | some b =>
      have hfirst : StringByte f srcva (max + 1) srcva :=
        ⟨le_rfl, by omega, fun _ hle hlt => absurd hlt (Nat.not_lt.2 hle), by simp [hf]⟩
      cases h' : f' srcva with
      | none =>
        -- the first byte is lost, and nothing is delivered
        constructor
        · intro heq
          simp only [readString, hf, h'] at heq
          split at heq <;> simp at heq
        · intro hall
          exact absurd (hall srcva hfirst) (by simp [h'])
      | some b' =>
        obtain rfl : b = b' := Option.some.inj (hf.symm.trans (hsub srcva b' h'))
        simp only [readString, hf, h']
        by_cases hb : b = 0
        · simp only [if_pos hb, true_iff]
          intro a ha
          rcases ha.le.eq_or_lt with rfl | hlt
          · simp [h']
          · obtain ⟨c, hc, hne⟩ := ha.before srcva le_rfl hlt
            rw [hf] at hc
            exact absurd ((Option.some.inj hc).symm.trans hb) hne
        · simp only [if_neg hb, Prod.mk.injEq, List.cons.injEq, true_and]
          rw [← Prod.mk.injEq, Prod.mk.eta, Prod.mk.eta, ih (srcva + 1)]
          constructor
          · intro hall a ha
            rcases ha.le.eq_or_lt with rfl | hlt
            · simp [h']
            · exact hall a ⟨hlt, by have := ha.lt; omega, fun x hle hx => ha.before x (by omega) hx,
                ha.resident⟩
          · intro hall a ha
            refine hall a ⟨by have := ha.le; omega, by have := ha.lt; omega, fun x hle hx => ?_,
              ha.resident⟩
            rcases hle.eq_or_lt with rfl | hlt
            · exact ⟨b, hf, hb⟩
            · exact ha.before x hlt hx

/-! ## Evictions -/

/-- An eviction leaves the bytes that are still resident as they were. -/
theorem EvictStep.byteAt (L : SwapLaws S) (h : Inv k g) (hs : Synced k g)
    (hstep : EvictStep S p k k') (hroot : (k.procs p).pagetable = some root) {a : ℕ} {b : Byte}
    (hb : k'.byteAt root a = some b) : k.byteAt root a = some b := by
  obtain ⟨v, root', e, hown, hv, hleaf, -, -, hpts, hmem⟩ := hstep.spec L h hs.own hs.pend
  obtain rfl : root = root' := Option.some.inj ((hroot.symm.trans (hs.own p).symm).trans hown)
  have hpt := h.pt root _ (hs.size p root hroot)
  obtain ⟨pa, hwalk, rfl⟩ := Option.map_eq_some_iff.1 hb
  unfold walkaddr at hwalk
  split at hwalk
  · cases hwalk
  rename_i hmax
  split at hwalk
  swap
  · cases hwalk
  rename_i e' he'
  obtain ⟨hu, hpa⟩ := Option.ite_none_right_eq_some.1 hwalk
  obtain rfl := Option.some.inj hpa
  -- the entry is another one than the one cleared, and its page another one
  unfold pteAt at he'
  split at he'
  swap
  · cases he'
  rename_i hfound
  simp only [hpts, setLeaf, setPt, vpn_mul, Function.update_self] at he' hfound
  have hne : vpn (pgRoundDown a) ≠ v := by
    intro hv
    rw [hv, Function.update_self] at he'
    cases he'
  rw [Function.update_of_ne hne] at he'
  have hne' : e'.pa ≠ e.pa := by
    intro hpa
    have huse := (hpt.leaf_user_of_perm he' hu).2
    rw [hpa] at huse
    have huse' := (hpt.leaf_user hleaf (hv.trans_le (h.np_le p))).2
    exact hne (Use.user.inj (huse.symm.trans huse')).2
  rw [Kernel.byteAt, walkaddr, if_neg hmax, pteAt, if_pos hfound, he']
  simp only [hu, if_true, Option.map_some, hmem e'.pa hne']

theorem EvictStep.sound (L : SwapLaws S) (h : k.Sound) (hstep : EvictStep S p k k') :
    k'.Sound ∧ Stays L k k' := by
  obtain ⟨g, hinv, hs⟩ := h
  obtain ⟨v, root, e, -, -, -, hinv', hquiet, -⟩ := hstep.spec L hinv hs.own hs.pend
  have hfault : Faulted L k g p v none k' (g.setUse e.pa .free) :=
    hquiet.faulted_none hinv' hs.pend
  exact ⟨⟨_, hinv', hfault.synced hs⟩, hfault.stays hs⟩

theorem Stays.trans {k'' : Kernel σ} (h : Stays L k k') (h' : Stays L k' k'') : Stays L k k'' :=
  ⟨fun q => (h'.core q).trans (h.core q),
    fun q w hw => (h'.logical q w hw).trans (h.logical q w hw)⟩

/-- Any number of evictions. -/
theorem evictions_spec (L : SwapLaws S) (h : k.Sound) (hroot : (k.procs p).pagetable = some root)
    (hrun : Relation.ReflTransGen (EvictStep S p) k k') :
    k'.Sound ∧ Stays L k k' ∧
      ∀ a b, k'.byteAt root a = some b → k.byteAt root a = some b := by
  induction hrun with
  | refl => exact ⟨h, .refl L k, fun _ _ hb => hb⟩
  | tail _ hstep ih =>
    obtain ⟨hsound, hstays, hsub⟩ := ih
    obtain ⟨hsound', hstays'⟩ := hstep.sound L hsound
    obtain ⟨g, hinv, hs⟩ := hsound
    exact ⟨hsound', hstays.trans hstays', fun a b hb =>
      hsub a b (hstep.byteAt L hinv hs ((hstays.pagetable p).trans hroot) hb)⟩

/-! ## `copyin` reads the memory of the process -/

variable {f : Flat}

theorem pageBytes_eq_map {x : Page} {a n : ℕ} (hn : n ≤ pgSize - a % pgSize)
    (hx : f.page p (a / pgSize) = x) :
    pageBytes x a n = (List.range n).map fun j => f.read p (a + j) := by
  refine List.map_congr_left fun j hj => ?_
  have hj' := List.mem_range.1 hj
  have hmod : a % pgSize < pgSize := Nat.mod_lt _ pgSize_pos
  have hdiv : (a + j) / pgSize = a / pgSize := by
    simp only [pgSize] at hn hj' hmod ⊢
    omega
  rw [Flat.read, hdiv, hx]

theorem copyinLoop_spec (L : SwapLaws S) (rounds : ℕ) (h : Inv k g) (hs : Synced k g)
    (hf : Shows L k f) (hroot : (k.procs p).pagetable = some root) (srcva len : ℕ)
    (hlen : len ≤ rounds) :
    ∃ ok bytes k', copyinLoop S p root rounds srcva len k = .ok (ok, bytes, k') ∧ k'.Sound ∧
      Stays L k k' ∧
      (ok = true → bytes = (List.range len).map fun j => f.read p (srcva + j)) := by
  induction rounds generalizing k g srcva len with
  | zero =>
    obtain rfl : len = 0 := by omega
    exact ⟨true, [], k, rfl, ⟨g, h, hs⟩, .refl L k, fun _ => rfl⟩
  | succ rounds ih =>
    unfold copyinLoop
    split
    · rename_i hzero
      subst hzero
      exact ⟨true, [], k, rfl, ⟨g, h, hs⟩, .refl L k, fun _ => rfl⟩
    rename_i hpos
    have hoff : srcva - pgRoundDown srcva = srcva % pgSize := by
      simp only [pgRoundDown, pgSize]
      omega
    have hmod : srcva % pgSize < pgSize := Nat.mod_lt _ pgSize_pos
    obtain ⟨r, k₁, g₁, heq, hinv, hs₁, hst, hr⟩ := userPage_spec L h hs hroot (srcva / pgSize)
    have hf₁ := hst.shows hf
    have hroot₁ : (k₁.procs p).pagetable = some root := (hst.pagetable p).trans hroot
    rw [← pgRoundDown] at heq
    simp only [heq, ok_bind, hoff]
    cases r with
    | none => exact ⟨false, [], k₁, rfl, ⟨g₁, hinv, hs₁⟩, hst, by simp⟩
    | some pa =>
      obtain ⟨e, he, rfl, hu⟩ := hr pa rfl
      have hn := hs₁.size p root hroot₁
      have ho : g₁.own p = some root := (hs₁.own p).trans hroot₁
      have hlt := ((hinv.pt root _ hn).leaf_user_of_perm ((pte_of_own ho).symm.trans he) hu).1
      have hpage : f.page p (srcva / pgSize) = k₁.mem e.pa := by
        rw [hf₁.page p _ hlt (hlt.trans_le (hinv.pt root _ hn).bound), hs₁.roots_eq]
        simp [logical, he]
      generalize hm : min (pgSize - srcva % pgSize) len = m
      obtain ⟨ok, rest, k', heq', hsound, hst', hrest⟩ := ih hinv hs₁ hf₁ hroot₁
        (pgRoundDown srcva + pgSize) (len - m) (by omega)
      simp only [heq', ok_bind]
      refine ⟨ok, _, k', rfl, hsound, hst.trans hst', fun hok => ?_⟩
      rw [hrest hok, pageBytes_eq_map (by omega) hpage]
      by_cases hlast : len - m = 0
      · rw [hlast, List.range_zero, List.map_nil, List.append_nil]
        congr 2
        omega
      · have hnext : pgRoundDown srcva + pgSize = srcva + m := by
          simp only [pgRoundDown, pgSize] at hmod hm hlast ⊢
          omega
        have hsplit : len = m + (len - m) := by omega
        rw [hnext]
        conv_rhs => rw [hsplit, List.range_add, List.map_append, List.map_map]
        simp only [Function.comp_def, Nat.add_assoc]

/-- **`copyin` reads the memory of the process**, wherever its pages are. -/
theorem copyin_spec (L : SwapLaws S) (h : k.Sound) (hf : Shows L k f)
    (hroot : (k.procs p).pagetable = some root) (srcva len : ℕ) :
    ∃ ok bytes k', k.copyin S p root srcva len = .ok (ok, bytes, k') ∧ k'.Sound ∧ Stays L k k' ∧
      (ok = true → bytes = (List.range len).map fun j => f.read p (srcva + j)) := by
  obtain ⟨g, hinv, hs⟩ := h
  exact copyinLoop_spec L len hinv hs hf hroot srcva len le_rfl

/-! ## What string arguments see of evictions -/

/-- **Evictions and string arguments.** After any evictions of pages of the process `copyinstr` has
the same result exactly if every byte of the string is still resident. `copyin` of the range always
delivers the same bytes, if it gets the frames it needs. -/
theorem copyinstr_unseen_iff (L : SwapLaws S) (h : k.Sound)
    (hroot : (k.procs p).pagetable = some root)
    (hrun : Relation.ReflTransGen (EvictStep S p) k k') (srcva max : ℕ) :
    (k'.copyinstr root srcva max = k.copyinstr root srcva max ↔
      ∀ a, StringByte (k.byteAt root) srcva max a → (k'.byteAt root a).isSome) ∧
    ∀ bytes bytes' k₁ k₁', k.copyin S p root srcva max = .ok (true, bytes, k₁) →
      k'.copyin S p root srcva max = .ok (true, bytes', k₁') → bytes' = bytes := by
  obtain ⟨hsound, hstays, hsub⟩ := evictions_spec L h hroot hrun
  constructor
  · rw [copyinstr_eq_readString, copyinstr_eq_readString]
    exact readString_eq_iff hsub srcva max
  · intro bytes bytes' k₁ k₁' hcopy hcopy'
    have hshow := shows_flat L k
    obtain ⟨ok, _, _, heq, -, -, hbytes⟩ := copyin_spec L h hshow hroot srcva max
    obtain ⟨ok', _, _, heq', -, -, hbytes'⟩ := copyin_spec L hsound (hstays.shows hshow)
      ((hstays.pagetable p).trans hroot) srcva max
    obtain ⟨rfl, hb⟩ := Prod.mk.inj (Except.ok.inj (heq.symm.trans hcopy))
    obtain ⟨rfl, hb'⟩ := Prod.mk.inj (Except.ok.inj (heq'.symm.trans hcopy'))
    rw [← (Prod.mk.inj hb).1, ← (Prod.mk.inj hb').1, hbytes rfl, hbytes' rfl]

/-! ## A string in a page that is evicted -/

/-- The first two frames hold the pages 0 and 1 of the process. -/
def twoFrames : Tables :=
  { Tables.init with
    frameTable := fun i =>
      if i.val < 2 then ⟨true, true, some soleProc, i.val * pgSize, false⟩ else .clear
    userFrameCount := 2 }

theorem twoFrames_ok {np : ProcIdx → ℕ} {pte : ProcIdx → ℕ → Option Pte} (hnp : np soleProc = 2)
    (hpte : ∀ v < 2, ∃ pa, pte soleProc v = some ⟨pa, .userRw⟩) :
    TablesOk twoFrames np pte none where
  frame_ok i hi := by
    have hall : ∀ i, (twoFrames.frameTable i).used = true → i.val < 2 ∧
        (twoFrames.frameTable i).entry = (true, true, some soleProc, i.val * pgSize) := by decide
    obtain ⟨hlt, hentry⟩ := hall i hi
    exact ⟨soleProc, i.val, hentry, hnp ▸ hlt, .inl (hpte i hlt)⟩
  frame_inj := by decide
  count := by decide
  used_iff i := rfl
  swap_ok i hi := by simp [twoFrames, Tables.init, SwapEntry.clear] at hi
  swap_inj i j q va hi := by simp [twoFrames, Tables.init, SwapEntry.clear, SwapEntry.Holds] at hi

/-- A process of two pages, both resident and tracked, each with a string of one character. -/
def twoStrings : Kernel Raid.Dev :=
  { image with
    tables := twoFrames
    mem := fun pa i =>
      if i.val = 0 ∧ pa = 0x80106000 then 97 else if i.val = 0 ∧ pa = 0x80107000 then 98 else 0
    procs := fun p =>
      if p = soleProc then ⟨.running, 2 * pgSize, some newRoot, none, 0, 0, 0, 0, 0, 0, 0⟩
      else ⟨.unused, 0, none, none, 0, 0, 0, 0, 0, 0, 0⟩ }

def twoStringsGhost : Ghost :=
  { imageGhost with
    size := fun root => if root = newRoot then some 2 else none
    own := fun p => if p = soleProc then some newRoot else none }

theorem twoStrings_sound : twoStrings.Sound := by
  have hown : ∀ {p root}, twoStringsGhost.own p = some root → p = soleProc ∧ root = newRoot := by
    intro p root ho
    simpa [twoStringsGhost, eq_comm] using ho
  have hroots : ∀ p, twoStringsGhost.own p = (twoStrings.procs p).pagetable := by
    intro p
    by_cases hp : p = soleProc <;> simp [twoStringsGhost, twoStrings, hp]
  refine ⟨twoStringsGhost, ⟨image_pages, fun root n hn => ?_, fun p root ho => ?_,
    fun p q root hp hq => ?_, fun p pa hpa => ?_, twoFrames_ok rfl ?_⟩, hroots,
    fun p root hp => ?_, rfl⟩
  · obtain ⟨rfl, rfl⟩ : root = newRoot ∧ 2 = n := by simpa [twoStringsGhost] using hn
    exact image_newTable
  · obtain ⟨-, rfl⟩ := hown ho
    rfl
  · rw [(hown hp).1, (hown hq).1]
  · by_cases hp : p = soleProc <;> simp [twoStrings, hp] at hpa
  · intro v hv
    exact ⟨0x80106000 + v * pgSize, if_pos hv⟩
  · obtain ⟨rfl, rfl⟩ := hown ((hroots p).trans hp)
    rfl

/-- The strings at 0 and at 4096 by `copyinstr`, and the first two bytes by `copyin`, after one
eviction. -/
def twoStringsRun : Result (Bool × (Bool × List Byte) × (Bool × List Byte) × Bool × List Byte) := do
  let (ok, k) ← twoStrings.evictOneUserFrame (raidSwap .raid5)
  let (found, bytes, _) ← k.copyin (raidSwap .raid5) soleProc newRoot 0 2
  return (ok, k.copyinstr newRoot 0 16, k.copyinstr newRoot pgSize 16, found, bytes)

theorem twoStringsRun_eq :
    twoStringsRun = .ok (true, (false, []), (true, [98, 0]), true, [97, 0]) := by
  decide +kernel

theorem twoStrings_evicted : ∃ k', EvictStep (raidSwap .raid5) soleProc twoStrings k' ∧
    k'.copyinstr newRoot 0 16 = (false, []) ∧ k'.copyinstr newRoot pgSize 16 = (true, [98, 0]) ∧
    ∃ k₁, k'.copyin (raidSwap .raid5) soleProc newRoot 0 2 = .ok (true, [97, 0], k₁) := by
  obtain ⟨g, hinv, hs⟩ := twoStrings_sound
  have hrun := twoStringsRun_eq
  unfold twoStringsRun at hrun
  rcases evictOneUserFrame_cases (raidSwapLaws .raid5) hinv hs.own hs.pend with
    ⟨t, -, heq⟩ | ⟨p, k', heq, hstep⟩
  · rw [heq, ok_bind] at hrun
    obtain ⟨r, -, hrun⟩ := bind_eq_ok.1 hrun
    cases hrun
  · rw [heq, ok_bind] at hrun
    obtain ⟨⟨found, bytes, k₁⟩, hcopy, hrun⟩ := bind_eq_ok.1 hrun
    simp only [pure, Except.pure, Except.ok.injEq, Prod.mk.injEq, true_and] at hrun
    obtain ⟨h0, h1, rfl, rfl⟩ := hrun
    have hp : p = soleProc := by
      obtain ⟨-, -, hroot, -⟩ := hstep
      by_contra hp
      simp [twoStrings, hp] at hroot
    exact ⟨k', hp ▸ hstep, h0, h1, k₁, hcopy⟩

/-- The string at 0 is lost to `copyinstr` by the eviction, though not to `copyin`. -/
theorem evicted_string_lost : twoStrings.Sound ∧
    (twoStrings.procs soleProc).pagetable = some newRoot ∧
    twoStrings.copyinstr newRoot 0 16 = (true, [97, 0]) ∧
    ∃ k', EvictStep (raidSwap .raid5) soleProc twoStrings k' ∧
      k'.copyinstr newRoot 0 16 = (false, []) ∧
      ∃ k₁, k'.copyin (raidSwap .raid5) soleProc newRoot 0 2 = .ok (true, [97, 0], k₁) := by
  obtain ⟨k', hstep, hlost, -, hcopy⟩ := twoStrings_evicted
  exact ⟨twoStrings_sound, rfl, by decide +kernel, k', hstep, hlost, hcopy⟩

/-- The string at 4096 is not touched by it. -/
theorem copyinstr_unseen_kept : ∃ k', EvictStep (raidSwap .raid5) soleProc twoStrings k' ∧
    ∀ a, StringByte (twoStrings.byteAt newRoot) pgSize 16 a → (k'.byteAt newRoot a).isSome := by
  obtain ⟨k', hstep, -, hkept, -⟩ := twoStrings_evicted
  have hsame : k'.copyinstr newRoot pgSize 16 = twoStrings.copyinstr newRoot pgSize 16 := by
    rw [hkept]
    decide +kernel
  exact ⟨k', hstep, (copyinstr_unseen_iff (raidSwapLaws .raid5) twoStrings_sound rfl (.single hstep)
    pgSize 16).1.1 hsame⟩

end Kernel

end Xv6Swap.Paging
