import Xv6Swap.Paging.Exec

/-!
# Retrying an access after a page fault

`usertrap` passes load and store page faults to `vmfault` and goes back to user mode when it returns
an address; the access is then tried again. `vmfault` has three ways to succeed. Two of them map a
page that user code may read and write. The third finds the page mapped and returns its address
without a look at the permissions or at the argument `read`: a store to a page of the text segment
is reported as handled, and faults for ever.

`vmfault_retriable_iff` holds in every state, whether or not the table invariants do.
-/

namespace Xv6Swap.Paging

open Raid (pgSize)

/-- The page faults that `usertrap` handles: `scause` 13 and 15. -/
inductive FaultCause
  | load
  | store
  deriving DecidableEq

/-- The permission that the access needs. -/
def FaultCause.allows : FaultCause → Perm → Bool
  | .load => Perm.r
  | .store => Perm.w

theorem FaultCause.allows_userRw (c : FaultCause) : c.allows .userRw = true := by
  cases c <;> rfl

namespace Kernel

open Tables

variable {σ : Type} {S : SwapOps σ} {k k' : Kernel σ} {p : ProcIdx} {root pa : PA} {va : ℕ}

/-! ## What a successful mapping leaves -/

/-- A walk that finds the entry has both levels of the page table above it. -/
theorem walk_found {alloc : Bool} (h : k.walk root va alloc = .ok (true, k')) :
    ((k'.pts root).mid (midIdx va)).isSome ∧ ((k'.pts root).low (lowIdx va)).isSome := by
  obtain ⟨-, ⟨hfalse, -⟩ | ⟨k₁, h₁, h⟩⟩ := walk_cases h
  · cases hfalse
  · have hmid : ((k₁.pts root).mid (midIdx va)).isSome := by
      obtain ⟨rfl, hmid⟩ | ⟨-, -, pa, k₂, -, rfl⟩ := walkMid_cases h₁
      · exact hmid rfl
      · simp [setPt]
    obtain ⟨rfl, hlow⟩ | ⟨-, -, pa, k₂, -, rfl⟩ := walkLow_cases h
    · exact ⟨hmid, hlow rfl⟩
    · simpa [setPt] using hmid

theorem mappages_pteAt {perm : Perm} (h : k.mappages root va pa perm = .ok (true, k')) :
    k'.pteAt root va = some ⟨pa, perm⟩ := by
  obtain ⟨k₁, hwalk, ⟨hfalse, -⟩ | ⟨-, -, rfl⟩⟩ := mappages_cases h
  · cases hfalse
  · obtain ⟨hmid, hlow⟩ := walk_found hwalk
    simp [pteAt, setLeaf, setPt, hmid, hlow]

/-- The paths of `vmfault` that map a page let user code read and write it. -/
theorem zeroFill_pteAt (h : k.zeroFill S p root va = .ok (some pa, k')) :
    k'.pteAt root va = some ⟨pa, .userRw⟩ := by
  unfold zeroFill at h
  obtain ⟨⟨r, k₁⟩, -, h⟩ := bind_eq_ok.1 h
  cases r with
  | none => cases h
  | some pa₁ =>
    obtain ⟨⟨ok, k₂⟩, hmap, h⟩ := bind_eq_ok.1 h
    cases ok with
    | false =>
      obtain ⟨k₃, -, h⟩ := bind_eq_ok.1 h
      cases h
    | true =>
      obtain ⟨hpa, rfl⟩ := Prod.mk.inj (Except.ok.inj h)
      obtain rfl := Option.some.inj hpa
      have hpte := mappages_pteAt hmap
      exact hpte

theorem swapIn_pteAt {i : SlotIdx} {slot : Option SlotIdx}
    (h : k.swapIn S p root va i slot = .ok (some pa, k')) :
    k'.pteAt root va = some ⟨pa, .userRw⟩ := by
  unfold swapIn at h
  obtain ⟨⟨r, k₁⟩, -, h⟩ := bind_eq_ok.1 h
  cases r with
  | none => cases h
  | some pa₁ =>
    dsimp only at h
    cases hread : k₁.readSwap S slot pa₁ with
    | mk ok k₂ =>
      rw [hread] at h
      cases ok with
      | false =>
        obtain ⟨k₃, -, h⟩ := bind_eq_ok.1 h
        cases h
      | true =>
        obtain ⟨⟨ok, k₃⟩, hmap, h⟩ := bind_eq_ok.1 h
        cases ok with
        | false =>
          obtain ⟨k₄, -, h⟩ := bind_eq_ok.1 h
          cases h
        | true =>
          obtain ⟨hpa, rfl⟩ := Prod.mk.inj (Except.ok.inj h)
          obtain rfl := Option.some.inj hpa
          have hpte := mappages_pteAt hmap
          exact hpte

/-- What a page fault that returns an address leaves: the page table entry that was there, or one
for reading and writing if there was none. -/
theorem vmfault_pteAt (hroot : (k.procs p).pagetable = some root)
    (h : k.vmfault S p va = .ok (some pa, k')) :
    (∃ perm, k.pteAt root (pgRoundDown va) = some ⟨pa, perm⟩ ∧ perm.u = true ∧
        k'.pteAt root (pgRoundDown va) = some ⟨pa, perm⟩) ∨
      k.pteAt root (pgRoundDown va) = none ∧
        k'.pteAt root (pgRoundDown va) = some ⟨pa, .userRw⟩ := by
  simp only [vmfault, hroot] at h
  split at h
  · cases h
  obtain ⟨mapped, hmapped, h⟩ := bind_eq_ok.1 h
  unfold ismapped at hmapped
  split at hmapped
  · cases hmapped
  rename_i hmax
  obtain rfl := Except.ok.inj hmapped
  cases hpte : k.pteAt root (pgRoundDown va) with
  | some pte =>
    rw [hpte] at h
    obtain ⟨haddr, rfl⟩ := Prod.mk.inj (Except.ok.inj h)
    have hpte' : ({ k with tables := k.tables.setRefBit p (pgRoundDown va) } : Kernel σ).pteAt root
        (pgRoundDown va) = some pte := hpte
    rw [walkaddr, if_neg hmax, hpte'] at haddr
    obtain ⟨hu, hpa⟩ := Option.ite_none_right_eq_some.1 haddr
    obtain rfl := Option.some.inj hpa
    exact .inl ⟨pte.perm, rfl, hu, hpte'⟩
  | none =>
    rw [hpte] at h
    simp only [Option.isSome_none, Bool.false_eq_true, if_false] at h
    refine .inr ⟨rfl, ?_⟩
    split at h
    · exact swapIn_pteAt h
    · exact zeroFill_pteAt h

/-! ## Retrying -/

/-- The page of `va` is mapped at `pa` for user code with the permission for the access, so that the
access finds it there. -/
def Retriable (k : Kernel σ) (root : PA) (va : ℕ) (c : FaultCause) (pa : PA) : Prop :=
  (∃ perm, k.pteAt root (pgRoundDown va) = some ⟨pa, perm⟩ ∧ perm.u = true ∧
    c.allows perm = true) ∧ k.translate root va c.allows = some pa

theorem pteAt_pgRoundDown (k : Kernel σ) (root : PA) (va : ℕ) :
    k.pteAt root (pgRoundDown va) = k.pteAt root va := by
  have hvpn : vpn (pgRoundDown va) = vpn va := vpn_mul (va / pgSize)
  have hlow : lowIdx (pgRoundDown va) = lowIdx va := by rw [lowIdx_eq, lowIdx_eq, hvpn]
  unfold pteAt
  rw [midIdx_eq, midIdx_eq, hlow, hvpn]

theorem retriable_iff {perm : Perm} (c : FaultCause)
    (hpte : k.pteAt root (pgRoundDown va) = some ⟨pa, perm⟩) (hu : perm.u = true) :
    k.Retriable root va c pa ↔ c.allows perm = true := by
  constructor
  · rintro ⟨⟨perm', hpte', -, hallows⟩, -⟩
    rw [hpte] at hpte'
    obtain ⟨-, rfl⟩ := Pte.mk.inj (Option.some.inj hpte')
    exact hallows
  · intro hallows
    refine ⟨⟨perm, hpte, hu, hallows⟩, ?_⟩
    rw [pteAt_pgRoundDown] at hpte
    simp [translate, hpte, hu, hallows]

/-- **When a handled fault can be retried.** After a page fault that returns an address the access
succeeds exactly if the page was not mapped before, or was mapped with the permission that the
access needs. -/
theorem vmfault_retriable_iff (hroot : (k.procs p).pagetable = some root) (c : FaultCause)
    (h : k.vmfault S p va = .ok (some pa, k')) :
    k'.Retriable root va c pa ↔
      ∀ pte, k.pteAt root (pgRoundDown va) = some pte → c.allows pte.perm = true := by
  rcases vmfault_pteAt hroot h with ⟨perm, hpte, hu, hpte'⟩ | ⟨hnone, hpte'⟩
  · rw [retriable_iff c hpte' hu, hpte]
    constructor
    · rintro hallows pte heq
      obtain rfl := Option.some.inj heq
      exact hallows
    · exact fun hall => hall _ rfl
  · rw [retriable_iff c hpte' rfl, hnone]
    exact ⟨fun _ => nofun, fun _ => c.allows_userRw⟩

/-! ## A store to the text segment -/

/-- A process with a page of text, `PTE_R | PTE_X | PTE_U`, and a page of data. -/
def textImage : Kernel Raid.Dev :=
  { image with
    tables := Tables.init
    pts := fun _ => smallTable 0x80104000 0x80105000 fun v =>
      if v = 0 then some ⟨0x80106000, ⟨true, false, true, true⟩⟩
      else if v = 1 then some ⟨0x80107000, .userRw⟩ else none
    procs := fun p =>
      if p = soleProc then ⟨.running, 3 * pgSize, some newRoot, none, 0, 0, 0, 0, 0, 0, 0⟩
      else ⟨.unused, 0, none, none, 0, 0, 0, 0, 0, 0, 0⟩ }

/-- A store to the text page is reported as handled, and faults again. -/
theorem store_to_text_not_retriable : (textImage.procs soleProc).pagetable = some newRoot ∧
    ∃ pa k', textImage.vmfault (raidSwap .raid5) soleProc 16 = .ok (some pa, k') ∧
      ¬ k'.Retriable newRoot 16 .store pa ∧ k'.translate newRoot 16 Perm.w = none := by
  refine ⟨rfl, 0x80106000, { textImage with tables := textImage.tables.setRefBit soleProc 0 }, ?_,
    fun h => ?_, ?_⟩
  · rfl
  · obtain ⟨⟨perm, hpte, -, hw⟩, -⟩ := h
    have hperm : perm = ⟨true, false, true, true⟩ :=
      (Pte.mk.inj (Option.some.inj hpte)).2.symm
    rw [hperm] at hw
    cases hw
  · rfl

/-- A store to a page that was never touched. -/
theorem vmfault_retriable_data : ∃ pa k',
    textImage.vmfault (raidSwap .raid5) soleProc 8200 = .ok (some pa, k') ∧
      k'.Retriable newRoot 8200 .store pa := by
  have hrun : (textImage.vmfault (raidSwap .raid5) soleProc 8200).toOption.bind (·.1) =
      some 0x80108000 := by decide +kernel
  cases h : textImage.vmfault (raidSwap .raid5) soleProc 8200 with
  | error e =>
    rw [h] at hrun
    cases hrun
  | ok r =>
    obtain ⟨r, k'⟩ := r
    rw [h] at hrun
    obtain rfl : r = some 0x80108000 := hrun
    have hroot : (textImage.procs soleProc).pagetable = some newRoot := rfl
    exact ⟨_, k', rfl, (vmfault_retriable_iff hroot .store h).2 fun pte hpte => by
      have hnone : textImage.pteAt newRoot (pgRoundDown 8200) = none := rfl
      rw [hnone] at hpte
      cases hpte⟩

end Kernel

end Xv6Swap.Paging
