import Xv6Swap.Paging.Strings

/-!
# Copying between the kernel and user memory

`copyout` and `copyin` go through the user's memory page by page, and each page may need a page
fault, which may evict a page that was copied before. `copy_user_flat`: both act on the flat
memories. `copyout` replaces the bytes of its range, or, if it fails, those of a first part of the
range that ends at a page boundary; `copyin` delivers the bytes of its range and changes nothing.
-/

namespace Xv6Swap.Paging.Kernel

open Raid (Byte Page pgSize)

variable {σ : Type} {S : SwapOps σ} {L : SwapLaws S} {k k' : Kernel σ} {f : Flat}

/-- An address of the user memory of a process. -/
def UserAddr (k : Kernel σ) (q : ProcIdx) (a : ℕ) : Prop :=
  a / pgSize < npages (k.procs q).sz ∧ a / pgSize < vpn trapframeVa

theorem Shows.read (h : Shows L k f) {q : ProcIdx} {a : ℕ} (ha : k.UserAddr q a) :
    (k.flat L).read q a = f.read q a := by
  rw [Flat.read, Flat.read, h.page q _ ha.1 ha.2]
  rfl

/-- **`copyout` and `copyin` act on the flat memory**, wherever the pages are. Neither touches
another process. -/
theorem copy_user_flat (L : SwapLaws S) (k : Kernel σ) (h : k.Sound) (p : ProcIdx) (root : PA)
    (hroot : (k.procs p).pagetable = some root) :
    (∀ (dstva : ℕ) (src : List Byte), ∃ b k' m, k.copyout S p root dstva src = .ok (b, k') ∧
      k'.Sound ∧ CopiedTo k p dstva src.length b m ∧
      (∀ q, (k'.procs q).core = (k.procs q).core) ∧
      ∀ q a, k.UserAddr q a → (k'.flat L).read q a =
        if q = p ∧ dstva ≤ a ∧ a < dstva + m then src.getD (a - dstva) 0
        else (k.flat L).read q a) ∧
    ∀ srcva len : ℕ, ∃ b bytes k', k.copyin S p root srcva len = .ok (b, bytes, k') ∧
      k'.Sound ∧ (b = true → bytes = (List.range len).map fun j => (k.flat L).read p (srcva + j)) ∧
      (∀ q, (k'.procs q).core = (k.procs q).core) ∧
      ∀ q a, k.UserAddr q a → (k'.flat L).read q a = (k.flat L).read q a := by
  have haddr : ∀ {k' : Kernel σ}, (∀ q, (k'.procs q).core = (k.procs q).core) →
      ∀ q a, k.UserAddr q a → k'.UserAddr q a := by
    intro k' hcore q a ha
    have hsz : (k'.procs q).sz = (k.procs q).sz := congrArg ProcCore.sz (hcore q)
    exact ⟨hsz ▸ ha.1, ha.2⟩
  refine ⟨fun dstva src => ?_, fun srcva len => ?_⟩
  · obtain ⟨g, hinv, hs⟩ := h
    obtain ⟨b, k', g', m, heq, hinv', hs', hcore, hm, hshow⟩ :=
      copyoutLoop_spec L src.length hinv hs (shows_flat L k) hroot dstva src le_rfl
    refine ⟨b, k', m, heq, ⟨g', hinv', hs'⟩, hm, hcore, fun q a ha => ?_⟩
    rw [hshow.read (haddr hcore q a ha), Flat.read_copy, List.length_take, min_eq_left hm.le]
    split
    next hin =>
      have hlt : a - dstva < m := by omega
      rw [List.getD_eq_getElem?_getD, List.getElem?_take_of_lt hlt, ← List.getD_eq_getElem?_getD]
    next => rfl
  · obtain ⟨b, bytes, k', heq, hsound, hst, hbytes⟩ :=
      copyin_spec L h (shows_flat L k) hroot srcva len
    exact ⟨b, bytes, k', heq, hsound, hbytes, hst.core, fun q a ha =>
      (hst.shows (shows_flat L k)).read (haddr hst.core q a ha)⟩

theorem sole_copyout_runs :
    (sole.copyout (raidSwap .raid5) soleProc soleRoot (pgSize - 1) [1, 2]).toOption.map Prod.fst =
      some true := by
  decide +kernel

/-- Two bytes go to the end of a page in swap and the start of a page that was never touched. -/
theorem copy_user_flat_sole : ∃ k',
    sole.copyout (raidSwap .raid5) soleProc soleRoot (pgSize - 1) [1, 2] = .ok (true, k') ∧
      (k'.flat (raidSwapLaws .raid5)).read soleProc (pgSize - 1) = 1 ∧
      (k'.flat (raidSwapLaws .raid5)).read soleProc pgSize = 2 := by
  obtain ⟨b, k', m, heq, -, hm, -, hread⟩ :=
    (copy_user_flat (raidSwapLaws .raid5) sole sole_sound soleProc soleRoot rfl).1 (pgSize - 1)
      [1, 2]
  have hruns := sole_copyout_runs
  rw [heq] at hruns
  obtain rfl : b = true := Option.some.inj hruns
  obtain rfl : m = 2 := hm.all rfl
  refine ⟨k', heq, ?_, ?_⟩
  · rw [hread soleProc _ (by unfold UserAddr; decide), if_pos (by decide)]
    rfl
  · rw [hread soleProc _ (by unfold UserAddr; decide), if_pos (by decide)]
    rfl

end Xv6Swap.Paging.Kernel
