import Mathlib.Tactic
import Mathlib.Logic.Function.Basic
import Mathlib.Data.Fin.Tuple.Basic

/-!
# The frame table and the swap map

The data that `frame_lock` protects in `kernel/kalloc.c`, and the critical sections on it as
functions. A section that is a whole function of the source keeps its name; the others are named
after the function they are part of. Processes are named by their index in `proc[]`, a null pointer
is `none`, and so is the slot `-1`. The level of a process is read without its lock, so the sections
that read it take the levels as an argument.
-/

namespace Xv6Swap.Paging

def maxFrames : ℕ := 20

def maxSwapPages : ℕ := 256

def nProc : ℕ := 64

abbrev FrameIdx := Fin maxFrames

abbrev SlotIdx := Fin maxSwapPages

abbrev ProcIdx := Fin nProc

theorem maxSwapPages_pos : 0 < maxSwapPages := by decide

theorem nProc_pos : 0 < nProc := by decide

theorem one_lt_nProc : 1 < nProc := by decide

/-- `struct frame` -/
structure Frame where
  used : Bool
  userFrame : Bool
  proc : Option ProcIdx
  va : ℕ
  refBit : Bool
  deriving DecidableEq

/-- `struct swap_entry` -/
structure SwapEntry where
  used : Bool
  proc : Option ProcIdx
  va : ℕ
  swapSlot : Option SlotIdx
  deriving DecidableEq

/-- What a cleared entry holds. -/
def Frame.clear : Frame := ⟨false, false, none, 0, false⟩

def SwapEntry.clear : SwapEntry := ⟨false, none, 0, none⟩

structure Tables where
  frameTable : FrameIdx → Frame
  clockHand : FrameIdx
  swapUsed : SlotIdx → Bool
  swapMap : SlotIdx → SwapEntry
  userFrameCount : ℕ

/-- The part of `kinit` that is about the tables. -/
def Tables.init : Tables where
  frameTable := fun _ => .clear
  clockHand := ⟨0, by decide⟩
  swapUsed := fun _ => false
  swapMap := fun _ => .clear
  userFrameCount := 0

/-- A page chosen for eviction, and the slot reserved for it. -/
structure Victim where
  frame : FrameIdx
  proc : Option ProcIdx
  va : ℕ
  slot : SlotIdx
  deriving DecidableEq

namespace Tables

def setFrame (t : Tables) (i : FrameIdx) (f : Frame) : Tables :=
  { t with frameTable := Function.update t.frameTable i f }

def setSwap (t : Tables) (i : SlotIdx) (e : SwapEntry) : Tables :=
  { t with swapMap := Function.update t.swapMap i e }

def setSwapUsed (t : Tables) (s : SlotIdx) (b : Bool) : Tables :=
  { t with swapUsed := Function.update t.swapUsed s b }

/-- `if(user_frame_count > 0) user_frame_count--` -/
def decCount (t : Tables) : Tables := { t with userFrameCount := t.userFrameCount - 1 }

/-! ## Frames -/

def registerUserFrame (p : ProcIdx) (va : ℕ) (t : Tables) : Option Tables :=
  (Fin.find? fun i => !(t.frameTable i).used).map fun i =>
    { t.setFrame i ⟨true, true, some p, va, true⟩ with userFrameCount := t.userFrameCount + 1 }

def hasFreeFrameSlot (t : Tables) : Bool :=
  (Fin.find? fun i => !(t.frameTable i).used).isSome

/-- `need_evict` in `kalloc_user` -/
def needEvict (t : Tables) : Bool :=
  maxFrames ≤ t.userFrameCount || !t.hasFreeFrameSlot

def restoreVictimFrame (v : Victim) (t : Tables) : Tables :=
  t.setFrame v.frame ⟨true, true, v.proc, v.va, true⟩

/-- The variables of the loop of `select_victim_frame`. -/
structure Scan where
  table : Tables
  best : Option FrameIdx
  bestLevel : ℤ

def ownerLevel (level : ProcIdx → ℤ) (f : Frame) : ℤ :=
  match f.proc with
  | some p => level p
  | none => 0

/-- The next position of the clock hand. -/
def advance (i : FrameIdx) : FrameIdx :=
  ⟨(i + 1) % maxFrames, Nat.mod_lt _ (by decide)⟩

/-- The scanning loop of `select_victim_frame`, with the rounds left. -/
def scanLoop (level : ProcIdx → ℤ) : ℕ → Scan → Scan
  | 0, s => s
  | rounds + 1, s =>
    let idx := s.table.clockHand
    let f := s.table.frameTable idx
    let t := { s.table with clockHand := advance idx }
    if !f.used || !f.userFrame then scanLoop level rounds { s with table := t }
    else if f.refBit then
      scanLoop level rounds { s with table := t.setFrame idx { f with refBit := false } }
    else
      let s' : Scan := if s.bestLevel < ownerLevel level f then
          ⟨t, some idx, ownerLevel level f⟩
        else { s with table := t }
      -- `if(best_level == 3) break`
      if s'.bestLevel = 3 then s' else scanLoop level rounds s'

def selectVictimFrame (level : ProcIdx → ℤ) (t : Tables) : Option FrameIdx × Tables :=
  let s := scanLoop level (maxFrames * 2) ⟨t, none, -1⟩
  match s.best with
  | some i => (some i, s.table)
  | none =>
    (Fin.find? fun i => (s.table.frameTable i).used && (s.table.frameTable i).userFrame, s.table)

/-- The loops that look for an entry of the frame table by process and address, in
`free_user_frame` and `uvmunmap`. -/
def findFrame (p : Option ProcIdx) (va : ℕ) (t : Tables) : Option FrameIdx :=
  Fin.find? fun i => (t.frameTable i).used && (t.frameTable i).userFrame &&
    decide ((t.frameTable i).proc = p) && decide ((t.frameTable i).va = va)

/-- Drop the frame entry of a page, if it has one. -/
def freeFrameEntry (p : Option ProcIdx) (va : ℕ) (t : Tables) : Tables :=
  match t.findFrame p va with
  | some i => (t.setFrame i .clear).decCount
  | none => t

/-- The loops of `vmfault` that mark a page as referenced. They do not look at `user_frame`. -/
def setRefBit (p : ProcIdx) (va : ℕ) (t : Tables) : Tables :=
  match Fin.find? fun i => (t.frameTable i).used && decide ((t.frameTable i).proc = some p) &&
      decide ((t.frameTable i).va = va) with
  | some i => t.setFrame i { t.frameTable i with refBit := true }
  | none => t

/-! ## Swap slots -/

/-- Reserve the first unused slot, as `evict_one_user_frame` and `uvmcopy` do. -/
def reserveSlot (t : Tables) : Option (SlotIdx × Tables) :=
  (Fin.find? fun s => !t.swapUsed s).map fun s => (s, t.setSwapUsed s true)

/-- The loops that look for an entry of the swap map by process and address. -/
def findSwap (p : ProcIdx) (va : ℕ) (t : Tables) : Option SlotIdx :=
  Fin.find? fun i => (t.swapMap i).used && decide ((t.swapMap i).proc = some p) &&
    decide ((t.swapMap i).va = va)

/-- `swap_used[slot] = 0` for a slot that may be `-1`. -/
def releaseSlot (s : Option SlotIdx) (t : Tables) : Tables :=
  match s with
  | some s => t.setSwapUsed s false
  | none => t

/-- Free a slot and clear the entry `i`. -/
def releaseSwap (i : SlotIdx) (s : Option SlotIdx) (t : Tables) : Tables :=
  (t.releaseSlot s).setSwap i .clear

/-- The section of `uvmunmap` on the swap map. -/
def freeSwapEntry (p : ProcIdx) (va : ℕ) (t : Tables) : Tables :=
  match t.findSwap p va with
  | some i => t.releaseSwap i (t.swapMap i).swapSlot
  | none => t

/-- The last section of `uvmcopy` for a page in swap: the first unused entry, or the slot is given
back. -/
def insertSwap (child : ProcIdx) (va : ℕ) (dst : SlotIdx) (t : Tables) : Bool × Tables :=
  match Fin.find? fun i => !(t.swapMap i).used with
  | some i => (true, t.setSwap i ⟨true, some child, va, some dst⟩)
  | none => (false, t.setSwapUsed dst false)

/-- The first loop of `free_proc_swap_slots`, over the entries `l`. -/
def freeSwapsOf (p : ProcIdx) (l : List SlotIdx) (t : Tables) : Tables :=
  l.foldl (fun t i => if (t.swapMap i).used && decide ((t.swapMap i).proc = some p) then
    t.releaseSwap i (t.swapMap i).swapSlot else t) t

/-- The second loop of `free_proc_swap_slots`, over the entries `l`. -/
def freeFramesOf (p : ProcIdx) (l : List FrameIdx) (t : Tables) : Tables :=
  l.foldl (fun t i => if (t.frameTable i).used && (t.frameTable i).userFrame &&
    decide ((t.frameTable i).proc = some p) then (t.setFrame i .clear).decCount else t) t

def freeProcSwapSlots (p : ProcIdx) (t : Tables) : Tables :=
  (t.freeSwapsOf p (List.finRange maxSwapPages)).freeFramesOf p (List.finRange maxFrames)

/-! ## Eviction -/

/-- The first section of an attempt of `evict_one_user_frame`: select a victim, hide its entry and
reserve a slot. -/
def evictBegin (level : ProcIdx → ℤ) (t : Tables) : Option Victim × Tables :=
  match t.selectVictimFrame level with
  | (none, t) => (none, t)
  | (some i, t) =>
    let f := t.frameTable i
    let t := t.setFrame i ⟨f.used, false, none, 0, false⟩
    match t.reserveSlot with
    | none => (none, t.setFrame i ⟨true, true, f.proc, f.va, true⟩)
    | some (s, t) => (some ⟨i, f.proc, f.va, s⟩, t)

/-- The section after a victim turned out to have no page: the slot and the entry are dropped. -/
def evictAbort (v : Victim) (t : Tables) : Tables :=
  ((t.setSwapUsed v.slot false).setFrame v.frame .clear).decCount

/-- The section after a failed write. -/
def evictUndo (v : Victim) (t : Tables) : Tables :=
  (t.setSwapUsed v.slot false).restoreVictimFrame v

/-- The last section: the page is recorded in the swap map, and its entry becomes unused. -/
def evictPublish (v : Victim) (t : Tables) : Tables :=
  ((t.setSwap v.slot ⟨true, v.proc, v.va, some v.slot⟩).setFrame v.frame
    { t.frameTable v.frame with used := false }).decCount

end Tables

end Xv6Swap.Paging
