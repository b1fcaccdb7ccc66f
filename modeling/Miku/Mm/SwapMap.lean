import Miku.Lib.Bitmap
import Miku.Mm.Pte

namespace Miku.Mm
open Lib.Bitmap Function

def maxTracked : Nat := 64 * 1024

/-- Who maps a frame, as far as reclaim knows. `cr3 = 0` marks a free slot. -/
structure ReverseEntry where
  cr3 : Nat
  virtAddr : Nat
  pteFlags : Pte
  age : Nat
  pinned : Bool

namespace ReverseEntry

def empty : ReverseEntry := ⟨0,0,0#64,0,false⟩

def isUsed (e : ReverseEntry) : Bool := e.cr3 != 0

end ReverseEntry

/-- One reverse entry a frame, scanned by a clock hand up to `highWater`. -/
structure SwapMap where
  entries : Nat → ReverseEntry
  clockHand : Nat
  tracked : Nat
  highWater : Nat

namespace SwapMap

def new : SwapMap := ⟨fun _ => .empty,0,0,0⟩

def frameIdx (phys : Nat) : Nat := phys / 4096

/-- `SwapMapGuard::track`: the caller supplies the flags it just wrote. -/
def track (m : SwapMap) (phys cr3 virt : Nat) (pinned : Bool) (pteFlags : Pte) : SwapMap :=
  let idx := frameIdx phys
  if idx ≥ maxTracked then m else
    { m with
      entries := update m.entries idx ⟨cr3,virt,pteFlags &&& 0xFFF#64,1,pinned⟩
      tracked := if (m.entries idx).isUsed then m.tracked else m.tracked + 1
      highWater := max (idx + 1) m.highWater }

def trimHw (entries : Nat → ReverseEntry) : Nat → Nat
  | 0 => 0
  | hw + 1 => if (entries hw).isUsed then hw + 1 else trimHw entries hw

def untrack (m : SwapMap) (phys : Nat) : SwapMap :=
  let idx := frameIdx phys
  if idx ≥ maxTracked then m else
    let entries := update m.entries idx .empty
    { m with
      entries := entries
      tracked := if (m.entries idx).isUsed then m.tracked - 1 else m.tracked
      highWater := if idx + 1 = m.highWater then trimHw entries m.highWater else m.highWater }

def setPinned (m : SwapMap) (phys : Nat) (pinned : Bool) : SwapMap :=
  let idx := frameIdx phys
  if idx < maxTracked ∧ (m.entries idx).isUsed then
    { m with entries := update m.entries idx { m.entries idx with pinned := pinned } }
  else m

def ageAll (m : SwapMap) : SwapMap :=
  { m with entries := fun i =>
      let e := m.entries i
      if i < m.highWater ∧ e.isUsed ∧ !e.pinned then { e with age := min (e.age + 1) 255 }
      else e }

/-- The clock sweep: the first old unpinned entry, else the first unpinned one. -/
def sweep (entries : Nat → ReverseEntry) (hw : Nat) : Nat → Nat → Option Nat → Option Nat
  | 0, _, fallback => fallback
  | steps + 1, idx, fallback =>
    let e := entries idx
    let next := if idx + 1 ≥ hw then 0 else idx + 1
    if e.isUsed && !e.pinned then
      if e.age ≥ 3 then some idx else sweep entries hw steps next (fallback.or (some idx))
    else sweep entries hw steps next fallback

structure Victim where
  phys : Nat
  cr3 : Nat
  virt : Nat
  pteFlags : Pte
  deriving DecidableEq, Repr

def pickVictim (m : SwapMap) : Option (Victim × SwapMap) :=
  if m.tracked = 0 ∨ m.highWater = 0 then none else
    let start := if m.clockHand ≥ m.highWater then 0 else m.clockHand
    (sweep m.entries m.highWater m.highWater start none).map fun idx =>
      let e := m.entries idx
      (⟨idx * 4096,e.cr3,e.virtAddr,e.pteFlags⟩,
        { m with clockHand := if idx + 1 ≥ m.highWater then 0 else idx + 1 })

def pickVictimAndPin (m : SwapMap) : Option (Victim × SwapMap) :=
  m.pickVictim.map fun (v,m) => (v,m.setPinned v.phys true)

end SwapMap

def swapMaxPages : Nat := 65536

/-- Slots are numbered from one; slot `n` is bit `n - 1`. -/
structure SwapState where
  active : Bool
  partitionLba : Nat
  totalPages : Nat
  usedPages : Nat
  bitmap : Words

namespace SwapState

def new : SwapState := ⟨false,0,0,0,fun _ => 0#64⟩

/-- Words are scanned in order. A word whose first free slot lies past the end
of the device is skipped, not split. -/
def allocScan (s : SwapState) (word : Nat) : Nat → Option Nat
  | 0 => none
  | n + 1 =>
    let w := s.bitmap word
    let slot := word * 64 + trailingOnes w
    if w ≠ BitVec.allOnes 64 ∧ slot < s.totalPages then some slot
    else allocScan s (word + 1) n

def allocSlot (s : SwapState) : Option (Nat × SwapState) :=
  (s.allocScan 0 (swapMaxPages / 64)).map fun slot =>
    (slot + 1,{ s with bitmap := putBit true s.bitmap slot, usedPages := s.usedPages + 1 })

def isUsed (s : SwapState) (slot : Nat) : Bool :=
  if slot = 0 ∨ slot > s.totalPages then false else bitAt s.bitmap (slot - 1)

def freeSlot (s : SwapState) (slot : Nat) : SwapState :=
  if slot = 0 ∨ slot > s.totalPages then s
  else if bitAt s.bitmap (slot - 1) then
    { s with bitmap := putBit false s.bitmap (slot - 1), usedPages := s.usedPages - 1 }
  else s

def freePages (s : SwapState) : Nat := s.totalPages - s.usedPages

/-- `partition_lba + slot * SWAP_SECS_PER_PAGE` in 32-bit arithmetic. -/
def lbaForSlot (s : SwapState) (slot : Nat) : Nat := (s.partitionLba + slot * 8) % 2 ^ 32

end SwapState

end Miku.Mm
