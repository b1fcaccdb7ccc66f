import Miku.Lib.Bitmap

namespace Miku.Mm
open Lib.Bitmap Function

def maxFrames : Nat := 4 * 1024 * 1024
def frameSize : Nat := 4096

/-- `FRAME_CAP` starts at `MAX_FRAMES` and is only ever raised to a value
clipped by `MAX_FRAMES`, so it never moves. -/
def frameCap : Nat := maxFrames

structure FrameAllocator where
  bitmap : Words
  total : Nat
  used : Nat
  freeHint : Nat
  contiguousHint : Nat

namespace FrameAllocator

/-- Every frame starts out used; regions are released to the allocator later. -/
def new : FrameAllocator := ⟨fun _ => BitVec.allOnes 64,0,0,0,0⟩

def isUsed (a : FrameAllocator) (frame : Nat) : Bool := bitAt a.bitmap frame

/-- The `count > 1` scan: whole-ones words are skipped, whole-zero words are
taken 64 frames at a time, everything else is walked bit by bit. -/
def scanRun (bm : Words) (limit count : Nat) : Nat → Nat → Nat → Nat → Option Nat
  | 0, _, _, _ => none
  | fuel + 1, i, consecutive, start =>
    if i < limit then
      let w := bm (i / 64)
      let whole := consecutive = 0 ∧ i % 64 = 0 ∧ i + 64 ≤ limit
      if whole ∧ w = BitVec.allOnes 64 then scanRun bm limit count fuel (i + 64) consecutive start
      else if whole ∧ w = 0#64 then
        if 64 ≥ count then some i else scanRun bm limit count fuel (i + 64) 64 i
      else if !bitAt bm i then
        let start := if consecutive = 0 then i else start
        if consecutive + 1 ≥ count then some start
        else scanRun bm limit count fuel (i + 1) (consecutive + 1) start
      else scanRun bm limit count fuel (i + 1) 0 start
    else none

def findContiguous (a : FrameAllocator) (start limit count : Nat) : Option Nat :=
  if start ≥ limit ∨ count = 0 then none
  else if count = 1 then
    let headEnd := min ((start + 63) / 64 * 64) limit
    let n := (limit - headEnd) / 64
    let at_ := headEnd + 64 * n
    (scanBits a.bitmap start (headEnd - start)).or
      ((scanWords a.bitmap headEnd n).or (scanBits a.bitmap at_ (limit - at_)))
  else scanRun a.bitmap limit count (limit - start) start 0 0

/-- First fit from the hint to the cap, then from zero back up to the hint. -/
def allocFrames (a : FrameAllocator) (count : Nat) : Option (Nat × FrameAllocator) :=
  let searchStart := if count = 1 then a.freeHint else a.contiguousHint
  let result := match a.findContiguous searchStart frameCap count with
    | some r => some r
    | none => if searchStart > 0 then a.findContiguous 0 searchStart count else none
  result.map fun startIdx =>
    (startIdx * frameSize,
      { a with
        bitmap := fillRange true a.bitmap startIdx (startIdx + count)
        used := a.used + count
        freeHint := if count = 1 then startIdx + 1 else a.freeHint
        contiguousHint := if count = 1 then a.contiguousHint else startIdx + count })

def releaseFrames (a : FrameAllocator) (i : Nat) : Nat → FrameAllocator
  | 0 => a
  | n + 1 =>
    let a := if a.isUsed i then
      { a with bitmap := putBit false a.bitmap i, used := a.used - 1 } else a
    releaseFrames a (i + 1) n

def freeFrames (a : FrameAllocator) (phys count : Nat) : FrameAllocator :=
  let startFrame := phys / frameSize
  let endFrame := min (startFrame + count) frameCap
  let a := a.releaseFrames startFrame (endFrame - startFrame)
  { a with
    freeHint := min startFrame a.freeHint
    contiguousHint := min startFrame a.contiguousHint }

/-- `PmmGuard::free_frame`, the batched variant used while tearing down. -/
def freeFrameBatched (a : FrameAllocator) (phys : Nat) : FrameAllocator :=
  let frame := phys / frameSize
  if frame ≥ frameCap then a else
    let a := if a.isUsed frame then
      { a with bitmap := putBit false a.bitmap frame, used := a.used - 1 } else a
    { a with
      freeHint := min frame a.freeHint
      contiguousHint := min frame a.contiguousHint }

def markRangeFree (a : FrameAllocator) (start end_ : Nat) : FrameAllocator :=
  if start ≥ end_ then a else
    { a with
      bitmap := fillRange false a.bitmap start end_
      freeHint := min start a.freeHint
      contiguousHint := min start a.contiguousHint }

/-- The sums wrap at 64 bits. -/
def addRegion (a : FrameAllocator) (base size : Nat) : FrameAllocator :=
  let startFrame := (base + frameSize - 1) % 2 ^ 64 / frameSize
  let endFrame := min ((base + size) % 2 ^ 64 / frameSize) frameCap
  let a := a.markRangeFree startFrame endFrame
  { a with total := a.total + (endFrame - startFrame) }

def reserveBits (a : FrameAllocator) (i : Nat) : Nat → FrameAllocator
  | 0 => a
  | n + 1 =>
    let a := if a.isUsed i then a else
      { a with
        bitmap := putBit true a.bitmap i
        used := if a.used < a.total then a.used + 1 else a.used }
    reserveBits a (i + 1) n

/-- The zeros of a word are counted before it is filled. -/
def reserveWords (a : FrameAllocator) (i : Nat) : Nat → FrameAllocator
  | 0 => a
  | n + 1 =>
    let newly := Nat.count (fun k => (a.bitmap (i / 64)).getLsbD k = false) 64
    reserveWords
      { a with
        bitmap := update a.bitmap (i / 64) (BitVec.allOnes 64)
        used := a.used + min newly (a.total - a.used) } (i + 64) n

def reserveRegion (a : FrameAllocator) (base size : Nat) : FrameAllocator :=
  let startFrame := base / 4096
  let endFrame := min ((base + size + 4095) % 2 ^ 64 / 4096) frameCap
  if startFrame ≥ endFrame then a else
    let headEnd := min ((startFrame + 63) / 64 * 64) endFrame
    let n := (endFrame - headEnd) / 64
    let at_ := headEnd + 64 * n
    ((a.reserveBits startFrame (headEnd - startFrame)).reserveWords headEnd n).reserveBits at_
      (endFrame - at_)

def allocFrame (a : FrameAllocator) : Option (Nat × FrameAllocator) := a.allocFrames 1

def freeFrame (a : FrameAllocator) (phys : Nat) : FrameAllocator := a.freeFrames phys 1

inductive Call where
  | addRegion (base size : UInt64)
  | reserveRegion (base size : UInt64)
  | allocFrames (count : UInt64)
  | freeFrames (phys count : UInt64)

/-- The end of a range to free wraps, and then nothing is freed. -/
def step (a : FrameAllocator) : Call → FrameAllocator
  | .addRegion base size => a.addRegion base.toNat size.toNat
  | .reserveRegion base size => a.reserveRegion base.toNat size.toNat
  | .allocFrames count => ((a.allocFrames count.toNat).map Prod.snd).getD a
  | .freeFrames phys count =>
    let startFrame := phys.toNat / frameSize
    a.freeFrames phys.toNat ((startFrame + count.toNat) % 2 ^ 64 - startFrame)

end FrameAllocator

/-- `phys & !0xFFF`. -/
def frameBase (phys : Nat) : Nat := phys / 4096 * 4096

/-- Share counts of copy-on-write frames. Absent means one owner. -/
abbrev RefCounts := Nat → Option Nat

namespace RefCounts

def u16Max : Nat := 65535

def refInc (rc : RefCounts) (phys : Nat) : RefCounts :=
  let frame := frameBase phys
  let entry := (rc frame).getD 1
  update rc frame (some (min (entry + 1) u16Max))

/-- Returns what is left of the count, or zero for an untracked frame. -/
def refDec (rc : RefCounts) (phys : Nat) : Nat × RefCounts :=
  let frame := frameBase phys
  match rc frame with
  | some count =>
    let val := count - 1
    (val,update rc frame (if val ≤ 1 then none else some val))
  | none => (0,rc)

def refGet (rc : RefCounts) (phys : Nat) : Nat := (rc (frameBase phys)).getD 1

end RefCounts

/-- What dropping one reference to a frame leaves behind. -/
inductive Outcome where
  | free | nowUnique | stillShared

/-- The reference-count half of `free_frame_cow_swap`. -/
def dropRef (rc : RefCounts) (phys : Nat) : Outcome × RefCounts :=
  let frame := frameBase phys
  match rc frame with
  | some count =>
    let val := count - 1
    if val = 0 then (.free,update rc frame none)
    else if val = 1 then (.nowUnique,update rc frame none)
    else (.stillShared,update rc frame (some val))
  | none => (.free,rc)

def emergencyPoolSize : Nat := 64

def emergencyLowWater : Nat := 32

def emergencyHighWater : Nat := 64

/-- Frames set aside for swap-in; the head is the top of the stack. -/
structure EmergencyPool where
  frames : List Nat

namespace EmergencyPool

def push (p : EmergencyPool) (phys : Nat) : Option EmergencyPool :=
  if p.frames.length ≥ emergencyPoolSize then none else some ⟨phys :: p.frames⟩

def pop (p : EmergencyPool) : Option (Nat × EmergencyPool) :=
  match p.frames with
  | [] => none
  | f :: fs => some (f,⟨fs⟩)

end EmergencyPool

end Miku.Mm
