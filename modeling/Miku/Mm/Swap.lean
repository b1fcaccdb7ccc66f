import Miku.Block.Driver
import Miku.Lib.Bytes
import Miku.Mm.SwapMap

namespace Miku.Mm
open Block Lib

def swapSecsPerPage : Nat := 8

/-- `SWAPSPACE2`. -/
def swapMagic : List UInt8 := [83,87,65,80,83,80,65,67,69,50]

/-- `SWAP_SECS_PER_PAGE` sectors, from `lba` on, that swap asks the block layer to read or
to write. -/
structure Transfer where
  dev : Nat
  lba : Nat
  deriving DecidableEq, Repr

/-- The swap area with the transfers made so far, the last one first. -/
structure Swap where
  state : SwapState
  devId : Nat
  transfers : List Transfer

namespace Swap

inductive SwapError where
  | io (e : BlkError)
  | alreadyActive
  | notActive
  | invalidMagic
  | unsupportedVersion
  | noSpace
  | invalidSlot
  | swapInUse
  deriving DecidableEq, Repr

def new : Swap := ⟨.new,0,[]⟩

def transfer (s : Swap) (dev lba : Nat) : Swap := { s with transfers := ⟨dev,lba⟩ :: s.transfers }

def guidPseudoSwap (seed : UInt32) : List UInt8 :=
  let a := seed * 0xDEADBEEF + 0x12345678
  let b := a * 0xCAFEBABE + 0xABCDEF01
  [a,b,a + b,b - a].flatMap fun w => le32Bytes w.toNat

/-- The page `mkswap` writes to the start of the partition. -/
def mkswap (partitionLba partitionSectors : UInt32) (label : List UInt8) : Except BlkError Bytes :=
  let totalPages := partitionSectors.toNat / swapSecsPerPage
  if totalPages < 10 then .error .deviceFault
  else
    let p := put (put zeroBytes 0 (le32Bytes 1)) 4 (le32Bytes (totalPages - 1))
    .ok (put (put (put p 12 (guidPseudoSwap partitionLba)) 28 (label.take 15)) 4086 swapMagic)

/-- `page0` is what reading the first page of the partition gives. The length of the
partition is not looked at. -/
def swapon (dev : Nat) (partitionLba _partitionSectors : UInt32) (page0 : Except BlkError Bytes)
    (s : Swap) : Except SwapError Nat × Swap :=
  if s.state.active then (.error .alreadyActive,s) else
  let s := s.transfer dev partitionLba.toNat
  match page0 with
  | .error e => (.error (.io e),s)
  | .ok p =>
    if (List.range 10).map (fun k => p (4086 + k)) ≠ swapMagic then (.error .invalidMagic,s)
    else if le32 p 0 ≠ 1 then (.error .unsupportedVersion,s)
    else
      -- `last_page + 1` wraps in a build without overflow checks
      let totalPages := (le32 p 4 + 1) % 2 ^ 32
      (.ok totalPages,
        { s with
          state := ⟨true,partitionLba.toNat,min (totalPages - 1) swapMaxPages,0,fun _ => 0#64⟩
          devId := dev })

def swapoff (s : Swap) : Except SwapError Unit × Swap :=
  if !s.state.active then (.error .notActive,s)
  else if s.state.usedPages > 0 then (.error .swapInUse,s)
  else (.ok (),{ s with state := .new })

/-- `written` is how the write turns out; the slot stays taken if it fails. -/
def swapOutInternal (written : Except BlkError Unit) (s : Swap) : Except SwapError Nat × Swap :=
  if !s.state.active then (.error .notActive,s) else
  match s.state.allocSlot with
  | none => (.error .noSpace,s)
  | some (slot,w) =>
    let s := { s with state := w }.transfer s.devId (w.lbaForSlot slot)
    match written with
    | .error e => (.error (.io e),s)
    | .ok () => (.ok slot,s)

def swapInInternal (slot : UInt32) (read : Except BlkError Unit) (s : Swap) :
    Except SwapError Unit × Swap :=
  if !s.state.active then (.error .notActive,s)
  else if !s.state.isUsed slot.toNat then (.error .invalidSlot,s)
  else
    let s := s.transfer s.devId (s.state.lbaForSlot slot.toNat)
    match read with
    | .error e => (.error (.io e),s)
    | .ok () => (.ok (),{ s with state := s.state.freeSlot slot.toNat })

def freeSwapSlot (slot : UInt32) (s : Swap) : Swap :=
  if slot = 0 then s else { s with state := s.state.freeSlot slot.toNat }

inductive Call where
  | swapOut (written : Except BlkError Unit)
  | swapIn (slot : UInt32) (read : Except BlkError Unit)
  | freeSlot (slot : UInt32)
  | swapoff

def step (s : Swap) : Call → Swap
  | .swapOut written => (s.swapOutInternal written).2
  | .swapIn slot read => (s.swapInInternal slot read).2
  | .freeSlot slot => s.freeSwapSlot slot
  | .swapoff => s.swapoff.2

end Swap

end Miku.Mm
