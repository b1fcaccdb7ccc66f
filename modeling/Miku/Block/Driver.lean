import Mathlib.Data.UInt

namespace Miku.Block

abbrev Sector := Fin 512 → UInt8

def zeroSector : Sector := fun _ => 0

/-- Consecutive sectors, counted from the start of a buffer, a chunk or a
device. -/
abbrev Sectors := Nat → Sector

def zeros : Sectors := fun _ => zeroSector

/-- `copy_from_slice`: `n` sectors of `src` from `off` on, to `dst` at `at_`. -/
def blit (dst : Sectors) (at_ : Nat) (src : Sectors) (off n : Nat) : Sectors :=
  fun i => if at_ ≤ i ∧ i < at_ + n then src (off + (i - at_)) else dst i

/-- A caller's buffer with its length in whole sectors. -/
structure Buf where
  len : Nat
  data : Sectors

/-- `&buf[off..off + len]`. -/
def Buf.slice (b : Buf) (off len : Nat) : Buf := ⟨len,fun i => b.data (off + i)⟩

inductive BlkError where
  | noDevice
  | bufferTooSmall
  | deviceFault
  | timeout
  | readOnly
  | unsupported
  | offline
  deriving DecidableEq, Repr

inductive DevState where
  | online
  | degraded
  | offline
  deriving DecidableEq, Repr

/-- What a failed write may leave behind in the sectors it was sent to. -/
abbrev Torn := Nat → Option Sector

/-- How the commands to come turn out: `none` is success, and so is every
command past the end of a list. -/
structure Faults where
  reads : List (Option BlkError)
  writes : List (Option (BlkError × Torn))
  flushes : List (Option BlkError)

def Faults.none : Faults := ⟨[],[],[]⟩

/-- The next outcome of a channel. -/
def nextFault : List (Option α) → Option α × List (Option α)
  | [] => (none,[])
  | r :: rs => (r,rs)

/-- A registered device with its driver. `media` is what the device returns for
a sector, `stable` what of that survives a power loss. -/
structure Device where
  total : Nat
  readOnly : Bool
  /-- The driver has a Force Unit Access write of its own. -/
  nativeFua : Bool
  /-- The driver has a Write Zeroes command. -/
  nativeZeroes : Bool
  media : Sectors
  stable : Sectors
  faults : Faults
  state : DevState
  consecErrors : Nat

/-- A driver method run on a device. -/
abbrev Command (α : Type) := Device → Except BlkError α × Device

namespace Device

/-- Part of a failed write may have reached the medium. -/
def tear (d : Device) (lba count : Nat) (torn : Torn) : Device :=
  { d with media := fun a =>
      if lba ≤ a ∧ a < lba + count then (torn a).getD (d.media a) else d.media a }

def readBlocks (lba count : Nat) : Command Sectors := fun d =>
  if lba + count > d.total then (.error .deviceFault,d) else
    let (fault,rest) := nextFault d.faults.reads
    let d := { d with faults := { d.faults with reads := rest } }
    match fault with
    | some e => (.error e,d)
    | none => (.ok (fun i => d.media (lba + i)),d)

def writeBlocks (lba count : Nat) (buf : Buf) : Command Unit := fun d =>
  if count > buf.len then (.error .bufferTooSmall,d)
  else if lba + count > d.total then (.error .deviceFault,d)
  else
    let (fault,rest) := nextFault d.faults.writes
    let d := { d with faults := { d.faults with writes := rest } }
    match fault with
    | some (e,torn) => (.error e,d.tear lba count torn)
    | none => (.ok (),{ d with media := blit d.media lba buf.data 0 count })

def flush : Command Unit := fun d =>
  let (fault,rest) := nextFault d.faults.flushes
  let d := { d with faults := { d.faults with flushes := rest } }
  match fault with
  | some e => (.error e,d)
  | none => (.ok (),{ d with stable := d.media })

/-- A driver without a FUA bit writes and then flushes the whole device. -/
def writeBlocksFua (lba count : Nat) (buf : Buf) : Command Unit := fun d =>
  match writeBlocks lba count buf d with
  | (.error e,d) => (.error e,d)
  | (.ok (),d) =>
    if d.nativeFua then (.ok (),{ d with stable := blit d.stable lba buf.data 0 count })
    else flush d

/-- A driver without the command answers `Unsupported`. -/
def writeZeroes (lba count : Nat) : Command Unit := fun d =>
  if !d.nativeZeroes then (.error .unsupported,d)
  else writeBlocks lba count ⟨count,zeros⟩ d

/-- Errors worth another attempt. -/
def transient (e : BlkError) : Bool := e == .timeout || e == .deviceFault

def maxRetries : Nat := 2

/-- A command with up to `n` further attempts. -/
def attempts (run : Command α) : Nat → Command α
  | 0, d => run d
  | n + 1, d => match run d with
    | (.error e,d) => if transient e then attempts run n d else (.error e,d)
    | (.ok a,d) => (.ok a,d)

def offlineThreshold : Nat := 8

/-- The failfast state machine. `Unsupported` is an answer, not a failure. -/
def account (d : Device) : Except BlkError α → Device
  | .ok _ => { d with
      consecErrors := 0
      state := if d.state = .degraded then .online else d.state }
  | .error .unsupported => d
  | .error _ =>
    let c := d.consecErrors + 1
    let state := if d.state = .online then .degraded else d.state
    { d with consecErrors := c, state := if c ≥ offlineThreshold then .offline else state }

end Device

end Miku.Block
