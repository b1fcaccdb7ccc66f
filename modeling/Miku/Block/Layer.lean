import Miku.Block.Cache

namespace Miku.Block
open BufferCache (chunksOf)

/-- How a call ends early: with an error for the caller, or by a panic of the
kernel (a slice out of bounds). -/
inductive Fail where
  | err (e : BlkError)
  | panic
  deriving DecidableEq, Repr

/-- The registry of devices and the shared buffer cache, which does not exist
before `probe`. -/
structure Layer where
  devs : Nat → Option Device
  cache : Option BufferCache

/-- The state survives a failure. -/
abbrev LayerM := EStateM Fail Layer

namespace Layer

def slotRef (s : Layer) (dev : Nat) : Option Device :=
  if dev < maxBlockDevices then s.devs dev else none

/-- `total_sectors`, zero for no device. -/
def totalOf (s : Layer) (dev : Nat) : Nat := ((s.slotRef dev).map Device.total).getD 0

def setDev (s : Layer) (dev : Nat) (d : Device) : Layer :=
  { s with devs := Function.update s.devs dev (some d) }

def modifyCache (s : Layer) (f : BufferCache → BufferCache) : Layer :=
  { s with cache := s.cache.map f }

/-- One critical section of the cache lock. -/
def withCache (dflt : α) (f : BufferCache → α × BufferCache) : LayerM α := fun s =>
  match s.cache with
  | none => .ok dflt s
  | some c => .ok (f c).1 { s with cache := some (f c).2 }

/-- Run a command with its retries, unless the device is offline. Throughput and
latency counters and the accounting queue are left out. -/
def dispatch (dev : Nat) (run : Command α) : LayerM α := fun s =>
  match s.slotRef dev with
  | none => .error (.err .noDevice) s
  | some d =>
    if d.state = .offline then .error (.err .offline) s else
      let (r,d) := Device.attempts run Device.maxRetries d
      let s := s.setDev dev (d.account r)
      match r with
      | .ok a => .ok a s
      | .error e => .error (.err e) s

def driverRead (dev lba count : Nat) : LayerM Sectors := dispatch dev (Device.readBlocks lba count)

/-- Write out the chunk that an insert displaced. -/
def writeOut : Option Victim → LayerM Unit
  | none => pure ()
  | some v => dispatch v.dev
      (Device.writeBlocks (v.chunk * chunkSectors) chunkSectors ⟨chunkSectors,v.data⟩)

def raChunks : Nat := 8
def raMaxChunks : Nat := 16

/-- The readahead window grows with the sequential streak. -/
def raWant (streak : Nat) : Nat :=
  if streak = 0 then 1 else if streak ≤ 3 then raChunks else raMaxChunks

def insertWindow (dev chunk n : Nat) (window : Sectors) : LayerM Unit :=
  (List.range n).forM fun i => do
    let victim ← withCache none fun c =>
      c.insert dev (chunk + i) (fun j => window (i * chunkSectors + j))
    writeOut victim

/-- A chunk of a read that is not resident. It is fetched with a readahead window;
the tail of the device is read without the cache. -/
def readMiss (dev lba end_ total : Nat) (out : Sectors) (chunk streak : Nat) : LayerM Sectors := do
  let chunkStart := chunk * chunkSectors
  let chunkEnd := chunkStart + chunkSectors
  let s := max lba chunkStart
  let e := min end_ chunkEnd
  if chunkEnd ≤ total then
    let avail := (total - chunkStart) / chunkSectors
    let n := max (min (raWant streak) avail) 1
    let window ← driverRead dev chunkStart (n * chunkSectors)
    insertWindow dev chunk n window
    return blit out (s - lba) window (s - chunkStart) (e - s)
  else
    let tail ← driverRead dev s (e - s)
    return blit out (s - lba) tail 0 (e - s)

def readChunk (dev lba end_ total : Nat) (out : Sectors) (chunk : Nat) : LayerM Sectors := do
  let chunkStart := chunk * chunkSectors
  let s := max lba chunkStart
  let e := min end_ (chunkStart + chunkSectors)
  let (hit,streak) ← withCache (none,0) fun c =>
    let (hit,c) := c.get dev chunk
    let (streak,c) := c.advance dev chunk
    ((hit,streak),c)
  match hit with
  | some tmp => return blit out (s - lba) tmp (s - chunkStart) (e - s)
  | none => readMiss dev lba end_ total out chunk streak

/-- The sectors read, in the caller's buffer. -/
def read (dev lba count : Nat) (buf : Buf) : LayerM Sectors := do
  if count = 0 then return buf.data
  if count > buf.len then throw (.err .bufferTooSmall)
  let s ← get
  if s.cache.isNone || s.totalOf dev = 0 then
    let data ← driverRead dev lba count
    return blit buf.data 0 data 0 count
  (chunksOf lba count).foldlM (readChunk dev lba (lba + count) (s.totalOf dev)) buf.data

/-- A device write that keeps resident chunks up to date, or drops them if it
failed. -/
def writeThrough (dev lba count : Nat) (buf : Buf) (run : Command Unit) : LayerM Unit :=
  if count = 0 then pure () else fun s =>
    match dispatch dev run s with
    | .ok _ s => .ok () (s.modifyCache fun c => c.updateOnWrite dev lba count buf.data)
    | .error e s => .error e (s.modifyCache fun c => c.invalidateRange dev lba count)

def writeSync (dev lba count : Nat) (buf : Buf) : LayerM Unit :=
  writeThrough dev lba count buf (Device.writeBlocks lba count buf)

def writeBarrier (dev lba count : Nat) (buf : Buf) : LayerM Unit :=
  writeThrough dev lba count buf (Device.writeBlocksFua lba count buf)

def mergeChunks : Nat := 16

/-- The elevator sweep. Every turn cleans a slot, so there are at most `slots`
of them. -/
def flushLoop (dev : Nat) : Nat → Nat → Nat → LayerM Nat
  | 0, _, flushed => pure flushed
  | fuel + 1, after, flushed => do
    match ← withCache none fun c => c.popDirtyRun dev after mergeChunks with
    | none => return flushed
    | some (chunk,n,tmp) =>
      let sectors := n * chunkSectors
      dispatch dev (Device.writeBlocks (chunk * chunkSectors) sectors ⟨sectors,tmp⟩)
      flushLoop dev fuel (chunk + n) (flushed + n)

/-- Write out every dirty chunk of the device; how many went out. -/
def flushDirtyOnly (dev : Nat) : LayerM Nat := flushLoop dev (slots + 1) 0 0

/-- Make one chunk of a write resident and dirty; the chunk this displaces. -/
def cacheChunk (dev chunk s e : Nat) (piece : Buf) : LayerM (Option Victim) := do
  let chunkStart := chunk * chunkSectors
  if s = chunkStart ∧ e = chunkStart + chunkSectors then
    withCache none fun c => c.insertDirty dev chunk piece.data
  else
    let merged ← withCache false fun c => c.mergeDirty dev chunk (s - chunkStart) piece
    if merged then return none
    let tmp ← driverRead dev chunkStart chunkSectors
    withCache none fun c => c.insertDirty dev chunk (blit tmp (s - chunkStart) piece.data 0 (e - s))

/-- One chunk of a write; the tail of the device bypasses the cache. -/
def writeChunk (dev lba end_ total : Nat) (buf : Buf) (chunk : Nat) : LayerM Unit := do
  let chunkStart := chunk * chunkSectors
  let chunkEnd := chunkStart + chunkSectors
  let s := max lba chunkStart
  let e := min end_ chunkEnd
  let piece := buf.slice (s - lba) (e - s)
  if chunkEnd > total then writeSync dev s (e - s) piece
  else
    let victim ← cacheChunk dev chunk s e piece
    writeOut victim

def dirtyHighWater : Nat := 256

def write (dev lba count : Nat) (buf : Buf) : LayerM Unit := do
  if count = 0 then return
  if count > buf.len then throw (.err .bufferTooSmall)
  let s ← get
  if s.cache.isNone || s.totalOf dev = 0 then writeSync dev lba count buf
  else
    (chunksOf lba count).forM (writeChunk dev lba (lba + count) (s.totalOf dev) buf)
    let dirty ← withCache 0 fun c => (c.dirtyCount,c)
    if dirty > dirtyHighWater then
      let _ ← flushDirtyOnly dev

/-- The driver's flush, which is not dispatched: no retry, and the state machine
does not see it. -/
def driverFlush (dev : Nat) : LayerM Unit := fun s =>
  match s.slotRef dev with
  | none => .error (.err .noDevice) s
  | some d => match Device.flush d with
    | (.ok _,d) => .ok () (s.setDev dev d)
    | (.error e,d) => .error (.err e) (s.setDev dev d)

/-- Drain the dirty chunks, then the device's own write cache. -/
def flush (dev : Nat) : LayerM Unit := do
  let _ ← flushDirtyOnly dev
  driverFlush dev

/-- `&zeros[..n * 512]` of the one-chunk zero buffer. -/
def zeroSlice (n : Nat) : LayerM Buf :=
  if n ≤ chunkSectors then pure ⟨n,zeros⟩ else throw .panic

/-- Sectors in the zero buffer of the fallback. -/
def zbufSectors : Nat := 16 * chunkSectors

/-- Stream zero buffers over `left` sectors. -/
def zeroLoop (dev : Nat) : Nat → Nat → Nat → LayerM Unit
  | 0, _, _ => pure ()
  | fuel + 1, at_, left =>
    if left = 0 then pure () else do
      let n := min left zbufSectors
      dispatch dev (Device.writeBlocks at_ n ⟨n,zeros⟩)
      zeroLoop dev fuel (at_ + n) (left - n)

/-- The aligned middle: a device command, or zero buffers without one. -/
def zeroMiddle (dev midStart midCount : Nat) : LayerM Unit := fun s =>
  match dispatch dev (Device.writeZeroes midStart midCount) s with
  | .error (.err .unsupported) s => zeroLoop dev midCount midStart midCount s
  | r => r

/-- An unaligned edge goes through the regular write path. -/
def zeroEdge (dev lba end_ : Nat) : LayerM Unit := do
  if lba < end_ then write dev lba (end_ - lba) (← zeroSlice (end_ - lba))

/-- `lba` is a `u64` and `count` a `u32`; their sum wraps. -/
def writeZeroes (dev lba count : Nat) : LayerM Unit := do
  match (← get).slotRef dev with
  | none => throw (.err .noDevice)
  | some inf =>
    if inf.readOnly then throw (.err .readOnly)
    let end_ := min ((lba + count) % 2 ^ 64) inf.total
    if lba ≥ end_ then return
    let midStart := (lba + chunkSectors - 1) / chunkSectors * chunkSectors
    let midEnd := end_ / chunkSectors * chunkSectors
    if midStart ≥ midEnd then zeroEdge dev lba end_
    else
      zeroEdge dev lba midStart
      zeroEdge dev midEnd end_
      modify fun s => s.modifyCache fun c => c.invalidateCovered dev midStart (midEnd - midStart)
      zeroMiddle dev midStart (midEnd - midStart)

end Layer

inductive Call where
  | read (dev lba count : Nat) (buf : Buf)
  | write (dev lba count : Nat) (buf : Buf)
  | writeSync (dev lba count : Nat) (buf : Buf)
  | writeBarrier (dev lba count : Nat) (buf : Buf)
  | writeZeroes (dev lba count : Nat)
  | flush (dev : Nat)

/-- A call, and how the commands it sends to each device turn out. -/
structure Event where
  call : Call
  faults : Nat → Faults

namespace Layer

def exec : Call → LayerM Unit
  | .read dev lba count buf => do let _ ← read dev lba count buf
  | .write dev lba count buf => write dev lba count buf
  | .writeSync dev lba count buf => writeSync dev lba count buf
  | .writeBarrier dev lba count buf => writeBarrier dev lba count buf
  | .writeZeroes dev lba count => writeZeroes dev lba count
  | .flush dev => flush dev

def arm (s : Layer) (faults : Nat → Faults) : Layer :=
  { s with devs := fun v => (s.devs v).map fun d => { d with faults := faults v } }

def after (x : LayerM α) (s : Layer) : Layer :=
  match x s with
  | .ok _ t => t
  | .error _ t => t

def step (s : Layer) (ev : Event) : Layer := after (exec ev.call) (s.arm ev.faults)

end Layer

end Miku.Block
