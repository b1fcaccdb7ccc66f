import Miku.Lib.Bytes

namespace Miku.Ext
open Lib Function

inductive FsError where
  | badMagic | ioError | unsupportedVersion | tooManyGroups | invalidInode | notDirectory
  | notFound | corruptedFs | bufferTooSmall | fileTooLarge | notRegularFile | invalidBlock
  | noSpace | alreadyExists | notEmpty | isDirectory | noJournal | extentFull | checksumError
  | inlineTooBig | unsupportedFeature | readOnlyFs | invalidExtent | journalFull | notSymlink
  | linkLoop | invalidArg | permissionDenied
  deriving DecidableEq, Repr

/-- A slot of the filesystem's own block cache, with its part of the buffer. -/
structure CacheEntry where
  blockNum : Nat
  valid : Bool
  dirty : Bool
  lastAccess : Nat
  data : Bytes

def CacheEntry.holds (b : Nat) (e : CacheEntry) : Bool := e.valid && e.blockNum == b

/-- The hit, miss and eviction counters are left out. The access counter does not
reach the end of its 64 bits. -/
structure BlockCache where
  entries : List CacheEntry
  accessCounter : Nat

namespace BlockCache

def emptySlot : CacheEntry := ⟨0,false,false,0,zeroBytes⟩

def new (count : Nat) : BlockCache := ⟨List.replicate count emptySlot,0⟩

/-- The slot a scan for block `b` stops at. -/
def slotOf (c : BlockCache) (b : Nat) : Option Nat := c.entries.findIdx? (CacheEntry.holds b)

def find (c : BlockCache) (b : Nat) : Option Bytes :=
  (c.entries.find? (CacheEntry.holds b)).map CacheEntry.data

/-- Rewrite slot `i` with a fresh access stamp. -/
def stamp (c : BlockCache) (i : Nat) (f : CacheEntry → CacheEntry) : BlockCache :=
  ⟨c.entries.modify i (fun e => { f e with lastAccess := c.accessCounter + 1 }),
    c.accessCounter + 1⟩

def get (c : BlockCache) (b : Nat) : Option Bytes × BlockCache :=
  match c.slotOf b with
  | some i => (c.find b,c.stamp i id)
  | none => (none,c)

/-- The first slot with the oldest stamp among those that meet `p`. -/
def lru (p : CacheEntry → Bool) : List CacheEntry → Option (Nat × Nat)
  | [] => none
  | e :: es =>
    match lru p es with
    | none => if p e then some (0,e.lastAccess) else none
    | some (i,t) => if p e && e.lastAccess ≤ t then some (0,e.lastAccess) else some (i + 1,t)

/-- An empty slot, else the oldest clean one, else the oldest. -/
def findSlot (c : BlockCache) : Nat :=
  match c.entries.findIdx? (fun e => !e.valid) with
  | some i => i
  | none =>
    match lru (fun e => !e.dirty) c.entries with
    | some (i,_) => i
    | none => ((lru (fun _ => true) c.entries).map Prod.fst).getD 0

def putDirty (c : BlockCache) (b : Nat) (d : Bytes) : BlockCache :=
  match c.slotOf b with
  | some i => c.stamp i (fun e => { e with data := d, dirty := true })
  | none => c.stamp c.findSlot (fun _ => ⟨b,true,true,0,d⟩)

/-- The dirty slot the next insert would displace, for want of another. -/
def evictVictim (c : BlockCache) : Option Nat :=
  if c.entries.any (fun e => !e.valid) then none
  else if c.entries.any (fun e => e.valid && !e.dirty) then none
  else some (((lru (fun _ => true) c.entries).map Prod.fst).getD 0)

def markClean (c : BlockCache) (i : Nat) : BlockCache :=
  { c with entries := c.entries.modify i (fun e => { e with dirty := false }) }

def dirtySlots (c : BlockCache) : List Nat :=
  (List.range c.entries.length).filter fun i => c.entries[i]?.any fun e => e.valid && e.dirty

def shouldFlush (c : BlockCache) : Bool :=
  c.entries.length * 3 / 4 < c.entries.countP (fun e => e.valid && e.dirty)

def invalidate (c : BlockCache) (b : Nat) : BlockCache :=
  { c with
    entries := c.entries.map fun e => if CacheEntry.holds b e then { e with valid := false } else e }

end BlockCache

/-- The blocks of a volume: a device that does not fail, counted in blocks, behind
the filesystem's write-back cache. It stands for the device only where a block has sectors of
its own (`Store.Addressable`). -/
structure Store where
  blockSize : Nat
  blocksCount : Nat
  cache : Option BlockCache
  disk : Nat → Bytes

namespace Store

def isValidBlock (s : Store) (b : Nat) : Bool :=
  b != 0 && (s.blocksCount == 0 || b < s.blocksCount)

def sectorsPerBlock (s : Store) : Nat := if s.blockSize = 0 then 1 else s.blockSize / 512

/-- All blocks from sector 2 ^ 32 - 1 on get that one sector. -/
def blockToLba (s : Store) (b : Nat) : Nat := min (b * s.sectorsPerBlock) 4294967295

def Addressable (s : Store) (b : Nat) : Prop := (b + 1) * s.sectorsPerBlock ≤ 4294967295

instance : Decidable (Addressable s b) := inferInstanceAs (Decidable (_ ≤ _))

/-- The device as the driver sees it. -/
def deviceSector (s : Store) (lba : Nat) : Bytes :=
  fun i => s.disk (lba / s.sectorsPerBlock) (512 * (lba % s.sectorsPerBlock) + i)

def setCache (s : Store) (c : BlockCache) : Store := { s with cache := some c }

def writeDisk (s : Store) (b : Nat) (d : Bytes) : Store :=
  { s with disk := update s.disk b d }

/-- A cached copy may be newer than the disk, so the cache is asked first. Misses
are not entered. -/
def readBlockInto (s : Store) (b : Nat) : Except FsError Bytes × Store :=
  if s.isValidBlock b then
    (.ok ((s.cache.bind fun c => (c.get b).1).getD (s.disk b)),
      { s with cache := s.cache.map fun c => (c.get b).2 })
  else (.error .invalidInode,s)

def flushSlot (s : Store) (i : Nat) : Store :=
  match s.cache with
  | none => s
  | some c =>
    match c.entries[i]? with
    | none => s
    | some e => (s.writeDisk e.blockNum e.data).setCache (c.markClean i)

def syncDirtyBlocks (s : Store) : Store :=
  match s.cache with
  | none => s
  | some c => c.dirtySlots.foldl flushSlot s

/-- New bytes for a part of a block that goes to the device sector by sector: the superblock and
the group descriptors. -/
structure Patch where
  block : Nat
  offset : Nat
  bytes : List UInt8

def Patch.over (m : Patch) (old : Bytes) : Bytes := put old m.offset m.bytes

def patch (s : Store) (m : Patch) : Store := s.writeDisk m.block (m.over (s.disk m.block))

/-- The superblock and the descriptors that are dirty do not go through the cache. -/
def sync (s : Store) (metadata : List Patch) : Store := metadata.foldl patch s.syncDirtyBlocks

def flushEvictVictim (s : Store) : Store :=
  match s.cache with
  | none => s
  | some c =>
    match c.evictVictim with
    | none => s
    | some i => s.flushSlot i

/-- Write-through; a staged copy is dropped. -/
def writeBlockDataDirect (s : Store) (b : Nat) (d : Bytes) : Store :=
  { s.writeDisk b d with cache := s.cache.map (·.invalidate b) }

/-- Dirty blocks are written out when they are many, and the one an insert would
displace in any case. -/
def makeRoom (s : Store) : Store :=
  (if s.cache.any BlockCache.shouldFlush then s.syncDirtyBlocks else s).flushEvictVictim

def stageBlock (s : Store) (b : Nat) (d : Bytes) : Store :=
  match s.cache with
  | none => s.writeBlockDataDirect b d
  | some c => s.setCache (c.putDirty b d)

def writeBlockData (s : Store) (b : Nat) (d : Bytes) : Store := s.makeRoom.stageBlock b d

/-- The journal's ordered writes go past the cache, which keeps what it has. -/
def writeBlockDirectNocache (s : Store) (b : Nat) (d : Bytes) : Store := s.writeDisk b d

def writeBlockBarrierNocache (s : Store) (b : Nat) (d : Bytes) : Store := s.writeDisk b d

/-- What reading block `b` gives. -/
def view (s : Store) (b : Nat) : Bytes := (s.cache.bind (·.find b)).getD (s.disk b)

end Store

/-- The sector `k` of a short write: its part of the data, filled up with zeroes. -/
def sector (data : List UInt8) (k : Nat) : List UInt8 :=
  ((data.drop (512 * k)).take 512).rightpad 512 0

/-- A short write goes sector by sector, up to the first that starts behind the data. -/
def writeSectors (bs : Nat) (data : List UInt8) (old : Bytes) : Bytes :=
  ((List.range (bs / 512)).takeWhile fun k => 512 * k < data.length).foldl
    (fun block k => put block (512 * k) (sector data k)) old

/-- `data[..bs]`, with zeroes behind it where the data is shorter. -/
def padded (bs : Nat) (data : List UInt8) : Bytes := put zeroBytes 0 (data.take bs)

/-- The block after `data` has been written over `old`. -/
def written (bs : Nat) (data : List UInt8) (old : Bytes) : Bytes :=
  if bs ≤ data.length then padded bs data else writeSectors bs data old

inductive BlockCall
  | readBlockInto (b : Nat)
  | writeBlockData (b : Nat) (data : List UInt8)
  | writeBlockDataDirect (b : Nat) (data : List UInt8)
  | writeBlockDirectNocache (b : Nat) (data : List UInt8)
  | writeBlockBarrierNocache (b : Nat) (data : List UInt8)
  | sync (metadata : List Store.Patch)

namespace Store

/-- Data shorter than a block is not staged: it goes to the device at once. -/
def writeData (s : Store) (b : Nat) (data : List UInt8) : Store :=
  if s.blockSize ≤ data.length then s.writeBlockData b (padded s.blockSize data)
  else
    let t := s.flushEvictVictim
    t.writeBlockDataDirect b (written s.blockSize data (t.disk b))

def call (s : Store) : BlockCall → Store
  | .readBlockInto b => (s.readBlockInto b).2
  | .writeBlockData b data => s.writeData b data
  | .writeBlockDataDirect b data =>
    s.writeBlockDataDirect b (written s.blockSize data (s.disk b))
  | .writeBlockDirectNocache b data =>
    s.writeBlockDirectNocache b (written s.blockSize data (s.disk b))
  | .writeBlockBarrierNocache b data => s.writeBlockBarrierNocache b (padded s.blockSize data)
  | .sync metadata => s.sync metadata

/-- The cache has a copy of block `b` that meets `p`. -/
def hasCopy (s : Store) (p : CacheEntry → Bool) (b : Nat) : Bool :=
  s.cache.any fun c => c.entries.any fun e => e.holds b && p e

end Store

/-- What the blocks of a volume are for: block `b` holds what was last written to it,
whichever way. -/
def BlockCall.apply (bs : Nat) (content : Nat → Bytes) : BlockCall → Nat → Bytes
  | .writeBlockData b data | .writeBlockDataDirect b data | .writeBlockDirectNocache b data =>
    update content b (written bs data (content b))
  | .writeBlockBarrierNocache b data => update content b (padded bs data)
  | .sync metadata =>
    metadata.foldl (fun content m => update content m.block (m.over (content m.block)))
      content
  | .readBlockInto _ => content

/-- The writes past the cache go to blocks it has no copy of, and those of less than a
block to blocks it has no newer copy of. All blocks have sectors of their own. -/
def BlockCall.Apart (s : Store) : BlockCall → Prop
  | .writeBlockData b data | .writeBlockDataDirect b data =>
    s.Addressable b ∧ (s.blockSize ≤ data.length ∨ s.hasCopy CacheEntry.dirty b = false)
  | .writeBlockDirectNocache b _ | .writeBlockBarrierNocache b _ =>
    s.Addressable b ∧ s.hasCopy (fun _ => true) b = false
  | .sync metadata =>
    ∀ m ∈ metadata, s.Addressable m.block ∧ s.hasCopy (fun _ => true) m.block = false
  | .readBlockInto b => s.Addressable b

instance : ∀ (s : Store) (o : BlockCall), Decidable (o.Apart s)
  | s, .writeBlockData b data | s, .writeBlockDataDirect b data =>
    inferInstanceAs (Decidable (s.Addressable b ∧
      (s.blockSize ≤ data.length ∨ s.hasCopy CacheEntry.dirty b = false)))
  | s, .writeBlockDirectNocache b _ | s, .writeBlockBarrierNocache b _ =>
    inferInstanceAs (Decidable (s.Addressable b ∧ s.hasCopy (fun _ => true) b = false))
  | s, .sync metadata => inferInstanceAs (Decidable (∀ m ∈ metadata,
      s.Addressable m.block ∧ s.hasCopy (fun _ => true) m.block = false))
  | s, .readBlockInto b => inferInstanceAs (Decidable (s.Addressable b))

end Miku.Ext
