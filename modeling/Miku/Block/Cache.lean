import Miku.Block.Driver

namespace Miku.Block
open Function

def chunkSectors : Nat := 8
def ways : Nat := 8
def sets : Nat := 64
/-- `ENTRIES`: 512 chunks. -/
def slots : Nat := ways * sets
def maxBlockDevices : Nat := 8
def u64Max : Nat := 2 ^ 64 - 1
def u32Max : Nat := 2 ^ 32 - 1

structure Entry where
  dev : Nat
  chunk : Nat
  valid : Bool
  dirty : Bool
  lastAccess : Nat

namespace Entry

def empty : Entry := ⟨0,0,false,false,0⟩

def isFor (e : Entry) (dev chunk : Nat) : Bool := e.valid && e.dev == dev && e.chunk == chunk

end Entry

/-- Hit counters and the like are left out. -/
structure BufferCache where
  data : Nat → Sectors
  entries : Nat → Entry
  tick : Nat
  lastChunk : Nat → Nat
  streak : Nat → Nat

/-- A dirty chunk that has to be written out by whoever displaced it. -/
structure Victim where
  dev : Nat
  chunk : Nat
  data : Sectors

namespace BufferCache

def new : BufferCache :=
  { data := fun _ => zeros, entries := fun _ => .empty, tick := 0,
    lastChunk := fun _ => u64Max, streak := fun _ => 0 }

/-- Record an access; the length of the sequential streak it belongs to. -/
def advance (c : BufferCache) (dev chunk : Nat) : Nat × BufferCache :=
  let slot := dev % maxBlockDevices
  let streak := if c.lastChunk slot = (chunk + u64Max) % (u64Max + 1) then
      min (c.streak slot + 1) u32Max
    else if c.lastChunk slot ≠ chunk then 0 else c.streak slot
  (streak,{ c with
    lastChunk := update c.lastChunk slot chunk
    streak := update c.streak slot streak })

def setBase (dev chunk : Nat) : Nat :=
  (chunk ^^^ (chunk >>> 13) ^^^ (dev <<< 7)) % sets * ways

/-- The slots a chunk may live in. -/
def home (dev chunk : Nat) : List Nat := List.range' (setBase dev chunk) ways

/-- The way that holds the chunk, as the loops over a set find it. -/
def lookup (c : BufferCache) (dev chunk : Nat) : Option Nat :=
  (home dev chunk).find? (fun i => (c.entries i).isFor dev chunk)

def setEntry (c : BufferCache) (slot : Nat) (e : Entry) : BufferCache :=
  { c with entries := update c.entries slot e }

/-- The chunk's data on a hit. -/
def get (c : BufferCache) (dev chunk : Nat) : Option Sectors × BufferCache :=
  match c.lookup dev chunk with
  | none => (none,c)
  | some i =>
    let tick := c.tick + 1
    (some (c.data i),{ c with tick := tick }.setEntry i { c.entries i with lastAccess := tick })

/-- How good a victim an entry is: free, clean or dirty, then by age. -/
def rank (e : Entry) : Nat × Nat :=
  if !e.valid then (0,0) else if !e.dirty then (1,e.lastAccess) else (2,e.lastAccess)

def rankLt (a b : Nat × Nat) : Bool := a.1 < b.1 || (a.1 == b.1 && a.2 < b.2)

def pickLoop (c : BufferCache) (dev chunk : Nat) : List Nat → Nat → Nat × Nat → Nat
  | [], victim, _ => victim
  | i :: is, victim, best =>
    if (c.entries i).isFor dev chunk then i
    else if rankLt (rank (c.entries i)) best then pickLoop c dev chunk is i (rank (c.entries i))
    else pickLoop c dev chunk is victim best

def pickSlot (c : BufferCache) (dev chunk : Nat) : Nat :=
  pickLoop c dev chunk (home dev chunk) (setBase dev chunk) (2,u64Max)

def fillSlot (c : BufferCache) (slot dev chunk : Nat) (data : Sectors) (dirty : Bool) :
    BufferCache :=
  let tick := c.tick + 1
  { c with tick := tick, data := update c.data slot data }.setEntry slot
    ⟨dev,chunk,true,dirty,tick⟩

def takeIfDirtyForeign (c : BufferCache) (slot dev chunk : Nat) : Option Victim :=
  let e := c.entries slot
  if e.valid && e.dirty && !(e.dev == dev && e.chunk == chunk) then
    some ⟨e.dev,e.chunk,c.data slot⟩
  else none

/-- A resident dirty chunk is newer than the data offered and stays. -/
def insert (c : BufferCache) (dev chunk : Nat) (data : Sectors) : Option Victim × BufferCache :=
  let slot := c.pickSlot dev chunk
  let e := c.entries slot
  if e.isFor dev chunk && e.dirty then (none,c)
  else (c.takeIfDirtyForeign slot dev chunk,c.fillSlot slot dev chunk data false)

def insertDirty (c : BufferCache) (dev chunk : Nat) (data : Sectors) :
    Option Victim × BufferCache :=
  let slot := c.pickSlot dev chunk
  (c.takeIfDirtyForeign slot dev chunk,c.fillSlot slot dev chunk data true)

/-- `false` when the chunk is not resident. -/
def mergeDirty (c : BufferCache) (dev chunk sectorInChunk : Nat) (buf : Buf) :
    Bool × BufferCache :=
  match c.lookup dev chunk with
  | none => (false,c)
  | some i =>
    let tick := c.tick + 1
    (true,{ c with
      tick := tick
      data := update c.data i (blit (c.data i) sectorInChunk buf.data 0 buf.len) }.setEntry i
        { c.entries i with lastAccess := tick, dirty := true })

def findDirty (c : BufferCache) (dev chunk : Nat) : Option Nat :=
  (home dev chunk).find? (fun i => (c.entries i).isFor dev chunk && (c.entries i).dirty)

/-- The lowest dirty chunk of `dev` from `after` on, with its slot. -/
@[irreducible]
def lowestDirty (c : BufferCache) (dev after : Nat) : Option (Nat × Nat) :=
  (List.range slots).foldl (fun best i =>
    let e := c.entries i
    if e.valid && e.dirty && e.dev == dev && after ≤ e.chunk &&
        (best.map (fun b => decide (e.chunk < b.2))).getD true
    then some (i,e.chunk) else best) none

def markClean (c : BufferCache) (slot : Nat) : BufferCache :=
  c.setEntry slot { c.entries slot with dirty := false }

/-- Extend a run of `n` chunks from `first` on by up to `fuel` more. -/
def popMore (c : BufferCache) (dev first n : Nat) (out : Sectors) :
    Nat → Nat × Sectors × BufferCache
  | 0 => (n,out,c)
  | fuel + 1 => match c.findDirty dev (first + n) with
    | none => (n,out,c)
    | some slot => popMore (c.markClean slot) dev first (n + 1)
        (blit out (n * chunkSectors) (c.data slot) 0 chunkSectors) fuel

/-- An ascending run of dirty chunks, marked clean: where it starts, its length
and its data back to back. -/
def popDirtyRun (c : BufferCache) (dev after max : Nat) :
    Option (Nat × Nat × Sectors) × BufferCache :=
  match c.lowestDirty dev after with
  | none => (none,c)
  | some (slot,first) =>
    let (n,out,c') := (c.markClean slot).popMore dev first 1
      (blit zeros 0 (c.data slot) 0 chunkSectors) (max - 1)
    (some (first,n,out),c')

@[irreducible]
def dirtyCount (c : BufferCache) : Nat :=
  (List.range slots).countP (fun i => (c.entries i).valid && (c.entries i).dirty)

def dropChunk (c : BufferCache) (dev chunk : Nat) (drop : Entry → Entry) : BufferCache :=
  (home dev chunk).foldl (fun c i =>
    if (c.entries i).isFor dev chunk then c.setEntry i (drop (c.entries i)) else c) c

def dropClean (e : Entry) : Entry := { e with valid := false, dirty := false }

/-- Drop the chunks wholly inside the range. A range with more chunks than the cache has
slots is dropped by one scan. -/
def invalidateCovered (c : BufferCache) (dev lba count : Nat) : BufferCache :=
  let first := (lba + chunkSectors - 1) / chunkSectors
  let lastExcl := (lba + count) / chunkSectors
  if first ≥ lastExcl then c
  else if lastExcl - first ≥ slots then
    { c with entries := fun i =>
        let e := c.entries i
        if e.valid && e.dev == dev && first ≤ e.chunk && e.chunk < lastExcl then dropClean e else e }
  else (List.range' first (lastExcl - first)).foldl (fun c chunk => c.dropChunk dev chunk dropClean) c

/-- The chunks a nonempty range of sectors touches. -/
def chunksOf (lba count : Nat) : List Nat :=
  List.range' (lba / chunkSectors) ((lba + count - 1) / chunkSectors + 1 - lba / chunkSectors)

def invalidateRange (c : BufferCache) (dev lba count : Nat) : BufferCache :=
  (chunksOf lba count).foldl (fun c chunk =>
    c.dropChunk dev chunk (fun e => { e with valid := false })) c

/-- Fold written sectors into one chunk, if it is resident. -/
def updateChunk (c : BufferCache) (dev lba count : Nat) (buf : Sectors) (chunk : Nat) :
    BufferCache :=
  match c.lookup dev chunk with
  | none => c
  | some i =>
    let start := chunk * chunkSectors
    let s := max lba start
    let e := min (lba + count) (start + chunkSectors)
    { c with data := update c.data i (blit (c.data i) (s - start) buf (s - lba) (e - s)) }

def updateOnWrite (c : BufferCache) (dev lba count : Nat) (buf : Sectors) : BufferCache :=
  (chunksOf lba count).foldl (fun c chunk => c.updateChunk dev lba count buf chunk) c

end BufferCache

end Miku.Block
