import Miku.Lib.Bytes

namespace Miku.Fs.Gpt
open Lib

def signature : UInt64 := 0x5452415020494645
def revision : UInt32 := 0x00010000
def headerSize : Nat := 92
def entrySize : Nat := 128
def maxEntries : Nat := 128
def entriesLba : Nat := 2
def headerLba : Nat := 1
def firstUsable : UInt64 := 34

abbrev Guid := Vector UInt8 16

def guidEmpty : Guid := Vector.replicate 16 0

structure GptHeader where
  signature : UInt64
  revision : UInt32
  headerSize : UInt32
  headerCrc32 : UInt32
  myLba : UInt64
  alternateLba : UInt64
  firstUsableLba : UInt64
  lastUsableLba : UInt64
  diskGuid : Guid
  partitionEntryLba : UInt64
  numPartitionEntries : UInt32
  sizeOfPartitionEntry : UInt32
  partitionEntryArrayCrc32 : UInt32

structure GptEntry where
  typeGuid : Guid
  uniqueGuid : Guid
  startLba : UInt64
  endLba : UInt64
  attributes : UInt64
  name : Vector UInt16 36

namespace GptEntry

def empty : GptEntry := ⟨guidEmpty,guidEmpty,0,0,0,Vector.replicate 36 0⟩

def isUsed (e : GptEntry) : Bool := e.typeGuid != guidEmpty

/-- At most 35 characters, each cut to 16 bits. -/
def nameOf (s : List Char) : Vector UInt16 36 :=
  Vector.ofFn fun i => (((s.take 35)[i.val]?).map fun c => UInt16.ofNat c.toNat).getD 0

end GptEntry

/-- Only the first 128 entries are looked at. -/
structure GptTable where
  header : GptHeader
  entries : Nat → GptEntry
  totalSectors : UInt64

namespace GptTable

def firstFreeSlot (t : GptTable) : Option Nat :=
  (List.range maxEntries).find? fun i => !(t.entries i).isUsed

def nextFreeLba (t : GptTable) : UInt64 :=
  (List.range maxEntries).foldl
    (fun m i =>
      if (t.entries i).isUsed ∧ m ≤ (t.entries i).endLba then (t.entries i).endLba + 1 else m)
    firstUsable

def setEntry (t : GptTable) (i : Nat) (e : GptEntry) : GptTable :=
  { t with entries := Function.update t.entries i e }

def lastUsableLba (t : GptTable) : UInt64 := t.totalSectors - 34

end GptTable

def crcTable (i : UInt32) : UInt32 :=
  (List.range 8).foldl (fun c _ => if c &&& 1 ≠ 0 then (0xEDB88320 : UInt32) ^^^ (c >>> 1) else c >>> 1) i

def crcBytes (crc : UInt32) (bs : List UInt8) : UInt32 :=
  bs.foldl (fun crc b => crcTable ((crc ^^^ b.toUInt32) &&& 0xFF) ^^^ (crc >>> 8)) crc

def crc32 (bs : List UInt8) : UInt32 := ~~~ crcBytes 0xFFFFFFFF bs

def guidPseudo (seed : UInt32) : Guid :=
  let a := seed * 0x9E3779B9 + 0x6C62272E
  let b := a * 0x85EBCA77 + 0xC2B2AE3D
  let g : Vector UInt8 16 := Vector.ofFn fun i =>
    ((le32Bytes a.toNat ++ le32Bytes b.toNat ++ le32Bytes (a + b).toNat ++
      le32Bytes (b - a).toNat)[i.val]?).getD 0
  (g.set 6 ((g[6] &&& 0x0F) ||| 0x40)).set 8 ((g[8] &&& 0x3F) ||| 0x80)

abbrev Disk := Nat → Bytes

/-- The first bytes of a sector; the others are 0. -/
def sector (bs : List UInt8) : Bytes := put zeroBytes 0 bs

def headerBytes (h : GptHeader) : List UInt8 :=
  le64Bytes h.signature.toNat ++ (le32Bytes h.revision.toNat ++ (le32Bytes h.headerSize.toNat ++
    (le32Bytes h.headerCrc32.toNat ++ (le32Bytes 0 ++ (le64Bytes h.myLba.toNat ++
    (le64Bytes h.alternateLba.toNat ++ (le64Bytes h.firstUsableLba.toNat ++
    (le64Bytes h.lastUsableLba.toNat ++ (h.diskGuid.toList ++
    (le64Bytes h.partitionEntryLba.toNat ++ (le32Bytes h.numPartitionEntries.toNat ++
    (le32Bytes h.sizeOfPartitionEntry.toNat ++
    le32Bytes h.partitionEntryArrayCrc32.toNat))))))))))))

def headerToBuf (h : GptHeader) : Bytes := sector (headerBytes h)

def entryToBytes (e : GptEntry) : List UInt8 :=
  e.typeGuid.toList ++ (e.uniqueGuid.toList ++ (le64Bytes e.startLba.toNat ++
    (le64Bytes e.endLba.toNat ++ (le64Bytes e.attributes.toNat ++
    e.name.toList.flatMap fun c => le16Bytes c.toNat))))

/-- The entry in the bytes of `b` from `o` on. -/
def bytesToEntry (b : Bytes) (o : Nat) : GptEntry where
  typeGuid := Vector.ofFn fun i => b (o + i)
  uniqueGuid := Vector.ofFn fun i => b (o + 16 + i)
  startLba := UInt64.ofNat (le64 b (o + 32))
  endLba := UInt64.ofNat (le64 b (o + 40))
  attributes := UInt64.ofNat (le64 b (o + 48))
  name := Vector.ofFn fun i => UInt16.ofNat (le16 b (o + 56 + 2 * i))

def entriesCrc (es : Nat → GptEntry) : UInt32 :=
  crc32 ((List.range maxEntries).flatMap fun i => entryToBytes (es i))

def headerCrc (h : GptHeader) : UInt32 :=
  crc32 (headerBytes { h with headerCrc32 := 0 })

def GptHeader.sealed (h : GptHeader) : GptHeader := { h with headerCrc32 := headerCrc h }

/-- Four entries of a sector. -/
def entrySector (es : Nat → GptEntry) (chunk : Nat) : Bytes :=
  sector ((List.range 4).flatMap fun j => entryToBytes (es (chunk * 4 + j)))

def protectiveMbr (total : UInt64) : Bytes :=
  let size := min (total.toNat - 1) 4294967295
  put (sector (List.replicate 446 0 ++ [0x00,0x00,0x02,0x00,0xEE,0xFF,0xFF,0xFF] ++ le32Bytes 1 ++
    le32Bytes size)) 510 [0x55,0xAA]

def writeEntries (es : Nat → GptEntry) (base : Nat) : List (Nat × Bytes) :=
  (List.range 32).map fun chunk => (base + chunk,entrySector es chunk)

/-- The header with the checksum of the entries. -/
def GptTable.stamped (t : GptTable) : GptTable :=
  { t with header := { t.header with partitionEntryArrayCrc32 := entriesCrc t.entries }.sealed }

/-- The writes of a stamped table. -/
def writeFullTable (t : GptTable) : List (Nat × Bytes) :=
  let backup := GptHeader.sealed { t.header with
    myLba := t.totalSectors - 1
    alternateLba := UInt64.ofNat headerLba
    partitionEntryLba := t.totalSectors - 33 }
  (headerLba,headerToBuf t.header) :: writeEntries t.entries entriesLba ++
    ((t.totalSectors - 1).toNat,headerToBuf backup) ::
      writeEntries t.entries (t.totalSectors - 33).toNat

def initTable (total : UInt64) : GptTable where
  header :=
    { signature := signature
      revision := revision
      headerSize := UInt32.ofNat headerSize
      headerCrc32 := 0
      myLba := UInt64.ofNat headerLba
      alternateLba := total - 1
      firstUsableLba := firstUsable
      lastUsableLba := total - 34
      diskGuid := guidPseudo (total.toUInt32 ^^^ 0xDEADBEEF)
      partitionEntryLba := UInt64.ofNat entriesLba
      numPartitionEntries := UInt32.ofNat maxEntries
      sizeOfPartitionEntry := UInt32.ofNat entrySize
      partitionEntryArrayCrc32 := 0 }
  entries := fun _ => GptEntry.empty
  totalSectors := total

inductive GptReadError
  | io
  | notGpt
  | invalidFormat

inductive GptWriteError
  | readFailed
  | noFreeSlot
  | notEnoughSpace
  | invalidIndex
  | io

def readHeader (b : Bytes) : GptHeader where
  signature := UInt64.ofNat (le64 b 0)
  revision := UInt32.ofNat (le32 b 8)
  headerSize := UInt32.ofNat (le32 b 12)
  headerCrc32 := UInt32.ofNat (le32 b 16)
  myLba := UInt64.ofNat (le64 b 24)
  alternateLba := UInt64.ofNat (le64 b 32)
  firstUsableLba := UInt64.ofNat (le64 b 40)
  lastUsableLba := UInt64.ofNat (le64 b 48)
  diskGuid := Vector.ofFn fun i => b (56 + i)
  partitionEntryLba := UInt64.ofNat (le64 b 72)
  numPartitionEntries := UInt32.ofNat (le32 b 80)
  sizeOfPartitionEntry := UInt32.ofNat (le32 b 84)
  partitionEntryArrayCrc32 := UInt32.ofNat (le32 b 88)

def readEntries (d : Disk) (i : Nat) : GptEntry :=
  bytesToEntry (d (entriesLba + i / 4)) (i % 4 * entrySize)

def gptRead (d : Disk) : Except GptReadError GptTable :=
  let h := readHeader (d headerLba)
  if h.signature ≠ signature then .error .notGpt
  else if h.sizeOfPartitionEntry.toNat ≠ entrySize ∨ maxEntries < h.numPartitionEntries.toNat then
    .error .invalidFormat
  else if h.alternateLba.toNat + 1 = 18446744073709551616 then .error .invalidFormat
  else .ok ⟨h,readEntries d,h.alternateLba + 1⟩

/-- What the device does during a call: whether the reads succeed and how many writes are
done before one fails. -/
structure Io where
  reads : Bool
  writes : Nat

def applyWrites (d : Disk) (ws : List (Nat × Bytes)) : Disk :=
  ws.foldl (fun d w => Function.update d w.1 w.2) d

/-- The writes up to the one that fails. -/
def commit (io : Io) (ws : List (Nat × Bytes)) (d : Disk) : Except GptWriteError Unit × Disk :=
  (if ws.length ≤ io.writes then .ok () else .error .io,applyWrites d (ws.take io.writes))

def gptInit (total : UInt64) (io : Io) (d : Disk) : Except GptWriteError Unit × Disk :=
  commit io ((0,protectiveMbr total) :: writeFullTable (initTable total).stamped) d

def newEntry (t : GptTable) (typeGuid : Guid) (size : UInt64) (name : List Char) (seed : UInt32) :
    Except GptWriteError (Nat × GptEntry) :=
  match t.firstFreeSlot with
  | none => .error .noFreeSlot
  | some slot =>
    let start := t.nextFreeLba
    if size = 0 then .error .notEnoughSpace
    else if 18446744073709551616 ≤ start.toNat + size.toNat then .error .notEnoughSpace
    else
      let end_ := start + size - 1
      if t.lastUsableLba < end_ then .error .notEnoughSpace
      else .ok (slot,⟨typeGuid,guidPseudo (seed ^^^ start.toUInt32),start,end_,0,
        GptEntry.nameOf name⟩)

def gptAddPartition (typeGuid : Guid) (size : UInt64) (name : List Char) (seed : UInt32) (io : Io)
    (d : Disk) : Except GptWriteError Nat × Disk :=
  match (if io.reads then gptRead d else .error .io) with
  | .error _ => (.error .readFailed,d)
  | .ok t =>
    match newEntry t typeGuid size name seed with
    | .error e => (.error e,d)
    | .ok (slot,e) =>
      let r := commit io (writeFullTable (t.setEntry slot e).stamped) d
      (r.1.map fun _ => slot,r.2)

def gptDelPartition (index : Nat) (io : Io) (d : Disk) : Except GptWriteError Unit × Disk :=
  if maxEntries ≤ index then (.error .invalidIndex,d)
  else
    match (if io.reads then gptRead d else .error .io) with
    | .error _ => (.error .readFailed,d)
    | .ok t =>
      if !(t.entries index).isUsed then (.error .invalidIndex,d)
      else commit io (writeFullTable (t.setEntry index GptEntry.empty).stamped) d

inductive Call
  | init
  | add (typeGuid : Guid) (size : UInt64) (name : List Char) (seed : UInt32)
  | del (index : Nat)

/-- The disk after a call on a disk of `total` sectors. -/
def step (total : UInt64) (d : Disk) (c : Call × Io) : Disk :=
  match c.1 with
  | .init => (gptInit total c.2 d).2
  | .add g size name seed => (gptAddPartition g size name seed c.2 d).2
  | .del index => (gptDelPartition index c.2 d).2

end Miku.Fs.Gpt
