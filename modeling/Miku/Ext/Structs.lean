import Miku.Ext.Store

namespace Miku.Ext
open Lib

def extMagic : Nat := 0xF30A

def sIfReg : Nat := 8
def sIfLnk : Nat := 10

def extentsFl : Nat := 0x80000
def immutableFl : Nat := 0x10
def appendFl : Nat := 0x20

structure ExtentHeader where
  magic : Nat
  entries : Nat
  max : Nat
  depth : Nat

structure Extent where
  block : Nat
  len : Nat
  startHi : Nat
  startLo : Nat
  deriving DecidableEq, Repr

namespace Extent

def start (e : Extent) : Nat := e.startLo + 4294967296 * e.startHi

/-- Lengths above 32768 stand for unwritten extents. -/
def actualLen (e : Extent) : Nat := if 32768 < e.len then e.len - 32768 else e.len

end Extent

structure ExtentIdx where
  block : Nat
  leafLo : Nat
  leafHi : Nat
  deriving DecidableEq, Repr

def ExtentIdx.leaf (e : ExtentIdx) : Nat := e.leafLo + 4294967296 * e.leafHi

/-- The fields of an inode that the filesystem's logic reads. `words` are the 32-bit
words from byte 40 on: the 15 of `i_block`, then the generation, the attribute block
and the upper half of the size. -/
structure Inode where
  mode : Nat
  sizeLo : Nat
  linksCount : Nat
  blocks : Nat
  flags : Nat
  words : Nat → Nat

namespace Inode

def zeroed : Inode := ⟨0,0,0,0,0,fun _ => 0⟩

def fileType (i : Inode) : Nat := i.mode / 4096 % 16

def isRegular (i : Inode) : Bool := i.fileType == sIfReg
def isSymlink (i : Inode) : Bool := i.fileType == sIfLnk

def isFastSymlink (i : Inode) : Bool := i.isSymlink && i.blocks == 0 && decide (i.sizeLo ≤ 60)

def hasFlag (i : Inode) (fl : Nat) : Bool := i.flags / fl % 2 == 1

def usesExtents (i : Inode) : Bool := i.hasFlag extentsFl

def sizeHi (i : Inode) : Nat := i.words 17

def size (i : Inode) : Nat :=
  if i.isRegular then i.sizeLo + 4294967296 * i.sizeHi else i.sizeLo

def setWord (i : Inode) (k w : Nat) : Inode := { i with words := Function.update i.words k w }

def setSize (i : Inode) (n : Nat) : Inode := { i with sizeLo := n % 4294967296 }

/-- Inodes have at least 128 bytes, so the upper half is always there. -/
def setSizeFull (i : Inode) (n : Nat) : Inode :=
  (i.setSize n).setWord 17 (n / 4294967296 % 4294967296)

def setBlocks (i : Inode) (n : Nat) : Inode := { i with blocks := n % 4294967296 }

def block (i : Inode) (k : Nat) : Nat := if k < 15 then i.words k else 0

def setBlock (i : Inode) (k b : Nat) : Inode := if k < 15 then i.setWord k b else i

def clearBlockPointers (i : Inode) : Inode := (List.range 15).foldl (fun i k => i.setBlock k 0) i

def extentHeader (i : Inode) : ExtentHeader where
  magic := i.words 0 % 65536
  entries := i.words 0 / 65536
  max := i.words 1 % 65536
  depth := i.words 1 / 65536

def extentAt (i : Inode) (k : Nat) : Extent where
  block := i.words (3 + 3 * k)
  len := i.words (4 + 3 * k) % 65536
  startHi := i.words (4 + 3 * k) / 65536
  startLo := i.words (5 + 3 * k)

def extentIdxAt (i : Inode) (k : Nat) : ExtentIdx where
  block := i.words (3 + 3 * k)
  leafLo := i.words (4 + 3 * k)
  leafHi := i.words (5 + 3 * k) % 65536

def setExtentEntries (i : Inode) (n : Nat) : Inode :=
  i.setWord 0 (i.words 0 % 65536 + 65536 * (n % 65536))

def setExtentDepth (i : Inode) (d : Nat) : Inode :=
  i.setWord 1 (i.words 1 % 65536 + 65536 * (d % 65536))

/-- Three words of an entry. There is room for four of them. -/
def setEntry (i : Inode) (k a b c : Nat) : Inode :=
  if k < 4 then ((i.setWord (3 + 3 * k) a).setWord (4 + 3 * k) b).setWord (5 + 3 * k) c else i

def setExtentAtRaw (i : Inode) (k : Nat) (e : Extent) : Inode :=
  i.setEntry k e.block (e.len + 65536 * e.startHi) e.startLo

def setExtentIdxAtRaw (i : Inode) (k : Nat) (e : ExtentIdx) : Inode :=
  i.setEntry k e.block e.leafLo e.leafHi

def setExtentLenAt (i : Inode) (k len : Nat) : Inode :=
  if k < 4 then i.setWord (4 + 3 * k) (len + 65536 * (i.words (4 + 3 * k) / 65536)) else i

def initExtentHeader (i : Inode) (max : Nat) : Inode :=
  let i := ((i.setWord 0 extMagic).setWord 1 max).setWord 2 0
  { i with flags := if i.usesExtents then i.flags else i.flags + extentsFl }

def extents (i : Inode) : List Extent := (List.range i.extentHeader.entries).map i.extentAt

def indices (i : Inode) : List ExtentIdx := (List.range i.extentHeader.entries).map i.extentIdxAt

def initFile (mode : Nat) : Inode :=
  { zeroed with mode := sIfReg * 4096 ||| mode, linksCount := 1 }

def initFileExt4 (mode : Nat) : Inode := (initFile mode).initExtentHeader 4

end Inode

def blockHeader (b : Bytes) : ExtentHeader := ⟨le16 b 0,le16 b 2,le16 b 4,le16 b 6⟩

def extentIn (b : Bytes) (k : Nat) : Extent :=
  let base := 12 + 12 * k
  ⟨le32 b base,le16 b (base + 4),le16 b (base + 6),le32 b (base + 8)⟩

def idxIn (b : Bytes) (k : Nat) : ExtentIdx :=
  let base := 12 + 12 * k
  ⟨le32 b base,le32 b (base + 4),le16 b (base + 8)⟩

def extentsIn (b : Bytes) : List Extent := (List.range (blockHeader b).entries).map (extentIn b)

def indicesIn (b : Bytes) : List ExtentIdx := (List.range (blockHeader b).entries).map (idxIn b)

open Function

/-- A block group: its bitmaps, bit by bit, the free counts of its descriptor and
where the next search for a block starts. -/
structure Group where
  blockUsed : Nat → Bool
  inodeUsed : Nat → Bool
  freeBlocks : Nat
  freeInodes : Nat
  allocHint : Nat

/-- A mounted volume. `blocks` is what reading a block gives, the cache included;
the bitmaps and the inode table are taken out of it. -/
structure Volume where
  blockSize : Nat
  blocksCount : Nat
  firstDataBlock : Nat
  blocksPerGroup : Nat
  inodesPerGroup : Nat
  groupCount : Nat
  hasDirIndex : Bool
  hasExtents : Bool
  freeBlocksCount : Nat
  freeInodesCount : Nat
  groups : Nat → Group
  inodes : Nat → Inode
  blocks : Nat → Bytes

abbrev FsM := EStateM FsError Volume

namespace Volume

def isValidBlock (v : Volume) (b : Nat) : Bool :=
  b != 0 && (v.blocksCount == 0 || b < v.blocksCount)

def readBlock (v : Volume) (b : Nat) : Except FsError Bytes :=
  if v.isValidBlock b then .ok (v.blocks b) else .error .invalidInode

def setBlock (v : Volume) (b : Nat) (d : Bytes) : Volume :=
  { v with blocks := update v.blocks b d }

def setGroup (v : Volume) (g : Nat) (x : Group) : Volume :=
  { v with groups := update v.groups g x }

def setInode (v : Volume) (n : Nat) (i : Inode) : Volume :=
  { v with inodes := update v.inodes n i }

def groupOf (v : Volume) (ino : Nat) : Nat := (ino - 1) / v.inodesPerGroup

def readInode (v : Volume) (ino : Nat) : Except FsError Inode :=
  if ino = 0 ∨ v.groupCount ≤ v.groupOf ino then .error .invalidInode else .ok (v.inodes ino)

/-- The first clear bit among `n` bits from `from_` on. -/
def firstClear (used : Nat → Bool) (from_ n : Nat) : Option Nat :=
  (List.range' from_ n).find? fun k => !used k

/-- The search for a block in a group: from the byte of the hint to the end of the
bitmap, then from its start. -/
def findInGroup (v : Volume) (g : Nat) : Option Nat :=
  let x := v.groups g
  let bits := min v.blocksPerGroup (8 * v.blockSize)
  let start := min x.allocHint v.blocksPerGroup / 8 * 8
  (firstClear x.blockUsed start (bits - start)).or (firstClear x.blockUsed 0 (min start bits))

def findBlock (v : Volume) (preferred : Nat) : Option (Nat × Nat) :=
  (List.range v.groupCount).findSome? fun offset =>
    let g := (preferred + offset) % v.groupCount
    if 32 ≤ g ∨ (v.groups g).freeBlocks = 0 then none else (v.findInGroup g).map fun k => (g,k)

def takeBlock (v : Volume) (g k : Nat) : Volume :=
  let x := v.groups g
  { v.setGroup g { x with
      blockUsed := update x.blockUsed k true
      allocHint := k + 1
      freeBlocks := x.freeBlocks - 1 } with
    freeBlocksCount := v.freeBlocksCount - 1 }

def dropBlock (v : Volume) (g k : Nat) : Volume :=
  let x := v.groups g
  { v.setGroup g { x with
      blockUsed := update x.blockUsed k false
      allocHint := min k x.allocHint
      freeBlocks := (x.freeBlocks + 1) % 65536 } with
    freeBlocksCount := (v.freeBlocksCount + 1) % 4294967296 }

end Volume

open Volume

def readBlockInto (b : Nat) : FsM Bytes := fun v =>
  match v.readBlock b with
  | .ok d => .ok d v
  | .error e => .error e v

def writeBlockData (b : Nat) (d : Bytes) : FsM Unit := modify fun v => v.setBlock b d

def zeroBlock (b : Nat) : FsM Unit := writeBlockData b zeroBytes

def readInode (ino : Nat) : FsM Inode := fun v =>
  match v.readInode ino with
  | .ok i => .ok i v
  | .error e => .error e v

def writeInode (ino : Nat) (i : Inode) : FsM Unit := fun v =>
  if ino = 0 ∨ v.groupCount ≤ v.groupOf ino then .error .invalidInode v else .ok () (v.setInode ino i)

def allocBlock (preferred : Nat) : FsM Nat := fun v =>
  match v.findBlock preferred with
  | none => .error .noSpace v
  | some (g,k) => .ok (g * v.blocksPerGroup + k + v.firstDataBlock) (v.takeBlock g k)

def freeBlock (b : Nat) : FsM Unit := fun v =>
  if b < v.firstDataBlock then .error .invalidBlock v
  else
    let g := (b - v.firstDataBlock) / v.blocksPerGroup
    if v.groupCount ≤ g ∨ 32 ≤ g then .error .invalidBlock v
    else .ok () (v.dropBlock g ((b - v.firstDataBlock) % v.blocksPerGroup))

end Miku.Ext
