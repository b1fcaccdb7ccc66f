import Mathlib.Algebra.Ring.Nat
import Miku.Ext.Extents
import Miku.Lib.Wp

namespace Miku.Ext
open Lib

/-- The pointer of the inode that a logical block hangs off and the entries to follow
from there, with `n` pointers to a block. -/
def blockPath (n l : Nat) : Option (Nat × List Nat) :=
  if l < 12 then some (l,[])
  else
    let a := l - 12
    if a < n then some (12,[a])
    else
      let a := a - n
      if a < n * n then some (13,[a / n,a % n])
      else
        let a := a - n * n
        if a < n * n * n then some (14,[a / (n * n),a % (n * n) / n,a % (n * n) % n])
        else none

namespace Volume

def ptrsPerBlock (v : Volume) : Nat := v.blockSize / 4

def readIndirectEntry (v : Volume) (b k : Nat) : Except FsError Nat :=
  if v.ptrsPerBlock ≤ k then .error .invalidBlock
  else
    match v.readBlock b with
    | .ok d => .ok (le32 d (4 * k))
    | .error e => .error e

/-- The block at the end of a path, or 0 where it breaks off. -/
def followPath (v : Volume) : List Nat → Nat → Except FsError Nat
  | [], b => .ok b
  | k :: ks, b =>
    if b = 0 then .ok 0
    else
      match v.readIndirectEntry b k with
      | .ok c => v.followPath ks c
      | .error e => .error e

def getFileBlock (v : Volume) (i : Inode) (l : Nat) : Except FsError Nat :=
  if i.usesExtents then v.getFileBlockExtent i l
  else
    match blockPath v.ptrsPerBlock l with
    | some (s,ks) => v.followPath ks (i.block s)
    | none => .error .fileTooLarge

end Volume

def writeIndirectEntry (b k c : Nat) : FsM Unit := fun v =>
  if v.ptrsPerBlock ≤ k then .error .invalidBlock v
  else
    match v.readBlock b with
    | .ok d => .ok () (v.setBlock b (put d (4 * k) (le32Bytes c)))
    | .error e => .error e v

def allocZeroed (group : Nat) : FsM Nat := do
  let b ← allocBlock group
  zeroBlock b
  pure b

/-- The block at the end of a path from block `b`, with the missing ones allocated. -/
def ensurePath (group : Nat) : List Nat → Nat → Inode → FsM (Nat × Inode)
  | [], b, i => pure (b,i)
  | k :: ks, b, i => do
    let c ← reads (·.readIndirectEntry b k)
    if c ≠ 0 then ensurePath group ks c i
    else do
      let c ← allocZeroed group
      writeIndirectEntry b k c
      let v ← get
      ensurePath group ks c (addBlocks v i)

/-- The inode is the caller's copy: it is lost if the call fails, the blocks are not. -/
def ensureBlock (i : Inode) (ino l : Nat) : FsM (Nat × Inode) := do
  let v ← get
  match blockPath v.ptrsPerBlock l with
  | none => throw .fileTooLarge
  | some (s,ks) =>
    if i.block s ≠ 0 then ensurePath (v.groupOf ino) ks (i.block s) i
    else do
      let b ← allocZeroed (v.groupOf ino)
      ensurePath (v.groupOf ino) ks b (addBlocks v (i.setBlock s b))

/-- A block for `l` that the extents do not map yet. -/
def insertNewBlock (i : Inode) (ino l : Nat) : FsM (Nat × Inode) := do
  let v ← get
  let b ← allocZeroed (v.groupOf ino)
  fun v =>
    match ext4InsertExtent i ino l b v with
    | .ok i v => .ok (b,addBlocks v i) v
    | .error e v => .error e (final (freeBlock b) v)

def ext4EnsureBlock (i : Inode) (ino l : Nat) : FsM (Nat × Inode) :=
  if i.usesExtents then do
    let i := if i.extentHeader.magic = extMagic then i else i.initExtentHeader 4
    let b ← reads (·.getFileBlockExtent i l)
    if b ≠ 0 then pure (b,i) else insertNewBlock i ino l
  else ensureBlock i ino l

/-- A byte of the area that starts with `i_block`. -/
def Inode.wordByte (i : Inode) (k : Nat) : UInt8 := UInt8.ofNat (i.words (k / 4) / 256 ^ (k % 4))

def Inode.fastSymlinkTarget (i : Inode) : List UInt8 := (List.range (min i.sizeLo 60)).map i.wordByte

namespace Volume

/-- `n` bytes from `off` on in a block of a file; a missing block is zero. -/
def readPiece (v : Volume) (p off n : Nat) : Except FsError (List UInt8) :=
  if p = 0 then .ok (List.replicate n 0)
  else
    match v.readBlock p with
    | .ok d => .ok ((List.range n).map fun k => d (off + k))
    | .error e => .error e

def readChunks (v : Volume) (i : Inode) (off toRead : Nat) : Nat → Nat → Except FsError (List UInt8)
  | 0, _ => .ok []
  | fuel + 1, done =>
    if toRead ≤ done then .ok []
    else
      let cur := off + done
      let blockOff := cur % v.blockSize
      let chunk := min (v.blockSize - blockOff) (toRead - done)
      match v.getFileBlock i (cur / v.blockSize % 4294967296) with
      | .error e => .error e
      | .ok p =>
        match v.readPiece p blockOff chunk with
        | .error e => .error e
        | .ok d =>
          match v.readChunks i off toRead fuel (done + chunk) with
          | .error e => .error e
          | .ok rest => .ok (d ++ rest)

/-- What is read into a buffer of `len` bytes. -/
def readFile (v : Volume) (i : Inode) (off len : Nat) : Except FsError (List UInt8) :=
  if !i.isRegular && !i.isSymlink then .error .notRegularFile
  else if i.isFastSymlink then .ok ((i.fastSymlinkTarget.drop off).take len)
  else if i.size ≤ off then .ok []
  else
    let toRead := min len (i.size - off)
    v.readChunks i off toRead toRead 0

end Volume

/-- One block of a write. A whole block is not read before. -/
def writePiece (p blockOff : Nat) (data : List UInt8) : FsM Unit := fun v =>
  if data.length = v.blockSize ∧ blockOff = 0 then .ok () (v.setBlock p (put zeroBytes 0 data))
  else
    match v.readBlock p with
    | .ok d => .ok () (v.setBlock p (put d blockOff data))
    | .error e => .error e v

def writeChunks (ensure : Inode → Nat → FsM (Nat × Inode)) (data : List UInt8) (off : Nat) :
    Nat → Nat → Inode → FsM Inode
  | 0, _, i => pure i
  | fuel + 1, done, i =>
    if data.length ≤ done then pure i
    else do
      let v ← get
      let cur := off + done
      let blockOff := cur % v.blockSize
      let chunk := min (v.blockSize - blockOff) (data.length - done)
      let (p,i) ← ensure i (cur / v.blockSize % 4294967296)
      writePiece p blockOff ((data.drop done).take chunk)
      writeChunks ensure data off fuel (done + chunk) i

/-- Both writes, with the way to a block and to a new size. -/
def writeFileWith (ensure : Nat → Inode → Nat → FsM (Nat × Inode)) (setEnd : Inode → Nat → Inode)
    (ino : Nat) (data : List UInt8) (off : Nat) : FsM Nat := do
  let i ← readInode ino
  check i.isRegular .notRegularFile
  check (!i.hasFlag immutableFl) .readOnlyFs
  check (!(i.hasFlag appendFl && decide (off < i.size))) .readOnlyFs
  let i ← writeChunks (ensure ino) data off data.length 0 i
  let newEnd := off + data.length
  writeInode ino (if i.size < newEnd then setEnd i newEnd else i)
  pure data.length

def ext2WriteFile : Nat → List UInt8 → Nat → FsM Nat :=
  writeFileWith (fun ino i l => ensureBlock i ino l) Inode.setSize

def ext4WriteFile : Nat → List UInt8 → Nat → FsM Nat :=
  writeFileWith (fun ino i l => ext4EnsureBlock i ino l) Inode.setSizeFull

/-- A pointer to a block that can be freed. -/
def Volume.isDataBlock (v : Volume) (b : Nat) : Bool :=
  b != 0 && decide (v.firstDataBlock ≤ b) && decide (b < v.blocksCount)

/-- A block of `depth` levels of pointers and all that it points to. -/
def freeIndirectChain : Nat → Nat → FsM Unit
  | 0, b => freeBlock b
  | depth + 1, b => do
    let v ← get
    (List.range v.ptrsPerBlock).forM fun k => do
      let c ← reads (·.readIndirectEntry b k)
      if v.isDataBlock c then freeIndirectChain depth c else pure ()
    freeBlock b

/-- The levels of pointers behind each pointer of the inode. -/
def slotDepth (s : Nat) : Nat := s - 11

def freeAllBlocks (i : Inode) : FsM Unit :=
  if (i.isSymlink && i.isFastSymlink) || i.blocks == 0 then pure ()
  else do
    let v ← get
    (List.range 15).forM fun s =>
      if v.isDataBlock (i.block s) then freeIndirectChain (slotDepth s) (i.block s) else pure ()

def ext2Truncate (ino : Nat) : FsM Unit := do
  let i ← readInode ino
  freeAllBlocks i
  writeInode ino ((i.clearBlockPointers.setSize 0).setBlocks 0)

/-- `let _ = …`: an error is dropped. -/
def ignoring {α : Type} (x : FsM α) : FsM Unit := fun v => .ok () (final x v)

def freeExtent (e : Extent) : FsM Unit :=
  (List.range e.actualLen).forM fun k => ignoring (freeBlock ((e.start + k) % 4294967296))

/-- The blocks behind a node of the extent tree. Only the lower halves of block numbers
are looked at. -/
def ext4FreeExtentTreeBlock : Nat → Nat → FsM Unit
  | 0, b => do
    let buf ← readBlockInto b
    (extentsIn buf).forM fun e => freeExtent { e with startHi := 0 }
  | depth + 1, b => do
    let buf ← readBlockInto b
    (indicesIn buf).forM fun e =>
      if e.leafLo = 0 then pure ()
      else do
        ext4FreeExtentTreeBlock depth e.leafLo
        ignoring (freeBlock e.leafLo)

def ext4FreeExtentBlocks (i : Inode) : FsM Unit :=
  if i.extentHeader.magic ≠ extMagic then pure ()
  else
    match i.extentHeader.depth with
    | 0 => i.extents.forM freeExtent
    | depth + 1 => i.indices.forM fun e =>
      if e.leaf % 4294967296 = 0 then pure ()
      else do
        ext4FreeExtentTreeBlock depth (e.leaf % 4294967296)
        ignoring (freeBlock (e.leaf % 4294967296))

def ext4Truncate (ino : Nat) : FsM Unit := do
  let i ← readInode ino
  if i.usesExtents then do
    ext4FreeExtentBlocks i
    writeInode ino (((i.clearBlockPointers.initExtentHeader 4).setSize 0).setBlocks 0)
  else do
    freeAllBlocks i
    writeInode ino ((i.clearBlockPointers.setSize 0).setBlocks 0)

def ext3Truncate (ino : Nat) : FsM Unit := do
  let i ← readInode ino
  if i.usesExtents then ext4Truncate ino else ext2Truncate ino

def ext3WriteFile (ino : Nat) (data : List UInt8) (off : Nat) : FsM Nat := do
  let i ← readInode ino
  let v ← get
  if i.usesExtents || v.hasExtents then ext4WriteFile ino data off else ext2WriteFile ino data off

/-- The end of a range, as `u64` has it. -/
def rangeEnd (offset len : Nat) : Nat := (offset + len) % 18446744073709551616

/-- The logical blocks that a range touches. -/
def Volume.blocksOver (v : Volume) (offset len : Nat) : List Nat :=
  let start := offset / v.blockSize % 4294967296
  let end_ := rangeEnd (offset + len) (v.blockSize - 1) / v.blockSize % 4294967296
  List.range' start (end_ - start)

/-- The size after preallocation. -/
def growTo (ino : Nat) (i : Inode) (newEnd : Nat) : FsM Unit :=
  writeInode ino (if i.size < newEnd then i.setSizeFull newEnd else i)

/-- What the insertion did to the caller's copy of the inode is forgotten at each block. -/
def ext4Fallocate (ino offset len : Nat) : FsM Unit := do
  let i ← readInode ino
  check i.isRegular .notRegularFile
  let v ← get
  let i ← (v.blocksOver offset len).foldlM (fun i l => do
    let _ ← ext4EnsureBlock i ino l
    readInode ino) i
  growTo ino i (rangeEnd offset len)

def ext2Fallocate (ino offset len : Nat) : FsM Unit := do
  let i ← readInode ino
  check i.isRegular .notRegularFile
  let v ← get
  let i ← (v.blocksOver offset len).foldlM (fun i l => do
    let b ← reads (·.getFileBlock i l)
    if b ≠ 0 then pure i
    else do
      let _ ← ensureBlock i ino l
      readInode ino) i
  growTo ino i (rangeEnd offset len)

/-- The logical blocks that a range holds as a whole. -/
def Volume.blocksInside (v : Volume) (offset len : Nat) : List Nat :=
  let start := rangeEnd offset (v.blockSize - 1) / v.blockSize % 4294967296
  let end_ := rangeEnd offset len / v.blockSize % 4294967296
  List.range' start (end_ - start)

/-- The pointer to a block is cleared, if the way to it is there. `i` is the inode as the
call found it. -/
def clearPointer (i : Inode) (ino l : Nat) : FsM Bool := do
  let v ← get
  match blockPath v.ptrsPerBlock l with
  | some (s,[]) => do
    let im ← readInode ino
    writeInode ino (im.setBlock s 0)
    pure true
  | some (s,ks) => do
    let table ← reads (·.followPath ks.dropLast (i.block s))
    if table = 0 then pure false
    else do
      writeIndirectEntry table (ks.getLastD 0) 0
      pure true
  | none => if i.block 14 = 0 then pure false else throw .invalidBlock

def ext2PunchHole (ino offset len : Nat) : FsM Unit := do
  let i ← readInode ino
  check i.isRegular .notRegularFile
  let v ← get
  (v.blocksInside offset len).forM fun l => do
    let p ← reads (·.getFileBlock i l)
    if p = 0 then pure ()
    else if ← clearPointer i ino l then do
      freeBlock p
      let im ← readInode ino
      writeInode ino (im.setBlocks (im.blocks - v.blockSize / 512))
    else pure ()

/-- With extents the blocks stay, and are filled with zeroes. -/
def zeroRange (ino offset len : Nat) : FsM Unit := do
  let v ← get
  (v.blocksInside offset len).forM fun l => fun v =>
    match (v.readInode ino).bind fun i => v.getFileBlock i l with
    | .ok p => if p = 0 then .ok () v else zeroBlock p v
    | .error _ => .ok () v

end Miku.Ext
