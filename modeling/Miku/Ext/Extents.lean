import Miku.Ext.Structs

namespace Miku.Ext
open Lib

/-- The physical block of `l`, or 0 if no extent covers it. -/
def searchLeaf (es : List Extent) (l : Nat) : Nat :=
  match es.find? fun e => decide (e.block ≤ l ∧ l < (e.block + e.actualLen) % 4294967296) with
  | some e => (e.start + (l - e.block)) % 4294967296
  | none => 0

/-- The child of the last entry whose key is at most `l`, or 0. -/
def searchIndex (is : List ExtentIdx) (l : Nat) : Nat :=
  is.foldl (fun t e => if e.block ≤ l then e.leaf else t) 0

namespace Volume

def searchExtentTree (v : Volume) (l : Nat) : Nat → Nat → Except FsError Nat
  | depth, b =>
    match v.readBlock b with
    | .error e => .error e
    | .ok buf =>
      if le16 buf 0 ≠ extMagic then .error .corruptedFs
      else
        match depth with
        | 0 => .ok (searchLeaf (extentsIn buf) l)
        | depth + 1 =>
          let t := searchIndex (indicesIn buf) l
          if t = 0 then .ok 0 else searchExtentTree v l depth (t % 4294967296)

def getFileBlockExtent (v : Volume) (i : Inode) (l : Nat) : Except FsError Nat :=
  if i.extentHeader.magic ≠ extMagic then .error .corruptedFs
  else
    match i.extentHeader.depth with
    | 0 => .ok (searchLeaf i.extents l)
    | depth + 1 =>
      let t := searchIndex i.indices l
      if t = 0 then .ok 0 else v.searchExtentTree l depth (t % 4294967296)

end Volume

/-- Block `l` at `p` continues the last extent, which is not too long. -/
def extendsLast (es : List Extent) (l p : Nat) : Bool :=
  match es.getLast? with
  | none => false
  | some e =>
    l == (e.block + e.actualLen) % 4294967296 && p == (e.start + e.actualLen) % 4294967296 &&
      decide (e.actualLen < 32767)

/-- The place of `l` among sorted extents. -/
def insertPos (es : List Extent) (l : Nat) : Nat :=
  (es.findIdx? fun e => decide (l < e.block)).getD es.length

/-- The position of the last entry whose key is at most `l`, or 0. -/
def targetIdx (is : List ExtentIdx) (l : Nat) : Nat :=
  (List.range is.length).foldl
    (fun t k => if (is[k]?.any fun e => decide (e.block ≤ l)) then k else t) 0

/-- Entries from `pos` on move up by one, the last one first. -/
def Inode.shiftExtents (i : Inode) (pos n : Nat) : Inode :=
  (List.range' pos (n - pos)).reverse.foldl (fun i k => i.setExtentAtRaw (k + 1) (i.extentAt k)) i

def Inode.insertExtentAt (i : Inode) (pos l p : Nat) : Inode :=
  let n := i.extentHeader.entries
  ((i.shiftExtents pos n).setExtentAtRaw pos ⟨l,1,0,p⟩).setExtentEntries (n + 1)

def addBlocks (v : Volume) (i : Inode) : Inode := i.setBlocks (i.blocks + v.blockSize / 512)

/-- The header of an extent node in a block. -/
def putHeader (b : Bytes) (entries max depth : Nat) : Bytes :=
  put (put (put (put (put b 0 (le16Bytes extMagic)) 2 (le16Bytes entries)) 4 (le16Bytes max)) 6
    (le16Bytes depth)) 8 (le32Bytes 0)

def maxEntries (v : Volume) : Nat := (v.blockSize - 12) / 12

/-- The entries of `i_block`, moved to a block of their own. -/
def grownLeaf (v : Volume) (i : Inode) : Bytes :=
  let h := i.extentHeader
  (List.range h.entries).foldl
    (fun b k => put b (12 + 12 * k) (le32Bytes (i.words (3 + 3 * k)) ++
      le32Bytes (i.words (4 + 3 * k)) ++ le32Bytes (i.words (5 + 3 * k))))
    (putHeader zeroBytes h.entries (maxEntries v) h.depth)

/-- The inode whose only entry is the index of that block. -/
def grownRoot (i : Inode) (newBlock : Nat) : Inode :=
  let h := i.extentHeader
  let first := if 0 < h.entries then (i.extentAt 0).block else 0
  let i := (List.range 4).foldl (fun i k => i.setEntry k 0 0 0) i
  ((i.setExtentDepth (h.depth + 1)).setExtentEntries 1).setExtentIdxAtRaw 0 ⟨first,newBlock,0⟩

def ext4GrowExtentTree (i : Inode) (ino : Nat) : FsM Inode := fun v =>
  match allocBlock (v.groupOf ino) v with
  | .error e v => .error e v
  | .ok newBlock v =>
    .ok (addBlocks v (grownRoot i newBlock)) (v.setBlock newBlock (grownLeaf v i))

/-- A new entry behind those of a leaf. -/
def appendExtent (b : Bytes) (l p : Nat) : Bytes :=
  let n := le16 b 2
  let base := 12 + 12 * n
  put (put (put (put (put b base (le32Bytes l)) (base + 4) (le16Bytes 1)) (base + 6) (le16Bytes 0))
    (base + 8) (le32Bytes p)) 2 (le16Bytes (n + 1))

/-- One block more for the last entry of a leaf. -/
def growLast (b : Bytes) : Bytes :=
  let k := le16 b 2 - 1
  put b (12 + 12 * k + 4) (le16Bytes ((extentIn b k).actualLen + 1))

/-- The upper half of the entries of a leaf. -/
def upperHalf (v : Volume) (old : Bytes) : Bytes :=
  let n := le16 old 2
  (List.range (n - n / 2)).foldl (fun b k => splice b (12 + 12 * k) old (12 + 12 * (n / 2 + k)) 12)
    (putHeader zeroBytes (n - n / 2) (maxEntries v) 0)

def lowerHalf (old : Bytes) : Bytes := put old 2 (le16Bytes (le16 old 2 / 2))

/-- An index entry behind the others, if there is room for it. -/
def linkLeaf (i : Inode) (first newBlock : Nat) : Inode :=
  let h := i.extentHeader
  if h.entries < h.max then
    (i.setExtentIdxAtRaw h.entries ⟨first,newBlock,0⟩).setExtentEntries (h.entries + 1)
  else i

/-- `again` is the insertion, tried once more after the split. -/
def ext4SplitLeaf (again : Inode → FsM Inode) (i : Inode) (ino oldBlock : Nat) (old : Bytes) :
    FsM Inode := fun v =>
  match allocBlock (v.groupOf ino) v with
  | .error e v => .error e v
  | .ok newBlock v =>
    let new := upperHalf v old
    let i := addBlocks v (linkLeaf i (le32 new 12) newBlock)
    again i ((v.setBlock newBlock new).setBlock oldBlock (lowerHalf old))

def insertExtentChild (again : Inode → FsM Inode) (i : Inode) (ino child : Nat) (buf : Bytes)
    (l p : Nat) : FsM Inode := fun v =>
  -- here only the lower half of the physical block number is added up, which is all
  -- that is compared
  if extendsLast (extentsIn buf) l p then
    .ok i (v.setBlock child (growLast buf))
  else if le16 buf 2 < le16 buf 4 then .ok i (v.setBlock child (appendExtent buf l p))
  else ext4SplitLeaf again i ino child buf v

/-- Below the second level nothing is looked at: the entry is appended there. -/
def insertExtentSub (i : Inode) (sub l p : Nat) : FsM Inode := fun v =>
  match v.readBlock sub with
  | .error e => .error e v
  | .ok buf =>
    if le16 buf 2 < le16 buf 4 then .ok i (v.setBlock sub (appendExtent buf l p))
    else .error .extentFull v

def ext4InsertExtentDeep (again : Inode → FsM Inode) (i : Inode) (ino l p : Nat) : FsM Inode :=
  fun v =>
    let child := (i.extentIdxAt (targetIdx i.indices l)).leaf % 4294967296
    match v.readBlock child with
    | .error e => .error e v
    | .ok buf =>
      if le16 buf 0 ≠ extMagic then .error .corruptedFs v
      else if le16 buf 6 = 0 then insertExtentChild again i ino child buf l p v
      else
        insertExtentSub i ((idxIn buf (targetIdx (indicesIn buf) l)).leaf % 4294967296) l p v

def ext4InsertExtentLeaf (again : Inode → FsM Inode) (i : Inode) (ino l p : Nat) : FsM Inode :=
  fun v =>
    let h := i.extentHeader
    if extendsLast i.extents l p then
      .ok (i.setExtentLenAt (h.entries - 1) ((i.extentAt (h.entries - 1)).actualLen + 1)) v
    else if h.entries < h.max then .ok (i.insertExtentAt (insertPos i.extents l) l p) v
    else
      match ext4GrowExtentTree i ino v with
      | .error e v => .error e v
      | .ok i v => again i v

/-- Every round but the last allocates a block, so a `fuel` above the number of free blocks
does not run out. -/
def insertExtentLoop (ino l p : Nat) : Nat → Inode → FsM Inode
  | 0, _ => throw .noSpace
  | fuel + 1, i =>
    if i.extentHeader.magic ≠ extMagic then throw .corruptedFs
    else if i.extentHeader.depth = 0 then
      ext4InsertExtentLeaf (insertExtentLoop ino l p fuel) i ino l p
    else ext4InsertExtentDeep (insertExtentLoop ino l p fuel) i ino l p

def ext4InsertExtent (i : Inode) (ino l p : Nat) : FsM Inode := fun v =>
  insertExtentLoop ino l p (v.groupCount * v.blocksPerGroup + 3) i v

end Miku.Ext
