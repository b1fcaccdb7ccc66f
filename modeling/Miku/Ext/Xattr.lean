import Miku.Ext.Structs

namespace Miku.Ext
open Lib

def xattrMagic : Nat := 0xEA020000

/-- The namespace of an attribute and its name there. -/
abbrev XattrKey := UInt8 × List UInt8

/-- The parts of the two arrays of an entry that are in use: at most 64 bytes of a name
and 256 of a value. -/
structure XattrEntry where
  nameIndex : UInt8
  name : List UInt8
  value : List UInt8

def XattrEntry.key (e : XattrEntry) : XattrKey := (e.nameIndex,e.name)

def maxXattrEntries : Nat := 16

namespace Inode

def fileAclLo (i : Inode) : Nat := i.words 16

def setFileAclLo (i : Inode) (acl : Nat) : Inode := i.setWord 16 acl

/-- The bytes of an inode, from the 40th on. -/
def data (i : Inode) : Bytes := fun o => (le32Bytes (i.words ((o - 40) / 4))).getD (o % 4) 0

/-- Inodes of 128 bytes do not have the field. -/
def extraIsize (i : Inode) (inodeSize : Nat) : Nat := if 128 < inodeSize then le16 i.data 128 else 0

end Inode

/-- `b[o..o + n]`. -/
def bytesAt (b : Bytes) (o n : Nat) : List UInt8 := (List.range n).map fun k => b (o + k)

def alignUp (n : Nat) : Nat := (n + 3) / 4 * 4

def entrySize (nameLen : Nat) : Nat := alignUp (16 + nameLen)

/-- No entry starts at `pos`: the end mark is there, or it would not be in the buffer. -/
def noEntry (data : Bytes) (len pos : Nat) : Bool :=
  decide (len < pos + 16) || data pos == 0 && data (pos + 1) == 0 ||
    decide (len < pos + 16 + (data pos).toNat)

def valueAt (data : Bytes) (len base pos : Nat) : List UInt8 :=
  let off := le16 data (pos + 2)
  let size := le32 data (pos + 8)
  if 0 < size ∧ 0 < off ∧ base + off + size ≤ len then bytesAt data (base + off) (min size 256)
  else []

def entryAt (data : Bytes) (len base pos : Nat) : XattrEntry :=
  ⟨data (pos + 1),bytesAt data (pos + 16) (min (data pos).toNat 64),valueAt data len base pos⟩

/-- `room` is how many entries the list still takes. -/
def parseXattrEntries (data : Bytes) (len base : Nat) : Nat → Nat → List XattrEntry
  | 0, _ => []
  | room + 1, pos =>
    if noEntry data len pos then []
    else entryAt data len base pos ::
      parseXattrEntries data len base room (pos + entrySize (data pos).toNat)

/-- The attributes in the inode itself. Inodes have no more than 256 bytes. -/
def inlineXattrs (inodeSize : Nat) (i : Inode) : List XattrEntry :=
  let start := 128 + i.extraIsize inodeSize
  if 128 < inodeSize ∧ 0 < i.extraIsize inodeSize ∧ start + 4 < inodeSize ∧
      le32 i.data start = xattrMagic then
    parseXattrEntries i.data inodeSize (start + 4) maxXattrEntries (start + 4)
  else []

namespace Volume

variable (v : Volume) (inodeSize : Nat)

def readXattrs (ino : Nat) : Except FsError (List XattrEntry) :=
  match v.readInode ino with
  | .error e => .error e
  | .ok i =>
    let list := inlineXattrs inodeSize i
    if i.fileAclLo = 0 then .ok list
    else
      match v.readBlock i.fileAclLo with
      | .error e => .error e
      | .ok buf =>
        if le32 buf 0 = xattrMagic then
          .ok (list ++ parseXattrEntries buf v.blockSize 0 (maxXattrEntries - list.length) 32)
        else .ok list

/-- The length of the value, and as much of it as goes into `cap` bytes. -/
def getXattr (ino : Nat) (key : XattrKey) (cap : Nat) : Except FsError (Nat × List UInt8) :=
  match v.readXattrs inodeSize ino with
  | .error e => .error e
  | .ok list =>
    match list.find? fun e => decide (e.key = key) with
    | some e => .ok (e.value.length,e.value.take cap)
    | none => .error .notFound

end Volume

/-- An entry that stands for `key`. Its name is compared in full. -/
def isEntryOf (key : XattrKey) (data : Bytes) (pos : Nat) : Bool :=
  data (pos + 1) == key.1 && (data pos).toNat == key.2.length &&
    bytesAt data (pos + 16) (data pos).toNat == key.2

/-- The entries of a block but that of `key`, up to `room` of them. Each takes at least 16
bytes, so a `fuel` above a sixteenth of `bs` does not run out. -/
def keptEntries (data : Bytes) (bs : Nat) (key : XattrKey) : Nat → Nat → Nat → List XattrEntry
  | 0, _, _ => []
  | _ + 1, 0, _ => []
  | fuel + 1, room + 1, pos =>
    let next := pos + entrySize (data pos).toNat
    if noEntry data bs pos then []
    else if isEntryOf key data pos then keptEntries data bs key fuel (room + 1) next
    else entryAt data bs 0 pos :: keptEntries data bs key fuel room next

/-- The head of an entry and its name, with the value at `valEnd`. -/
def writeEntry (buf : Bytes) (wpos valEnd : Nat) (e : XattrEntry) : Bytes :=
  let buf := put buf wpos [UInt8.ofNat e.name.length,e.nameIndex]
  let buf := if e.value = [] then buf else put buf (wpos + 2) (le16Bytes valEnd)
  let buf := put buf (wpos + 4) (le32Bytes 0)
  let buf := put buf (wpos + 8) (le32Bytes e.value.length)
  let buf := put buf (wpos + 12) (le32Bytes 0)
  put buf (wpos + 16) e.name

/-- Heads go up from `wpos` and values down from `valEnd`, up to the first entry without
space. -/
def placeEntries (buf : Bytes) (wpos valEnd : Nat) : List XattrEntry → Bytes
  | [] => buf
  | e :: es =>
    let size := entrySize e.name.length
    let room := alignUp e.value.length
    if valEnd < wpos + size then buf
    else if e.value ≠ [] ∧ (valEnd < room ∨ valEnd - room < wpos + size) then buf
    else
      placeEntries (writeEntry (put buf (valEnd - room) e.value) wpos (valEnd - room) e)
        (wpos + size) (valEnd - room) es

def rebuilt (bs : Nat) (buf : Bytes) (entries : List XattrEntry) : Bytes :=
  placeEntries (put buf 32 (List.replicate (bs - 32) 0)) 32 bs entries

/-- A block with no attributes, for one inode. -/
def newXattrBlock : Bytes :=
  put (put (put zeroBytes 0 (le32Bytes xattrMagic)) 4 (le32Bytes 1)) 8 (le32Bytes 0)

/-- The attribute block of an inode and what it holds; an inode that has none gets one. -/
def xattrBlock (ino : Nat) (i : Inode) : FsM (Nat × Bytes) := fun v =>
  if i.fileAclLo ≠ 0 then
    match v.readBlock i.fileAclLo with
    | .error e => .error e v
    | .ok buf => .ok (i.fileAclLo,buf) v
  else
    match allocBlock (v.groupOf ino) v with
    | .error e v => .error e v
    | .ok b v =>
      match writeInode ino (i.setFileAclLo b) v with
      | .error e v => .error e v
      | .ok _ v => .ok (b,newXattrBlock) (v.setBlock b newXattrBlock)

/-- What is put for a value: nothing if it is empty. -/
def newEntry (key : XattrKey) (value : List UInt8) : List XattrEntry :=
  if value = [] then [] else [⟨key.1,key.2.take 64,value.take 256⟩]

/-- The change time, which the last write is for, is left out. -/
def setXattr (ino : Nat) (key : XattrKey) (value : List UInt8) : FsM Unit := fun v =>
  match v.readInode ino with
  | .error e => .error e v
  | .ok i =>
    match xattrBlock ino i v with
    | .error e v => .error e v
    | .ok (b,buf) v =>
      let entries := keptEntries buf v.blockSize key v.blockSize 15 32 ++ newEntry key value
      let v := v.setBlock b (rebuilt v.blockSize buf entries)
      match v.readInode ino with
      | .error e => .error e v
      | .ok i => writeInode ino i v

end Miku.Ext
