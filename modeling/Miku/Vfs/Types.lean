import Mathlib.Logic.Function.Basic
import Miku.Lib.Probe

namespace Miku.Vfs

def maxVnodes : Nat := 256
def maxOpenFiles : Nat := 128
/-- Descriptors 0 to 2 are handled by the system call layer. -/
def reservedStdioFds : Nat := 3
def maxDataPages : Nat := 1024
def nameLen : Nat := 64
def pageSize : Nat := 512
def directBlocks : Nat := 128
def maxSymlinkDepth : Nat := 8
def maxPathDepth : Nat := 32

inductive VfsError where
  | notFound | permissionDenied | alreadyExists | notDirectory | isDirectory | notEmpty
  | invalidPath | tooManySymlinks | noSpace | readOnly | busy | ioError | crossDevice
  | nameTooLong | invalidArgument | badFd | tooManyOpenFiles | seekError | fileTooLarge | loop
  deriving DecidableEq, Repr

inductive FsType where
  | tmpFS | devFS | procFS | ext2 | ext3 | ext4 | cowFS | pipeFS
  deriving DecidableEq, Repr

inductive VNodeKind where
  | regular | directory | symlink | charDevice | blockDevice | pipe | socket | fifo
  deriving DecidableEq, Repr

abbrev Str := List Char

def utf8 (s : Str) : List UInt8 := s.flatMap String.utf8EncodeChar

/-- `str::len`. -/
def byteLen (s : Str) : Nat := (utf8 s).length

/-- `char::is_whitespace`. -/
def isWhitespace (c : Char) : Bool :=
  let n := c.toNat
  (9 ≤ n && n ≤ 13) || n == 0x20 || n == 0x85 || n == 0xA0 || n == 0x1680 ||
    (0x2000 ≤ n && n ≤ 0x200A) || n == 0x2028 || n == 0x2029 || n == 0x202F || n == 0x205F ||
    n == 0x3000

def trim (s : Str) : Str := ((s.dropWhile isWhitespace).reverse.dropWhile isWhitespace).reverse

/-- `split('/')`. -/
def splitSlash : Str → List Str
  | [] => [[]]
  | c :: cs =>
    if c = '/' then [] :: splitSlash cs
    else
      match splitSlash cs with
      | [] => [[c]]
      | w :: ws => (c :: w) :: ws

/-- The text before and behind the last slash. -/
def rsplitSlash (s : Str) : Option (Str × Str) :=
  match s.reverse.dropWhile (· ≠ '/') with
  | [] => none
  | _ :: dir => some (dir.reverse,(s.reverse.takeWhile (· ≠ '/')).reverse)

def isDot (s : Str) : Bool := s == ['.']
def isDotDot (s : Str) : Bool := s == ['.','.']

structure OpenFlags where
  bits : UInt32
  deriving DecidableEq, Repr

namespace OpenFlags

def read : UInt32 := 0x0001
def write : UInt32 := 0x0002
def append : UInt32 := 0x0004
def create : UInt32 := 0x0008
def exclusive : UInt32 := 0x0010
def truncate : UInt32 := 0x0020
def directory : UInt32 := 0x0040
def nofollow : UInt32 := 0x0080

def has (f : OpenFlags) (flag : UInt32) : Bool := f.bits &&& flag != 0
def readable (f : OpenFlags) : Bool := f.has read
def writable (f : OpenFlags) : Bool := f.has write

end OpenFlags

/-- The permission bits of a mode for one of owner, group and others. -/
def permBits (mode : UInt16) (shift : UInt16) : UInt16 := (mode >>> shift) &&& 7

def applyUmask (mode umask : UInt16) : UInt16 := (mode &&& ~~~ umask) &&& 0o7777

structure Credentials where
  euid : UInt16
  egid : UInt16
  groups : List UInt16

namespace Credentials

def root : Credentials := ⟨0,0,[0]⟩

def isRoot (c : Credentials) : Bool := c.euid == 0

def inGroup (c : Credentials) (gid : UInt16) : Bool := c.egid == gid || c.groups.contains gid

end Credentials

/-- Who calls: the process and its identity. `device` is what a device, or a source of
process information, answers to a read or a write of this call. -/
structure Ctx where
  pid : Nat
  cred : Credentials
  umask : UInt16
  device : Except VfsError (List UInt8)

inductive SeekFrom where
  | start (pos : UInt64)
  | current (delta : Int64)
  | end_ (delta : Int64)

open Lib

def childNameLen : Nat := 32
def initialCapacity : Nat := 16

def fnv32 (bs : List UInt8) : UInt32 :=
  bs.foldl (fun h b => (h ^^^ b.toUInt32) * 0x01000193) 0x811c9dc5

def nameHash (name : Str) : Nat := (fnv32 (utf8 name)).toNat

/-- Of a name the first 32 bytes and its length are kept. -/
structure ChildSlot where
  hash : Nat
  id : Nat
  name : Str
  deriving DecidableEq

/-- A cut name is compared by what is left of it. -/
def nameMatches (stored name : Str) : Bool :=
  if byteLen stored = 0 then false
  else if byteLen stored ≤ childNameLen then stored == name
  else
    decide (childNameLen ≤ byteLen name) &&
      ((utf8 name).take childNameLen == (utf8 stored).take childNameLen)

structure Children where
  table : Probe ChildSlot
  count : Nat

namespace Children

def new : Children := ⟨Probe.empty 0,0⟩

def ensureInit (c : Children) : Children :=
  if c.table.cap = 0 then { c with table := Probe.empty initialCapacity } else c

/-- An item goes to the first empty slot on its path. -/
def move (t : Probe ChildSlot) : Slot ChildSlot → Probe ChildSlot
  | .occupied a =>
    match t.firstEmpty a.hash with
    | some j => t.set j (.occupied a)
    | none => t
  | _ => t

/-- The occupied slots, moved one by one to a table of twice the size. -/
def rehash (c : Children) : Children :=
  ⟨(List.range c.table.cap).foldl (fun t i => move t (c.table.slots i)) (Probe.empty (c.table.cap * 2)),
    c.count⟩

def grown (c : Children) : Children :=
  let c := c.ensureInit
  if c.table.cap * 3 ≤ c.count * 4 then c.rehash else c

def isName (name : Str) (a : ChildSlot) : Bool := a.hash == nameHash name && nameMatches a.name name

/-- The slot in which a search for a name ends. -/
def slotOf (c : Children) (name : Str) : Option Nat :=
  Probe.scan c.table.slots (isName name) (c.table.path (nameHash name))

/-- What a slot of the table refers to. -/
def idAt (c : Children) (i : Nat) : Option Nat :=
  match c.table.slots i with
  | .occupied a => some a.id
  | _ => none

def findByName (c : Children) (name : Str) : Option Nat := (c.slotOf name).bind c.idAt

def bury (c : Children) (i : Nat) : Children := ⟨c.table.set i .tombstone,c.count - 1⟩

def insert (c : Children) (name : Str) (id : Nat) : Bool × Children :=
  let c := c.grown
  if (c.slotOf name).isSome then (false,c)
  else
    match Probe.vacancy c.table.slots none (c.table.path (nameHash name)) with
    | some i => (true,⟨c.table.set i (.occupied ⟨nameHash name,id,name⟩),c.count + 1⟩)
    | none => (false,c)

def removeByName (c : Children) (name : Str) : Children :=
  match c.slotOf name with
  | some i => c.bury i
  | none => c

/-- Removal by hash and identifier. -/
def remove (c : Children) (h id : Nat) : Children :=
  match Probe.scan c.table.slots (fun a => a.hash == h && a.id == id) (c.table.path h) with
  | some i => c.bury i
  | none => c

def isEmpty (c : Children) : Bool := c.count == 0

end Children

end Miku.Vfs
