import Miku.Lib.Bytes
import Miku.Lib.Wp
import Miku.Vfs.Types

namespace Miku.Vfs
open Lib Function

/-- The allocator of indices: the free ones, the next to be handed out first. -/
structure Slab where
  free : List Nat
  active : Nat → Bool

namespace Slab

def new (n : Nat) : Slab := ⟨(List.range n).reverse,fun _ => false⟩

def alloc (s : Slab) : Option (Nat × Slab) :=
  match s.free with
  | [] => none
  | i :: free => some (i,⟨free,update s.active i true⟩)

def release (s : Slab) (i : Nat) : Slab :=
  if s.active i then ⟨i :: s.free,update s.active i false⟩ else s

end Slab

structure CachedPage where
  data : Bytes
  dirty : Bool

def CachedPage.cleared : CachedPage := ⟨zeroBytes,false⟩

/-- The pages that all in-memory files share. `lru` is the list of those in use, the last
one used first; the counters are left out. -/
structure PageCache where
  pages : Nat → CachedPage
  slab : Slab
  lru : List Nat

namespace PageCache

def new : PageCache := ⟨fun _ => .cleared,Slab.new maxDataPages,[]⟩

def setPage (c : PageCache) (i : Nat) (p : CachedPage) : PageCache :=
  { c with pages := update c.pages i p }

def pushFront (c : PageCache) (i : Nat) : PageCache := { c with lru := i :: c.lru.erase i }

def drop (c : PageCache) (i : Nat) : PageCache :=
  { c.setPage i .cleared with
    slab := c.slab.release i
    lru := c.lru.erase i }

def freePage (c : PageCache) (i : Nat) : PageCache := if c.slab.active i then c.drop i else c

/-- The page not used for the longest time, among those not dirty, makes room. -/
def evictAndAlloc (c : PageCache) : Option (Nat × PageCache) :=
  match c.lru.reverse.find? fun i => !(c.pages i).dirty with
  | none => none
  | some i =>
    match (c.drop i).slab.alloc with
    | none => none
    | some (j,slab) => some (j,{ c.drop i with slab := slab }.pushFront j)

def allocPage (c : PageCache) : Option (Nat × PageCache) :=
  match c.slab.alloc with
  | some (i,slab) => some (i,{ c.setPage i .cleared with slab := slab }.pushFront i)
  | none => c.evictAndAlloc

def getPageData (c : PageCache) (i : Nat) : Option (Bytes × PageCache) :=
  if c.slab.active i then some ((c.pages i).data,c.pushFront i) else none

/-- New data for a page, which is dirty from then on. -/
def update (c : PageCache) (i : Nat) (f : Bytes → Bytes) : Option PageCache :=
  if c.slab.active i then some ((c.setPage i ⟨f (c.pages i).data,true⟩).pushFront i) else none

end PageCache

/-- The pages of a file; there are at most 128. -/
abbrev AddressSpace := Nat → Option Nat

namespace AddressSpace

def new : AddressSpace := fun _ => none

def getPage (a : AddressSpace) (n : Nat) : Option Nat := if n < directBlocks then a n else none

/-- The pages in use from the given one on. -/
def pagesFrom (a : AddressSpace) (from_ : Nat) : List Nat :=
  (List.range' from_ (directBlocks - from_)).filterMap a

def maxSize : Nat := directBlocks * pageSize

end AddressSpace

/-- A node of the tree. Times are left out. -/
structure VNode where
  parent : Nat
  name : Str
  kind : VNodeKind
  fsType : FsType
  active : Bool
  mode : UInt16
  uid : UInt16
  gid : UInt16
  size : Nat
  nlinks : Nat
  refcount : Nat
  children : Children
  addrSpace : AddressSpace
  symlinkTarget : Str
  devMajor : Nat
  devMinor : Nat
  immutable : Bool
  appendOnly : Bool
  staticData : Option (List UInt8)

def blockMajor : Nat := 8

namespace VNode

def empty : VNode :=
  ⟨0xFFFF,[],.regular,.tmpFS,false,0o644,0,0,0,0,0,Children.new,AddressSpace.new,[],0,0,false,
    false,none⟩

def init (parent : Nat) (name : Str) (kind : VNodeKind) (fsType : FsType) (mode : UInt16)
    (cred : Credentials) : VNode :=
  { empty with
    parent := parent
    name := name
    kind := kind
    fsType := fsType
    mode := mode
    uid := cred.euid
    gid := cred.egid
    nlinks := if kind = .directory then 2 else 1
    active := true }

def isDir (n : VNode) : Bool := n.kind == .directory
def isSymlink (n : VNode) : Bool := n.kind == .symlink
def isRegular (n : VNode) : Bool := n.kind == .regular

/-- Nodes of devices and of process information cannot be changed. -/
def isReadonlyFs (n : VNode) : Bool := n.fsType == .devFS || n.fsType == .procFS

/-- `get_dev_type` finds a device. -/
def isDevice (n : VNode) : Bool :=
  (n.kind == .charDevice || n.kind == .blockDevice) &&
    ([(1,3),(1,5),(1,8),(5,1)].contains (n.devMajor,n.devMinor) || n.devMajor == blockMajor)

def incRef (n : VNode) : VNode := { n with refcount := min (n.refcount + 1) 65535 }
def decRef (n : VNode) : VNode := { n with refcount := n.refcount - 1 }

end VNode

structure OpenFile where
  vnodeId : Nat
  flags : OpenFlags
  offset : Nat

/-- The open files of a process by descriptor, below 128. -/
abbrev FdTable := Nat → Option OpenFile

/-- The in-memory part of the filesystem. A process without a table has an empty one.
`generation` is not kept by the code: it counts the files that a node has been. -/
structure MikuVfs where
  nodes : Nat → VNode
  pageCache : PageCache
  fdTables : Nat → FdTable
  vnodeFreeHint : Nat
  generation : Nat → Nat

abbrev VfsM := EStateM VfsError MikuVfs

namespace MikuVfs

def setNode (s : MikuVfs) (id : Nat) (n : VNode) : MikuVfs :=
  { s with nodes := update s.nodes id n }

def mapNode (s : MikuVfs) (id : Nat) (f : VNode → VNode) : MikuVfs := s.setNode id (f (s.nodes id))

def setFd (s : MikuVfs) (pid fd : Nat) (f : Option OpenFile) : MikuVfs :=
  { s with fdTables := update s.fdTables pid (update (s.fdTables pid) fd f) }

def validVnode (s : MikuVfs) (id : Nat) : Bool := id < maxVnodes && (s.nodes id).active

/-- `FdTable::get`. -/
def getFd (s : MikuVfs) (pid fd : Nat) : Except VfsError OpenFile :=
  if fd < maxOpenFiles then
    match s.fdTables pid fd with
    | some f => .ok f
    | none => .error .badFd
  else .error .badFd

/-- The lowest free descriptor, behind those of the standard streams. -/
def freeFd (s : MikuVfs) (pid : Nat) : Option Nat :=
  (List.range' reservedStdioFds (maxOpenFiles - reservedStdioFds)).find? fun fd =>
    (s.fdTables pid fd).isNone

/-- A free node, looked for from the hint on. -/
def freeVnode (s : MikuVfs) : Option Nat :=
  ((List.range' s.vnodeFreeHint (maxVnodes - s.vnodeFreeHint)).find? fun i => !(s.nodes i).active).or
    ((List.range' 1 (s.vnodeFreeHint - 1)).find? fun i => !(s.nodes i).active)

/-- A node is free again; the next search starts there if that is earlier. -/
def dropVnode (s : MikuVfs) (id : Nat) : MikuVfs :=
  { s.mapNode id fun n => { n with active := false } with
    vnodeFreeHint := min id s.vnodeFreeHint }

/-- The permissions of the caller on a node. -/
def checkAccess (s : MikuVfs) (c : Ctx) (id : Nat) (flags : OpenFlags) : Bool :=
  c.cred.isRoot ||
    let n := s.nodes id
    let bits := permBits n.mode
      (if c.cred.euid = n.uid then 6 else if c.cred.inGroup n.gid then 3 else 0)
    !(flags.readable && bits &&& 4 == 0) && !(flags.writable && bits &&& 2 == 0)

def checkDirWrite (s : MikuVfs) (c : Ctx) (id : Nat) : Bool := s.checkAccess c id ⟨OpenFlags.write⟩

end MikuVfs

def fdAlloc (c : Ctx) (id : Nat) (flags : OpenFlags) (offset : Nat) : VfsM Nat := fun s =>
  match s.freeFd c.pid with
  | some fd => .ok fd (s.setFd c.pid fd (some ⟨id,flags,offset⟩))
  | none => .error .tooManyOpenFiles s

def MikuVfs.initNode (s : MikuVfs) (id : Nat) (n : VNode) : MikuVfs :=
  { s.setNode id n with generation := update s.generation id (s.generation id + 1) }

def allocVnode : VfsM Nat := fun s =>
  match s.freeVnode with
  | some i => .ok i { s with vnodeFreeHint := i + 1 }
  | none => .error .noSpace s

/-- The pages of a file go back; the file keeps its references to them. -/
def MikuVfs.freeFilePages (s : MikuVfs) (id : Nat) : MikuVfs :=
  { s with pageCache := ((s.nodes id).addrSpace.pagesFrom 0).foldl PageCache.freePage s.pageCache }

end Miku.Vfs
