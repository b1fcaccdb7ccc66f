import Miku.Vfs.Path

namespace Miku.Vfs
open Lib MikuVfs

/-- What `create_file`, `mkdir` and `symlink` do: checks, a node of the given kind and an
entry for it. -/
def makeNode (c : Ctx) (kind : VNodeKind) (mode : UInt16) (target : Str) (parent : Nat)
    (name : Str) : VfsM Nat := do
  reads fun s => if (s.nodes parent).isDir then .ok () else .error .notDirectory
  reads fun s => if (s.nodes parent).isReadonlyFs then .error .readOnly else .ok ()
  reads fun s => if s.checkDirWrite c parent then .ok () else .error .permissionDenied
  reads fun s => if s.noDuplicate parent name then .ok () else .error .alreadyExists
  let id ← allocVnode
  modify fun s => s.initNode id
    { VNode.init parent name kind (s.nodes parent).fsType mode c.cred with
      symlinkTarget := target
      size := byteLen target }
  insertEntry parent name id
  return id
where
  /-- Without an entry the node is given up. -/
  insertEntry (parent : Nat) (name : Str) (id : Nat) : VfsM Unit := fun s =>
    let (done,children) := (s.nodes parent).children.insert name id
    let s := s.mapNode parent fun n => { n with children := children }
    if done then .ok () s
    else .error .noSpace (s.mapNode id fun n => { n with active := false })

/-- What the boot puts in place: nothing is checked, and a directory does not count one in it. -/
def install (kind : VNodeKind) (fsType : FsType) (mode : UInt16) (parent : Nat) (name : Str) :
    VfsM Nat := do
  let id ← allocVnode
  modify fun s => s.initNode id (VNode.init parent name kind fsType mode Credentials.root)
  makeNode.insertEntry parent name id
  return id

def createFile (c : Ctx) (parent : Nat) (name : Str) (mode : UInt16) : VfsM Nat := do
  reads fun _ => validateName name
  makeNode c .regular (applyUmask mode c.umask) [] parent name

def mkdir (c : Ctx) (parent : Nat) (name : Str) (mode : UInt16) : VfsM Nat := do
  reads fun _ => validateName name
  let id ← makeNode c .directory (applyUmask mode c.umask) [] parent name
  modify fun s => s.mapNode parent fun n => { n with nlinks := (n.nlinks + 1) % 65536 }
  return id

def symlink (c : Ctx) (parent : Nat) (linkname target : Str) : VfsM Nat := do
  reads fun _ => validateName linkname
  check (!(target.isEmpty || nameLen < byteLen target)) .nameTooLong
  makeNode c .symlink 0o777 target parent linkname

def link (c : Ctx) (cwd : Nat) (existing : Str) (newParent : Nat) (newName : Str) : VfsM Unit := do
  reads fun _ => validateName newName
  let id ← reads fun s => s.resolvePathFollow cwd existing
  reads fun s => if (s.nodes id).isDir then .error .isDirectory else .ok ()
  reads fun s => if (s.nodes id).isReadonlyFs then .error .readOnly else .ok ()
  reads fun s => if (s.nodes newParent).isDir then .ok () else .error .notDirectory
  reads fun s =>
    if (s.nodes newParent).fsType = (s.nodes id).fsType then .ok () else .error .crossDevice
  reads fun s => if s.checkDirWrite c newParent then .ok () else .error .permissionDenied
  reads fun s => if s.noDuplicate newParent newName then .ok () else .error .alreadyExists
  fun s =>
    let (done,children) := (s.nodes newParent).children.insert newName id
    let s := s.mapNode newParent fun n => { n with children := children }
    if done then .ok () (s.mapNode id fun n => { n with nlinks := (n.nlinks + 1) % 65536 })
    else .error .noSpace s

/-- The name of an entry as the caller spelt it: the text behind the last slash. -/
def entryName (path : Str) : Str :=
  match rsplitSlash path with
  | some (_,name) => name
  | none => path

def unlink (c : Ctx) (cwd : Nat) (path : Str) : VfsM Unit := do
  let id ← reads fun s => s.resolvePathLstat cwd path
  reads fun s => if (s.nodes id).isDir then .error .isDirectory else .ok ()
  reads fun s => if (s.nodes id).isReadonlyFs then .error .readOnly else .ok ()
  reads fun s => if (s.nodes id).immutable then .error .permissionDenied else .ok ()
  let parent ← reads fun s => .ok (s.nodes id).parent
  reads fun s => if s.checkDirWrite c parent then .ok () else .error .permissionDenied
  modify fun s => s.mapNode parent fun n =>
    { n with children := n.children.removeByName (entryName path) }
  modify fun s => s.mapNode id fun n => { n with nlinks := n.nlinks - 1 }
  modify fun s =>
    if (s.nodes id).nlinks = 0 ∧ (s.nodes id).refcount = 0 then (s.freeFilePages id).dropVnode id
    else s

def rmdir (c : Ctx) (cwd : Nat) (path : Str) : VfsM Unit := do
  let id ← reads fun s => s.resolvePath cwd path
  reads fun s => if (s.nodes id).isDir then .ok () else .error .notDirectory
  check (id != 0) .permissionDenied
  reads fun s => if (s.nodes id).isReadonlyFs then .error .readOnly else .ok ()
  reads fun s => if (s.nodes id).immutable then .error .permissionDenied else .ok ()
  reads fun s => if (s.nodes id).children.isEmpty then .ok () else .error .notEmpty
  let parent ← reads fun s => .ok (s.nodes id).parent
  reads fun s => if s.checkDirWrite c parent then .ok () else .error .permissionDenied
  modify fun s => s.mapNode parent fun n =>
    { n with
      children := n.children.remove (nameHash (s.nodes id).name) id
      nlinks := n.nlinks - 1 }
  modify fun s => (s.mapNode id fun n => { n with nlinks := 0 }).dropVnode id

/-- No ancestor of `cur` is `id`. The source has no bound for this search; it ends at the
root, and goes on for ever in a ring of parents, where this one gives up. -/
def outside (s : MikuVfs) (id : Nat) : Nat → Nat → Bool
  | 0, _ => false
  | n + 1, cur =>
    if cur = id then false
    else if (s.nodes cur).parent = cur ∨ cur = 0 then true
    else outside s id n (s.nodes cur).parent

/-- Nothing else has the new name. -/
def nameFree (s : MikuVfs) (id parent : Nat) (name : Str) : Bool :=
  match (s.nodes parent).children.findByName name with
  | some c => !(s.validVnode c && c != id)
  | none => true

/-- The entry of a node moves. If the new one cannot be made the old one comes back. -/
def moveEntry (id oldParent newParent : Nat) (newName : Str) : VfsM Unit := fun s =>
  let oldName := (s.nodes id).name
  let s := s.mapNode oldParent fun n => { n with children := n.children.removeByName oldName }
  let s := s.mapNode id fun n => { n with name := newName, parent := newParent }
  let (done,children) := (s.nodes newParent).children.insert newName id
  let s := s.mapNode newParent fun n => { n with children := children }
  if done then .ok () s
  else
    let s := s.mapNode id fun n => { n with name := oldName, parent := oldParent }
    .error .noSpace (s.mapNode oldParent fun n =>
      { n with children := (n.children.insert oldName id).2 })

def rename (c : Ctx) (cwd : Nat) (old newPath : Str) : VfsM Unit := do
  let id ← reads fun s => s.resolvePath cwd old
  reads fun s => if (s.nodes id).isReadonlyFs then .error .readOnly else .ok ()
  reads fun s => if (s.nodes id).immutable then .error .permissionDenied else .ok ()
  let oldParent ← reads fun s => .ok (s.nodes id).parent
  let (newParent,newName) ← reads fun s => s.splitPath cwd newPath
  reads fun _ => validateName newName
  reads fun s => if (s.nodes newParent).isDir then .ok () else .error .notDirectory
  reads fun s =>
    if (s.nodes newParent).fsType = (s.nodes id).fsType then .ok () else .error .crossDevice
  reads fun s => if s.checkDirWrite c oldParent then .ok () else .error .permissionDenied
  reads fun s => if newParent = oldParent || s.checkDirWrite c newParent then .ok ()
    else .error .permissionDenied
  reads fun s => if !(s.nodes id).isDir || outside s id (maxVnodes + 1) newParent then .ok ()
    else .error .invalidArgument
  reads fun s => if nameFree s id newParent newName then .ok () else .error .alreadyExists
  moveEntry id oldParent newParent newName
  modify fun s =>
    if newParent ≠ oldParent ∧ (s.nodes id).isDir then
      (s.mapNode oldParent fun n => { n with nlinks := n.nlinks - 1 }).mapNode newParent
        fun n => { n with nlinks := min (n.nlinks + 1) 65535 }
    else s

def truncateFile (s : MikuVfs) (id : Nat) : MikuVfs :=
  (s.freeFilePages id).mapNode id fun n => { n with size := 0, addrSpace := AddressSpace.new }

/-- What `resolve_or_create` does with a file that exists. -/
def openExisting (c : Ctx) (flags : OpenFlags) (id : Nat) : VfsM Nat := do
  reads fun s => if flags.has OpenFlags.nofollow && (s.nodes id).isSymlink then .error .loop
    else .ok ()
  reads fun s => if flags.has OpenFlags.directory && !(s.nodes id).isDir then .error .notDirectory
    else .ok ()
  check (!(flags.has OpenFlags.create && flags.has OpenFlags.exclusive)) .alreadyExists
  reads fun s => if s.checkAccess c id flags then .ok () else .error .permissionDenied
  modify fun s =>
    if flags.has OpenFlags.truncate && flags.writable && (s.nodes id).isRegular then truncateFile s id
    else s
  return id

def openLookup (s : MikuVfs) (cwd : Nat) (path : Str) (flags : OpenFlags) : Except VfsError Nat :=
  if flags.has OpenFlags.nofollow then s.resolvePath cwd path else s.resolvePathFollow cwd path

def resolveOrCreate (c : Ctx) (cwd : Nat) (path : Str) (flags : OpenFlags) (mode : UInt16) :
    VfsM Nat := fun s =>
  match openLookup s cwd path flags with
  | .ok id => openExisting c flags id s
  | .error .notFound =>
    if flags.has OpenFlags.create then
      match s.splitPath cwd path with
      | .ok (parent,name) => createFile c parent name mode s
      | .error e => .error e s
    else .error .notFound s
  | .error e => .error e s

def «open» (c : Ctx) (cwd : Nat) (path : Str) (flags : OpenFlags) (mode : UInt16) : VfsM Nat := do
  let id ← resolveOrCreate c cwd path flags mode
  reads fun s => if flags.writable && (s.nodes id).isReadonlyFs && !(s.nodes id).isDevice
    then .error .readOnly else .ok ()
  let fd ← fdAlloc c id flags 0
  modify fun s => s.mapNode id VNode.incRef
  return fd

/-- One reference less; a node without name and references is free. -/
def releaseRef (s : MikuVfs) (id : Nat) : MikuVfs :=
  if s.validVnode id && decide (0 < (s.nodes id).refcount) then
    let s := s.mapNode id VNode.decRef
    if (s.nodes id).nlinks = 0 ∧ (s.nodes id).refcount = 0 then (s.freeFilePages id).dropVnode id
    else s
  else s

def close (c : Ctx) (fd : Nat) : VfsM Unit := do
  let f ← reads fun s => s.getFd c.pid fd
  modify fun s => releaseRef (s.setFd c.pid fd none) f.vnodeId

/-- A reference more, if the node is still there. -/
def retain (s : MikuVfs) (id : Nat) : MikuVfs :=
  if s.validVnode id then s.mapNode id VNode.incRef else s

def dup (c : Ctx) (oldFd : Nat) : VfsM Nat := do
  let f ← reads fun s => s.getFd c.pid oldFd
  let fd ← fdAlloc c f.vnodeId f.flags f.offset
  modify fun s => retain s f.vnodeId
  return fd

/-- `FdTable::alloc_at`, with the offset set afterwards. -/
def fdAllocAt (c : Ctx) (fd : Nat) (f : OpenFile) : VfsM Unit := fun s =>
  if maxOpenFiles ≤ fd then .error .badFd s
  else if (s.fdTables c.pid fd).isSome then .error .busy s
  else .ok () (s.setFd c.pid fd (some f))

def dupTo (c : Ctx) (oldFd newFd : Nat) : VfsM Nat := do
  let f ← reads fun s => s.getFd c.pid oldFd
  modify fun s => final (close c newFd) s
  fdAllocAt c newFd f
  modify fun s => retain s f.vnodeId
  return newFd

/-- The system call, which does nothing for equal descriptors. -/
def sysDup2 (c : Ctx) (oldFd newFd : Nat) : VfsM Nat :=
  if oldFd = newFd then pure newFd else dupTo c oldFd newFd

/-- The nodes that the open files of a process refer to, by descriptor. -/
def MikuVfs.openNodes (s : MikuVfs) (pid : Nat) : List Nat :=
  (List.range maxOpenFiles).filterMap fun fd => (s.fdTables pid fd).map OpenFile.vnodeId

def forkFds (s : MikuVfs) (parent child : Nat) : MikuVfs :=
  { (s.openNodes parent).foldl retain s with
    fdTables := Function.update s.fdTables child (s.fdTables parent) }

def releaseFdsOnExit (s : MikuVfs) (pid : Nat) : MikuVfs :=
  (s.openNodes pid).foldl (fun s id => if s.validVnode id then s.mapNode id VNode.decRef else s)
    { s with fdTables := Function.update s.fdTables pid fun _ => none }

end Miku.Vfs
