import Miku.Vfs.NodeOps

namespace Miku.Vfs
open Lib MikuVfs

/-- `n` bytes of a buffer from `off` on. -/
def slice (b : Bytes) (off n : Nat) : List UInt8 := (List.range n).map fun i => b (off + i)

/-- A piece of a page. A missing page reads as zeroes. -/
def readPage (c : PageCache) (page : Option Nat) (off n : Nat) : List UInt8 × PageCache :=
  match page.bind c.getPageData with
  | some (d,c) => (slice d off n,c)
  | none => (List.replicate n 0,c)

/-- The loop over the pages from `off` on, with `left` bytes missing. Every round reads a
byte, so `fuel` need not be more than that. -/
def readLoop (a : AddressSpace) : Nat → PageCache → Nat → Nat → List UInt8 × PageCache
  | 0, c, _, _ => ([],c)
  | fuel + 1, c, off, left =>
    if left = 0 then ([],c)
    else
      let chunk := min (pageSize - off % pageSize) left
      let r := readPage c (a.getPage (off / pageSize)) (off % pageSize) chunk
      let rest := readLoop a fuel r.2 (off + chunk) (left - chunk)
      (r.1 ++ rest.1,rest.2)

def readStatic (sd : List UInt8) (offset n : Nat) : List UInt8 := (sd.drop offset).take n

/-- At most `n` bytes of a file; nothing is read behind its end. -/
def readNode (id offset n : Nat) : VfsM (List UInt8) := fun s =>
  match (s.nodes id).staticData with
  | some sd => .ok (readStatic sd offset n) s
  | none =>
    if (s.nodes id).size ≤ offset then .ok [] s
    else
      let toRead := min n ((s.nodes id).size - offset)
      let r := readLoop (s.nodes id).addrSpace toRead s.pageCache offset toRead
      .ok r.1 { s with pageCache := r.2 }

def setOffset (s : MikuVfs) (pid fd : Nat) (offset : Nat) : MikuVfs :=
  s.setFd pid fd ((s.fdTables pid fd).map fun f => { f with offset := offset % 18446744073709551616 })

/-- What a node not backed by memory answers. -/
def VNode.answer (n : VNode) (c : Ctx) : Option (Except VfsError (List UInt8)) :=
  if n.fsType = .procFS || n.isDevice then some c.device else none

/-- The bytes of a file or, of the answer of a device, those that fit. -/
def readAny (c : Ctx) (id offset n : Nat) : VfsM (List UInt8) := fun s =>
  match (s.nodes id).answer c with
  | some (.ok bytes) => .ok (bytes.take n) s
  | some (.error e) => .error e s
  | none => if (s.nodes id).isDir then .error .isDirectory s else readNode id offset n s

def read (c : Ctx) (fd n : Nat) : VfsM (List UInt8) := do
  let f ← reads fun s => s.getFd c.pid fd
  check f.flags.readable .permissionDenied
  reads fun s => if s.validVnode f.vnodeId then .ok () else .error .badFd
  if n = 0 then return []
  let bytes ← readAny c f.vnodeId f.offset n
  modify fun s => setOffset s c.pid fd (f.offset + bytes.length)
  return bytes

def readAtVnode (id offset n : Nat) : VfsM (List UInt8) := fun s =>
  if !s.validVnode id || n = 0 then .ok [] s
  else if (s.nodes id).isDir then .error .isDirectory s
  else readNode id offset n s

/-- The page behind a page number, which is made if it is missing. -/
def ensurePage (id pageNum : Nat) : VfsM Nat := fun s =>
  match (s.nodes id).addrSpace.getPage pageNum with
  | some pid => .ok pid s
  | none =>
    match s.pageCache.allocPage with
    | none => .error .noSpace s
    | some (pid,c) =>
      if pageNum < directBlocks then
        .ok pid ({ s with pageCache := c }.mapNode id fun n =>
          { n with addrSpace := Function.update n.addrSpace pageNum (some pid) })
      else .error .fileTooLarge { s with pageCache := c }

def updatePage (pid off : Nat) (bytes : List UInt8) : VfsM Unit := fun s =>
  match s.pageCache.update pid fun d => put d off bytes with
  | some c => .ok () { s with pageCache := c }
  | none => .error .ioError s

/-- The loop over the pages that the data go to. -/
def writeLoop (id : Nat) : Nat → Nat → List UInt8 → VfsM Unit
  | 0, _, _ => pure ()
  | fuel + 1, off, data =>
    if data.isEmpty then pure ()
    else do
      let chunk := min (pageSize - off % pageSize) data.length
      let pid ← ensurePage id (off / pageSize)
      updatePage pid (off % pageSize) (data.take chunk)
      writeLoop id fuel (off + chunk) (data.drop chunk)

/-- Data at an offset of a file, cut at the greatest size a file can have. -/
def writeNode (id offset : Nat) (data : List UInt8) : VfsM Nat := do
  check (decide (offset < AddressSpace.maxSize)) .fileTooLarge
  let data := data.take (AddressSpace.maxSize - offset)
  writeLoop id data.length offset data
  modify fun s => s.mapNode id fun n => { n with size := max n.size (offset + data.length) }
  return data.length

/-- Where a write starts. -/
def writeOffset (n : VNode) (f : OpenFile) : Nat :=
  if f.flags.has OpenFlags.append || n.appendOnly then n.size else f.offset

def writeFile (id offset : Nat) (data : List UInt8) : VfsM Nat := do
  reads fun s => if (s.nodes id).isDir then .error .isDirectory else .ok ()
  reads fun s => if (s.nodes id).immutable then .error .permissionDenied else .ok ()
  writeNode id offset data

/-- How far the descriptor gets, and how many bytes were taken. -/
def writeAny (c : Ctx) (f : OpenFile) (data : List UInt8) : VfsM (Nat × Nat) := fun s =>
  let n := s.nodes f.vnodeId
  if n.fsType = .procFS then .error .readOnly s
  else if n.isDevice then
    match c.device with
    | .ok bytes => .ok (f.offset + bytes.length,bytes.length) s
    | .error e => .error e s
  else
    match writeFile f.vnodeId (writeOffset n f) data s with
    | .ok k s => .ok (writeOffset n f + k,k) s
    | .error e s => .error e s

def write (c : Ctx) (fd : Nat) (data : List UInt8) : VfsM Nat := do
  let f ← reads fun s => s.getFd c.pid fd
  check f.flags.writable .permissionDenied
  reads fun s => if s.validVnode f.vnodeId then .ok () else .error .badFd
  if data.isEmpty then return 0
  let r ← writeAny c f data
  modify fun s => setOffset s c.pid fd r.1
  return r.2

def writeAtVnode (id offset : Nat) (data : List UInt8) : VfsM Nat := do
  if ← reads fun s => .ok (!s.validVnode id || data.isEmpty) then return 0
  reads fun s => if (s.nodes id).isDir then .error .isDirectory else .ok ()
  reads fun s => if (s.nodes id).isReadonlyFs then .error .readOnly else .ok ()
  reads fun s => if (s.nodes id).staticData.isSome || (s.nodes id).immutable
    then .error .permissionDenied else .ok ()
  writeNode id offset data

/-- A number as `i64` has it. -/
def wrap64 (n : Int) : Int := Int.bmod n 18446744073709551616

def seekTarget (size offset : Nat) : SeekFrom → Int
  | .start pos => wrap64 pos.toNat
  | .current delta => wrap64 (offset + delta.toInt)
  | .end_ delta => wrap64 (size + delta.toInt)

def seek (c : Ctx) (fd : Nat) (whence : SeekFrom) : VfsM Nat := do
  let f ← reads fun s => s.getFd c.pid fd
  reads fun s => if s.validVnode f.vnodeId then .ok () else .error .badFd
  let target ← reads fun s => .ok (seekTarget (s.nodes f.vnodeId).size f.offset whence)
  check (decide (0 ≤ target)) .seekError
  modify fun s => setOffset s c.pid fd target.toNat
  return target.toNat

/-- What is left of the last page behind the end of a file is cleared. -/
def zeroTail (c : PageCache) (a : AddressSpace) (size : Nat) : PageCache :=
  if 0 < size % pageSize then
    match a.getPage ((size - 1) / pageSize) with
    | some pid =>
      (c.update pid fun d i => if size % pageSize ≤ i ∧ i < pageSize then 0 else d i).getD c
    | none => c
  else c

def keepPages (size : Nat) : Nat := if size = 0 then 0 else (size - 1) / pageSize + 1

def truncateTo (s : MikuVfs) (id newSize : Nat) : MikuVfs :=
  let n := s.nodes id
  if n.size ≤ newSize then s.mapNode id fun n => { n with size := newSize }
  else
    let keep := keepPages newSize
    let c := (n.addrSpace.pagesFrom keep).foldl PageCache.freePage s.pageCache
    let a : AddressSpace := fun k => if k < keep then n.addrSpace k else none
    { s with pageCache := zeroTail c a newSize }.mapNode id fun n =>
      { n with size := newSize, addrSpace := a }

/-- The system call, which looks at nothing but the descriptor. -/
def sysTruncate (c : Ctx) (fd length : Nat) : VfsM Unit := do
  let f ← reads fun s => s.getFd c.pid fd
  reads fun s => if s.validVnode f.vnodeId then .ok () else .error .badFd
  modify fun s => truncateTo s f.vnodeId length

/-- A pipe: a node of the filesystem, with a position that its readers share. `sent` and
`got` are not kept by the code: the bytes that writes have taken, and those that reads have
returned. -/
structure Pipe where
  vfs : MikuVfs
  id : Nat
  readPos : Nat
  sent : List UInt8
  got : List UInt8

inductive PipeOp where
  | write (c : Ctx) (fd : Nat) (data : List UInt8)
  /-- `pipe_try_read` with a buffer of `n` bytes. -/
  | read (n : Nat)
  | fork (parent child : Nat)

namespace Pipe

variable (s : Pipe)

def node : VNode := s.vfs.nodes s.id

/-- The descriptor is one of the pipe that may be written. -/
def writes (c : Ctx) (fd : Nat) : Bool :=
  match s.vfs.getFd c.pid fd with
  | .ok f => f.vnodeId == s.id && f.flags.writable
  | .error _ => false

/-- How many bytes a write takes, if it does not fail. -/
def accepted (c : Ctx) (fd : Nat) (data : List UInt8) : Option Nat :=
  match Vfs.write c fd data s.vfs with
  | .ok n _ => some n
  | .error _ _ => none

def tryRead (n : Nat) : Pipe :=
  if !s.vfs.validVnode s.id || s.node.size ≤ s.readPos then s
  else
    match readAtVnode s.id s.readPos n s.vfs with
    | .ok bytes t =>
      { s with
        vfs := t
        readPos := s.readPos + bytes.length
        got := s.got ++ bytes }
    | .error _ t => { s with vfs := t }

def step (s : Pipe) : PipeOp → Pipe
  | .write c fd data =>
    if s.writes c fd then
      { s with
        vfs := final (Vfs.write c fd data) s.vfs
        sent := s.sent ++ data.take ((s.accepted c fd data).getD 0) }
    else s
  | .read n => s.tryRead n
  | .fork parent child => { s with vfs := forkFds s.vfs parent child }

def run (s : Pipe) (os : List PipeOp) : Pipe := os.foldl step s

end Pipe

/-- The calls of the filesystem. `fork` and `exit` are its part in those of a process. -/
inductive Call where
  | create (c : Ctx) (parent : Nat) (name : Str) (mode : UInt16)
  | mkdir (c : Ctx) (parent : Nat) (name : Str) (mode : UInt16)
  | symlink (c : Ctx) (parent : Nat) (linkname target : Str)
  | link (c : Ctx) (cwd : Nat) (existing : Str) (newParent : Nat) (newName : Str)
  | unlink (c : Ctx) (cwd : Nat) (path : Str)
  | rmdir (c : Ctx) (cwd : Nat) (path : Str)
  | rename (c : Ctx) (cwd : Nat) (old newPath : Str)
  | open (c : Ctx) (cwd : Nat) (path : Str) (flags : OpenFlags) (mode : UInt16)
  | close (c : Ctx) (fd : Nat)
  | dup (c : Ctx) (oldFd : Nat)
  | dup2 (c : Ctx) (oldFd newFd : Nat)
  | fork (parent child : Nat)
  | exit (pid : Nat)
  | read (c : Ctx) (fd n : Nat)
  | write (c : Ctx) (fd : Nat) (data : List UInt8)
  | seek (c : Ctx) (fd : Nat) (whence : SeekFrom)
  | readAt (id : Nat) (offset : UInt64) (n : Nat)
  | writeAt (id : Nat) (offset : UInt64) (data : List UInt8)
  | truncateTo (id : Nat) (newSize : UInt64)
  | truncate (c : Ctx) (fd : Nat) (length : UInt64)

inductive Answer where
  | done
  | num (n : Nat)
  | bytes (bs : List UInt8)

def Call.run : Call → VfsM Answer
  | .create c parent name mode => return .num (← createFile c parent name mode)
  | .mkdir c parent name mode => return .num (← Vfs.mkdir c parent name mode)
  | .symlink c parent linkname target => return .num (← Vfs.symlink c parent linkname target)
  | .link c cwd existing newParent newName => do
    Vfs.link c cwd existing newParent newName
    return .done
  | .unlink c cwd path => do
    Vfs.unlink c cwd path
    return .done
  | .rmdir c cwd path => do
    Vfs.rmdir c cwd path
    return .done
  | .rename c cwd old newPath => do
    Vfs.rename c cwd old newPath
    return .done
  | .open c cwd path flags mode => return .num (← Vfs.open c cwd path flags mode)
  | .close c fd => do
    Vfs.close c fd
    return .done
  | .dup c oldFd => return .num (← Vfs.dup c oldFd)
  | .dup2 c oldFd newFd => return .num (← sysDup2 c oldFd newFd)
  | .fork parent child => do
    modify fun s => forkFds s parent child
    return .done
  | .exit pid => do
    modify fun s => releaseFdsOnExit s pid
    return .done
  | .read c fd n => return .bytes (← Vfs.read c fd n)
  | .write c fd data => return .num (← Vfs.write c fd data)
  | .seek c fd whence => return .num (← Vfs.seek c fd whence)
  | .readAt id offset n => return .bytes (← readAtVnode id offset.toNat n)
  | .writeAt id offset data => return .num (← writeAtVnode id offset.toNat data)
  | .truncateTo id newSize => do
    modify fun s => Vfs.truncateTo s id newSize.toNat
    return .done
  | .truncate c fd length => do
    sysTruncate c fd length.toNat
    return .done

/-- The state after a call, whether it succeeds or not. -/
def step (s : MikuVfs) (o : Call) : MikuVfs := final o.run s

def run (s : MikuVfs) (os : List Call) : MikuVfs := os.foldl step s

theorem run_append : run s (os ++ os') = run (run s os) os' := List.foldl_append

/-- The root directory and nothing else. -/
def MikuVfs.bare : MikuVfs where
  nodes := fun id =>
    if id = 0 then VNode.init 0 ['/'] .directory .tmpFS 0o755 Credentials.root else VNode.empty
  pageCache := PageCache.new
  fdTables := fun _ _ => none
  vnodeFreeHint := 1
  generation := fun _ => 0

end Miku.Vfs
