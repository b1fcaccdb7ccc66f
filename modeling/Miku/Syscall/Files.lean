import Miku.Ext.File
import Miku.Mm.Pte
import Miku.Mm.Vma
import Miku.Vfs.FileOps

namespace Miku.Syscall
open Lib Vfs Function

/-- A page of a process in memory. -/
structure Resident where
  data : Bytes
  writable : Bool
  dirty : Bool

/-- What system calls on files see: the filesystem, the inodes of its nodes on the mounted
volume (0 for none), that volume, and the mappings of each process. -/
structure Sys where
  vfs : MikuVfs
  ext2Ino : Nat → Nat
  ext : Option Ext.Volume
  vmas : Nat → Mm.VmaMap
  resident : Nat → Nat → Option Resident

inductive SysError where
  | vfs (e : VfsError)
  | einval | ebadf | enosys | enospc | enomem

abbrev SysM := EStateM SysError Sys

def isExtFamily : FsType → Bool
  | .ext2 | .ext3 | .ext4 => true
  | _ => false

namespace Sys

def isExtBacked (s : Sys) (id : Nat) : Bool := isExtFamily (s.vfs.nodes id).fsType && s.ext2Ino id != 0

/-- Reads and writes go to the volume. -/
def onVolume (s : Sys) (id : Nat) : Bool :=
  !(s.vfs.nodes id).isDevice && !(s.vfs.nodes id).isDir && s.isExtBacked id

def mapNode (s : Sys) (id : Nat) (f : VNode → VNode) : Sys := { s with vfs := s.vfs.mapNode id f }

def setSize (s : Sys) (id size : Nat) : Sys := s.mapNode id fun n => { n with size := size }

/-- The inode of a node, if there is a volume to read it from. -/
def readInode (s : Sys) (id : Nat) : Except SysError (Ext.Volume × Ext.Inode) :=
  match s.ext with
  | none => .error (.vfs .ioError)
  | some v =>
    match v.readInode (s.ext2Ino id) with
    | .ok i => .ok (v,i)
    | .error _ => .error (.vfs .ioError)

def ext2RefreshSize (s : Sys) (id : Nat) : Sys :=
  if !s.isExtBacked id then s
  else
    match s.readInode id with
    | .ok (_,i) => s.setSize id i.size
    | .error _ => s

def setVma (s : Sys) (pid : Nat) (m : Mm.VmaMap) : Sys := { s with vmas := update s.vmas pid m }

def setPage (s : Sys) (pid page : Nat) (r : Option Resident) : Sys :=
  { s with resident := update s.resident pid (update (s.resident pid) page r) }

end Sys

open Sys

def onVfs {α : Type} (x : VfsM α) : SysM α := fun s =>
  match x s.vfs with
  | .ok a t => .ok a { s with vfs := t }
  | .error e t => .error (.vfs e) { s with vfs := t }

/-- `with_ext2_pub`: `none` without a volume. -/
def withExt2 {α : Type} (x : Ext.FsM α) (s : Sys) : Option (Except Ext.FsError α) × Sys :=
  match s.ext with
  | none => (none,s)
  | some v =>
    match x v with
    | .ok a w => (some (.ok a),{ s with ext := some w })
    | .error e w => (some (.error e),{ s with ext := some w })

/-- The descriptor of the caller, on a node in use. -/
def openFile (c : Ctx) (fd : Nat) (ok : OpenFile → Bool) : SysM OpenFile := do
  let f ← onVfs (reads fun s => s.getFd c.pid fd)
  check (ok f) (.vfs .permissionDenied)
  onVfs (reads fun s => if s.validVnode f.vnodeId then .ok () else .error .badFd)
  return f

/-- At most `n` bytes of a file on the volume, and its size there. -/
def readVolume (s : Sys) (id offset n : Nat) : Except SysError (List UInt8 × Nat) :=
  match s.readInode id with
  | .error e => .error e
  | .ok (v,i) =>
    if i.size ≤ offset then .ok ([],i.size)
    else
      match v.readFile i offset (min n (i.size - offset)) with
      | .ok bytes => .ok (bytes,i.size)
      | .error _ => .error (.vfs .ioError)

def readExt2File (c : Ctx) (fd : Nat) (f : OpenFile) (n : Nat) : SysM (List UInt8) := do
  let (bytes,size) ← reads fun s => readVolume s f.vnodeId f.offset n
  modify fun s => if 0 < size then s.setSize f.vnodeId size else s
  modify fun s => { s with vfs := setOffset s.vfs c.pid fd (f.offset + bytes.length) }
  return bytes

def read (c : Ctx) (fd n : Nat) : SysM (List UInt8) := do
  let f ← openFile c fd fun f => f.flags.readable
  if n = 0 then return []
  if (← get).onVolume f.vnodeId then readExt2File c fd f n else onVfs (Vfs.read c fd n)

/-- Where a write to a file on the volume starts. For appending the size is asked for. -/
def volumeOffset (s : Sys) (f : OpenFile) : Nat :=
  let n := s.vfs.nodes f.vnodeId
  if f.flags.has OpenFlags.append then
    match s.ext with
    | none => n.size
    | some v => ((v.readInode (s.ext2Ino f.vnodeId)).map Ext.Inode.size).toOption.getD 0
  else if n.appendOnly then n.size else f.offset

def writeExt2File (c : Ctx) (fd : Nat) (f : OpenFile) (data : List UInt8) : SysM Nat := do
  onVfs (reads fun s => if (s.nodes f.vnodeId).immutable then .error .permissionDenied else .ok ())
  let s ← get
  let offset := volumeOffset s f
  let r ← modifyGet fun s => withExt2 (Ext.ext3WriteFile (s.ext2Ino f.vnodeId) data offset) s
  match r with
  | some (.ok n) =>
    modify fun s => s.mapNode f.vnodeId fun m => { m with size := max m.size (offset + n) }
    modify fun s => { s with vfs := setOffset s.vfs c.pid fd (offset + n) }
    return n
  | _ => throw (.vfs .ioError)

/-- `sys_write` and `sys_write_file` of a descriptor of no terminal or socket. -/
def write (c : Ctx) (fd : Nat) (data : List UInt8) : SysM Nat := do
  let f ← openFile c fd fun f => f.flags.writable
  if data.isEmpty then return 0
  if (← get).onVolume f.vnodeId then writeExt2File c fd f data else onVfs (Vfs.write c fd data)

def readAtVnode (id offset n : Nat) : SysM (List UInt8) := fun s =>
  if s.vfs.validVnode id && n != 0 && s.isExtBacked id && !(s.vfs.nodes id).isDir then
    match readVolume s id offset n with
    | .ok (bytes,_) => .ok bytes s
    | .error e => .error e s
  else onVfs (Vfs.readAtVnode id offset n) s

/-- The way of dirty pages of shared mappings back to their file. -/
def writeAtVnode (id offset : Nat) (data : List UInt8) : SysM Nat := fun s =>
  let n := s.vfs.nodes id
  if s.vfs.validVnode id && !data.isEmpty && !n.isDir && !n.isReadonlyFs && n.staticData.isNone &&
      !n.immutable && s.isExtBacked id then
    match withExt2 (Ext.ext2WriteFile (s.ext2Ino id) data offset) s with
    | (some (.ok k),s) => .ok k s
    | (_,s) => .error (.vfs .ioError) s
  else onVfs (Vfs.writeAtVnode id offset data) s

def fstat (c : Ctx) (fd : Nat) : SysM Nat := do
  let f ← openFile c fd fun _ => true
  modify fun s => s.ext2RefreshSize f.vnodeId
  return ((← get).vfs.nodes f.vnodeId).size

def truncateTo (s : Sys) (id newSize : Nat) : Sys :=
  let s := if newSize < (s.vfs.nodes id).size && s.isExtBacked id && newSize == 0
    then (withExt2 (Ext.ext3Truncate (s.ext2Ino id)) s).2 else s
  { s with vfs := Vfs.truncateTo s.vfs id newSize }

/-- What the descriptor was opened for is not looked at. -/
def truncate (c : Ctx) (fd length : Nat) : SysM Unit := do
  let f ← openFile c fd fun _ => true
  modify fun s => truncateTo s f.vnodeId length

/-- What `fallocate` and `punch_hole` share: a change to the inode of a descriptor. -/
def reshape (c : Ctx) (fd len : Nat) (change : Nat → Ext.FsM Unit) : SysM Unit := do
  check (len != 0) .einval
  let f ← onVfs (reads fun s => s.getFd c.pid fd)
  let s ← get
  check (s.ext2Ino f.vnodeId != 0) .enosys
  match ← modifyGet fun s => withExt2 (change (s.ext2Ino f.vnodeId)) s with
  | some (.ok ()) => return ()
  | some (.error _) => throw .enospc
  | none => throw .enosys

def fallocate (c : Ctx) (fd offset len : Nat) : SysM Unit :=
  reshape c fd len fun ino v =>
    if v.hasExtents then Ext.ext4Fallocate ino offset len v else Ext.ext2Fallocate ino offset len v

def punchHole (c : Ctx) (fd offset len : Nat) : SysM Unit :=
  reshape c fd len fun ino v =>
    if v.hasExtents then Ext.zeroRange ino offset len v else Ext.ext2PunchHole ino offset len v

/-- The volume is what reading it gives, which writing it out does not change. -/
def fsync (c : Ctx) (fd : Nat) : SysM Unit := do
  let _ ← onVfs (reads fun s => s.getFd c.pid fd)

def pageBase (a : Nat) : Nat := a / Mm.pageSize * Mm.pageSize

def pagesOf (start end_ : Nat) : List Nat :=
  (List.range ((end_ - start + Mm.pageSize - 1) / Mm.pageSize)).map fun k => start + k * Mm.pageSize

/-- A dirty page of a shared mapping goes to the file. -/
def writebackPage (pid : Nat) (s : Sys) (p : Nat) : Sys :=
  match (s.vmas pid).find p, s.resident pid p with
  | some ⟨start,_,_,some b⟩, some r =>
    let off := (b.fileOff + (p - start)) % 18446744073709551616
    if b.shared && r.dirty && decide (off < b.fileSize) then
      final (writeAtVnode b.vnodeId off (slice r.data 0 (min (b.fileSize - off) Mm.pageSize))) s
    else s
  | _, _ => s

def writebackFileRange (s : Sys) (pid start end_ : Nat) : Sys :=
  (pagesOf (pageBase start) end_).foldl (writebackPage pid) s

def unmapPages (s : Sys) (pid start end_ : Nat) : Sys :=
  { s with resident := update s.resident pid fun p =>
      if start ≤ p ∧ p < end_ then none else s.resident pid p }

def mapShared : Nat := 0x01
def mapFixed : Nat := 0x10

def protRejected (prot : Nat) : Bool :=
  (Mm.protHas prot Mm.protWrite && Mm.protHas prot Mm.protExec) ||
    prot &&& (Mm.protRead ||| Mm.protWrite ||| Mm.protExec) != prot

def rangeOf (addr length : Nat) : Option (Nat × Nat) :=
  (Mm.checkedAlignUp length).bind fun size => (Mm.userEndFor addr size).map fun end_ => (size,end_)

def placeFile (s : Sys) (pid addr length prot flags : Nat) (b : Mm.FileBacking) : Except SysError Sys :=
  if protRejected prot ∨ b.fileOff % Mm.pageSize ≠ 0 then .error .einval
  else
    match Mm.checkedAlignUp length with
    | none => .error .einval
    | some size =>
      if Mm.protHas flags mapFixed then
        if addr = 0 ∨ addr % Mm.pageSize ≠ 0 ∨ Mm.userEndFor addr size = none then .error .einval
        else
          let s := unmapPages (writebackFileRange s pid addr (addr + size)) pid addr (addr + size)
          .ok (s.setVma pid (((s.vmas pid).removeRange addr (addr + size)).insertMerged
            ⟨addr,addr + size,prot,some b⟩))
      else
        match (s.vmas pid).findAndInsert size prot (some b) with
        | none => .error .enomem
        | some (_,m) => .ok (s.setVma pid m)

/-- The size of a file for a mapping; on the volume it is asked for. -/
def fdBacking (c : Ctx) (fd : Nat) : SysM OpenFile := do
  let f ← openFile c fd fun _ => true
  onVfs (reads fun s => if (s.nodes f.vnodeId).isDir then .error .isDirectory else .ok ())
  modify fun s =>
    match (if s.isExtBacked f.vnodeId then s.readInode f.vnodeId else .error .einval) with
    | .ok (_,i) => if 0 < i.size then s.setSize f.vnodeId i.size else s
    | .error _ => s
  return f

/-- What the descriptor was opened for is not looked at. -/
def mmapFile (c : Ctx) (addr length prot flags fd offset : Nat) : SysM Unit := do
  check (length != 0) .einval
  let f ← fdBacking c fd
  fun s =>
    match placeFile s c.pid addr length prot flags
      ⟨f.vnodeId,offset,(s.vfs.nodes f.vnodeId).size,Mm.protHas flags mapShared⟩ with
    | .ok s => .ok () s
    | .error e => .error e s

/-- The first access to a page of a mapping. -/
def touch (pid addr : Nat) : SysM Unit := fun s =>
  let page := pageBase addr
  match s.resident pid page, (s.vmas pid).find page with
  | some _, _ => .ok () s
  | none, none => .error .einval s
  | none, some v =>
    let writable := Mm.protHas v.prot Mm.protWrite
    match v.backing with
    | none => .ok () (s.setPage pid page (some ⟨zeroBytes,writable,false⟩))
    | some b =>
      let off := (b.fileOff + (page - v.start)) % 18446744073709551616
      if off < b.fileSize then
        match readAtVnode b.vnodeId off (min (b.fileSize - off) Mm.pageSize) s with
        | .ok bytes s => .ok () (s.setPage pid page (some ⟨put zeroBytes 0 bytes,writable,false⟩))
        | .error e s => .error e s
      else .ok () (s.setPage pid page (some ⟨zeroBytes,writable,false⟩))

/-- A store of a program; what it may not write stays as it is. -/
def store (s : Sys) (pid addr : Nat) (byte : UInt8) : Sys :=
  match s.resident pid (pageBase addr) with
  | some r =>
    if r.writable then
      s.setPage pid (pageBase addr) (some ⟨put r.data (addr % Mm.pageSize) [byte],true,true⟩)
    else s
  | none => s

def msync (s : Sys) (pid addr length : Nat) : Sys :=
  if addr % Mm.pageSize ≠ 0 ∨ length = 0 then s
  else
    match rangeOf addr length with
    | none => s
    | some (_,end_) => writebackFileRange s pid addr end_

def munmap (s : Sys) (pid addr length : Nat) : Sys :=
  if addr % Mm.pageSize ≠ 0 ∨ length = 0 then s
  else
    match rangeOf addr length with
    | none => s
    | some (_,end_) =>
      let s := unmapPages (writebackFileRange s pid addr end_) pid addr end_
      s.setVma pid ((s.vmas pid).removeRange addr end_)

/-- Pages get new entries, which are not dirty. -/
def reprotect (s : Sys) (pid start end_ prot : Nat) : Sys :=
  { s with resident := update s.resident pid fun p =>
      if start ≤ p ∧ p < end_ then
        (s.resident pid p).map fun r => ⟨r.data,Mm.protHas prot Mm.protWrite,false⟩
      else s.resident pid p }

/-- The range becomes anonymous. -/
def mprotect (s : Sys) (pid addr length prot : Nat) : Sys :=
  if addr % Mm.pageSize ≠ 0 ∨ length = 0 ∨ protRejected prot then s
  else
    match rangeOf addr length with
    | none => s
    | some (_,end_) =>
      let s := reprotect s pid addr end_ prot
      s.setVma pid (((s.vmas pid).removeRange addr end_).insertMerged ⟨addr,end_,prot,none⟩)

/-- The calls through descriptors, and those on the mappings that come from them. -/
inductive Call where
  | read (c : Ctx) (fd n : Nat)
  | write (c : Ctx) (fd : Nat) (data : List UInt8)
  | seek (c : Ctx) (fd : Nat) (whence : SeekFrom)
  | fstat (c : Ctx) (fd : Nat)
  | dup (c : Ctx) (fd : Nat)
  | dup2 (c : Ctx) (fd newFd : Nat)
  | close (c : Ctx) (fd : Nat)
  | truncate (c : Ctx) (fd : Nat) (length : UInt64)
  | fallocate (c : Ctx) (fd : Nat) (offset len : UInt64)
  | punchHole (c : Ctx) (fd : Nat) (offset len : UInt64)
  | fsync (c : Ctx) (fd : Nat)
  | mmapFile (c : Ctx) (addr length prot flags : Nat) (fd : Nat) (offset : UInt64)
  | touch (pid addr : Nat)
  | store (pid addr : Nat) (byte : UInt8)
  | msync (pid addr length : Nat)
  | munmap (pid addr length : Nat)
  | mprotect (pid addr length prot : Nat)

def step (s : Sys) : Call → Sys
  | .read c fd n => final (read c fd n) s
  | .write c fd data => final (write c fd data) s
  | .seek c fd whence => final (onVfs (Vfs.seek c fd whence)) s
  | .fstat c fd => final (fstat c fd) s
  | .dup c fd => final (onVfs (Vfs.dup c fd)) s
  | .dup2 c fd newFd => final (onVfs (Vfs.sysDup2 c fd newFd)) s
  | .close c fd => final (onVfs (Vfs.close c fd)) s
  | .truncate c fd length => final (truncate c fd length.toNat) s
  | .fallocate c fd offset len => final (fallocate c fd offset.toNat len.toNat) s
  | .punchHole c fd offset len => final (punchHole c fd offset.toNat len.toNat) s
  | .fsync c fd => final (fsync c fd) s
  | .mmapFile c addr length prot flags fd offset =>
    final (mmapFile c addr length prot flags fd offset.toNat) s
  | .touch pid addr => final (touch pid addr) s
  | .store pid addr byte => store s pid addr byte
  | .msync pid addr length => msync s pid addr length
  | .munmap pid addr length => munmap s pid addr length
  | .mprotect pid addr length prot => mprotect s pid addr length prot

def run (s : Sys) (os : List Call) : Sys := os.foldl step s

end Miku.Syscall
