import Miku.Vfs.FileOps

namespace Miku.Vfs
open Miku.Lib

/-- What the users of files in memory see: the files, and where each descriptor is. -/
structure World where
  file : Nat → Option ByteFile
  appendOnly : Nat → Bool
  fds : Nat → FdTable

namespace World

def update (w : World) (id : Nat) (f : ByteFile → ByteFile) : World :=
  { w with file := Function.update w.file id ((w.file id).map f) }

def moveTo (w : World) (pid fd offset : Nat) : World :=
  { w with fds := Function.update w.fds pid (Function.update (w.fds pid) fd
      ((w.fds pid fd).map fun f => { f with offset := offset })) }

def withFd (w : World) (pid fd : Nat) (f : OpenFile) : World :=
  { w with fds := Function.update w.fds pid (Function.update (w.fds pid) fd (some f)) }

/-- Some files may be new, and are empty then; nothing else differs. -/
structure Grows (w w' : World) : Prop where
  old : ∀ id b, w.file id = some b → w'.file id = some b
  new : ∀ id, w.file id = none → w'.file id = none ∨ w'.file id = some .empty
  appendOnly : ∀ id b, w.file id = some b → w'.appendOnly id = w.appendOnly id
  fds : w'.fds = w.fds

end World

/-- Where a write through a descriptor starts. -/
def writeStart (w : World) (b : ByteFile) (f : OpenFile) : Nat :=
  if f.flags.has OpenFlags.append || w.appendOnly f.vnodeId then b.size else f.offset

def seekGoal (size offset : Nat) : SeekFrom → Int
  | .start pos => pos.toNat
  | .current delta => offset + delta.toInt
  | .end_ delta => size + delta.toInt

/-- A write cuts what does not fit into a file, and does nothing without data. -/
def written (b : ByteFile) (off : Nat) (data : List UInt8) : ByteFile :=
  if data.isEmpty then b else b.write off (data.take (AddressSpace.maxSize - off))

def writtenLength (off : Nat) (data : List UInt8) : Nat := min data.length (AddressSpace.maxSize - off)

/-- What a call that succeeds does to files that are arrays of bytes. A call on anything
else is only asked to leave those alone. -/
def Spec (w : World) : Call → Answer → World → Prop
  | .read c fd n, .bytes bs, w' => ∃ f, w.fds c.pid fd = some f ∧ f.flags.readable = true ∧
      (∀ b, w.file f.vnodeId = some b →
        bs = b.read f.offset n ∧ w' = w.moveTo c.pid fd (f.offset + bs.length)) ∧
      (w.file f.vnodeId = none → ∃ off, w' = w.moveTo c.pid fd off)
  | .write c fd data, .num n, w' => ∃ f, w.fds c.pid fd = some f ∧ f.flags.writable = true ∧
      (∀ b, w.file f.vnodeId = some b →
        if data.isEmpty then n = 0 ∧ w' = w
        else n = writtenLength (writeStart w b f) data ∧ writeStart w b f < AddressSpace.maxSize ∧
          w' = (w.update f.vnodeId fun b => written b (writeStart w b f) data).moveTo c.pid fd
            (writeStart w b f + n)) ∧
      (w.file f.vnodeId = none → ∃ off, w' = w.moveTo c.pid fd off)
  | .seek c fd whence, .num n, w' => ∃ f, w.fds c.pid fd = some f ∧
      (∀ b, w.file f.vnodeId = some b → (n : Int) = seekGoal b.size f.offset whence) ∧
      w' = w.moveTo c.pid fd n
  | .readAt id off n, .bytes bs, w' => w' = w ∧ ∀ b, w.file id = some b → bs = b.read off.toNat n
  | .writeAt id off data, .num n, w' =>
      (∀ b, w.file id = some b → n = if data.isEmpty then 0 else writtenLength off.toNat data) ∧
      w' = w.update id fun b => written b off.toNat data
  | .truncateTo id size, .done, w' => w' = w.update id fun b => b.resize size.toNat
  | .truncate c fd size, .done, w' => ∃ f, w.fds c.pid fd = some f ∧
      w' = w.update f.vnodeId fun b => b.resize size.toNat
  | .open c _ _ flags _, .num fd, w' => ∃ id, w.fds c.pid fd = none ∧
      w'.fds = (w.withFd c.pid fd ⟨id,flags,0⟩).fds ∧
      (∀ j b, w.file j = some b → w'.file j = some
        (if j = id ∧ flags.has OpenFlags.truncate ∧ flags.writable then .empty else b)) ∧
      (∀ j, w.file j = none → w'.file j = none ∨ j = id ∧ w'.file j = some .empty) ∧
      ∀ j b, w.file j = some b → w'.appendOnly j = w.appendOnly j
  | _, _, _ => False

end Miku.Vfs
