import Miku.Ext.Structs
import Miku.Lib.Checked

/-! The walks over an extent tree as they run on a disk of any contents: each read of a
buffer, each sum of 32 bits and each call below the last one can fault. -/

namespace Miku.Ext
open Lib

/-- What the walks use of a file system. `readBlockInto` gives the buffer of 4096 bytes
after the read, with zeroes behind a smaller block. The error of `freeBlock` is dropped,
so that only the state after it is left. -/
structure Device (σ : Type) where
  blockSize : σ → Nat
  readBlockInto : σ → Nat → Except FsError Bytes
  freeBlock : σ → Nat → σ

def Volume.freed (v : Volume) (b : Nat) : Volume :=
  match freeBlock b v with
  | .ok _ v => v
  | .error _ v => v

def Volume.device : Device Volume := ⟨Volume.blockSize,Volume.readBlock,Volume.freed⟩

namespace Walk

def u32 : Nat := 4294967296

/-- A value whose bytes end at `stop`, in a buffer of `limit` bytes. -/
def within {α : Type} (limit stop : Nat) (a : α) : Checked α :=
  if stop ≤ limit then .ok a else .error .index

def extentAt (buf : Bytes) (k : Nat) : Checked Extent :=
  within 4096 (12 + 12 * k + 12) (extentIn buf k)

def idxAt (buf : Bytes) (k : Nat) : Checked ExtentIdx :=
  within 4096 (12 + 12 * k + 10) (idxIn buf k)

/-- Where an extent starts, as far as 32 bits tell, and how long it is. -/
def runAt (buf : Bytes) (k : Nat) : Checked (Nat × Nat) :=
  within 4096 (12 + 12 * k + 12) ((extentIn buf k).startLo,(extentIn buf k).actualLen)

def childAt (buf : Bytes) (k : Nat) : Checked Nat :=
  within 4096 (12 + 12 * k + 8) (idxIn buf k).leafLo

/-! ### The entries of an inode

They start at byte 52 of the 256 of an inode. Nothing keeps the reads to the four that
are in `i_block`. -/

def rootExtentAt (i : Inode) (k : Nat) : Checked Extent :=
  within 256 (52 + 12 * k + 12) (i.extentAt k)

def rootIdxAt (i : Inode) (k : Nat) : Checked ExtentIdx :=
  within 256 (52 + 12 * k + 10) (i.extentIdxAt k)

def rootRunAt (i : Inode) (k : Nat) : Checked (Nat × Nat) := do
  let e ← rootExtentAt i k
  pure (e.start % u32,e.actualLen)

def rootChildAt (i : Inode) (k : Nat) : Checked Nat := do
  let e ← rootIdxAt i k
  pure (e.leaf % u32)

/-- The end of the extent is computed only if it starts early enough. -/
def covers (e : Extent) (l : Nat) : Checked Bool :=
  if e.block ≤ l then do
    let stop ← fit u32 (e.block + e.actualLen)
    pure (decide (l < stop))
  else pure false

def searchLeaf (at_ : Nat → Checked Extent) (l : Nat) : List Nat → Checked Nat
  | [] => pure 0
  | k :: ks => do
    let e ← at_ k
    let hit ← covers e l
    if hit then pure ((e.start + (l - e.block)) % u32) else searchLeaf at_ l ks

def searchIndex (at_ : Nat → Checked ExtentIdx) (l : Nat) : List Nat → Nat → Checked Nat
  | [], t => pure t
  | k :: ks, t => do
    let e ← at_ k
    searchIndex at_ l ks (if e.block ≤ l then e.leaf else t)

variable {σ : Type} (D : Device σ)

/-- `k` with the buffer that block `b` was read into, or `fail` with the error. -/
def onBlock {β : Type} (s : σ) (b : Nat) (fail : FsError → Checked β) (k : Bytes → Checked β) :
    Checked β :=
  if D.blockSize s ≤ 4096 then
    match D.readBlockInto s b with
    | .error e => fail e
    | .ok buf => k buf
  else .error .slice

/-- `frames` is how many calls the stack has room for. -/
def searchExtentTree (s : σ) (l : Nat) : Nat → Nat → Nat → Checked (Except FsError Nat)
  | 0, _, _ => .error .endless
  | frames + 1, depth, b =>
    onBlock D s b (fun e => pure (.error e)) fun buf =>
      if le16 buf 0 ≠ extMagic then pure (.error .corruptedFs)
      else if depth = 0 then do
        let p ← searchLeaf (extentAt buf) l (List.range (le16 buf 2))
        pure (.ok p)
      else do
        let t ← searchIndex (idxAt buf) l (List.range (le16 buf 2)) 0
        if t = 0 then pure (.ok 0) else searchExtentTree s l frames (depth - 1) (t % u32)

def getFileBlockExtent (s : σ) (frames : Nat) (i : Inode) (l : Nat) :
    Checked (Except FsError Nat) :=
  let h := i.extentHeader
  if h.magic ≠ extMagic then pure (.error .corruptedFs)
  else if h.depth = 0 then do
    let p ← searchLeaf (rootExtentAt i) l (List.range h.entries)
    pure (.ok p)
  else do
    let t ← searchIndex (rootIdxAt i) l (List.range h.entries) 0
    if t = 0 then pure (.ok 0) else searchExtentTree D s l frames (h.depth - 1) (t % u32)

/-- The blocks `start + b` in turn, with the count of those freed. -/
def freeRun (start : Nat) : List Nat → Nat → σ → Checked (Nat × σ)
  | [], freed, s => pure (freed,s)
  | b :: bs, freed, s => do
    let block ← fit u32 (start + b)
    let freed ← fit u32 (freed + 1)
    freeRun start bs freed (D.freeBlock s block)

def freeLeaf (at_ : Nat → Checked (Nat × Nat)) : List Nat → Nat → σ → Checked (Nat × σ)
  | [], freed, s => pure (freed,s)
  | k :: ks, freed, s => do
    let run ← at_ k
    let (freed,s) ← freeRun D run.1 (List.range run.2) freed s
    freeLeaf at_ ks freed s

/-- `down` frees what is below a child, and the child itself goes after that. -/
def freeIndex (down : Nat → σ → Checked (Except FsError Nat × σ)) (at_ : Nat → Checked Nat) :
    List Nat → Nat → σ → Checked (Except FsError Nat × σ)
  | [], freed, s => pure (.ok freed,s)
  | k :: ks, freed, s => do
    let child ← at_ k
    if child = 0 then freeIndex down at_ ks freed s
    else
      match ← down child s with
      | (.error e,s) => pure (.error e,s)
      | (.ok below,s) => do
        let freed ← fit u32 (freed + below)
        let freed ← fit u32 (freed + 1)
        freeIndex down at_ ks freed (D.freeBlock s child)

/-- The magic number of the block is not looked at. -/
def ext4FreeExtentTreeBlock : Nat → Nat → Nat → σ → Checked (Except FsError Nat × σ)
  | 0, _, _, _ => .error .endless
  | frames + 1, depth, b, s =>
    onBlock D s b (fun e => pure (.error e,s)) fun buf =>
      if depth = 0 then do
        let (freed,s) ← freeLeaf D (runAt buf) (List.range (le16 buf 2)) 0 s
        pure (.ok freed,s)
      else
        freeIndex D (ext4FreeExtentTreeBlock frames (depth - 1)) (childAt buf)
          (List.range (le16 buf 2)) 0 s

def ext4FreeExtentBlocks (frames : Nat) (i : Inode) (s : σ) : Checked (Except FsError Nat × σ) :=
  let h := i.extentHeader
  if h.magic ≠ extMagic then pure (.ok 0,s)
  else if h.depth = 0 then do
    let (freed,s) ← freeLeaf D (rootRunAt i) (List.range h.entries) 0 s
    pure (.ok freed,s)
  else
    freeIndex D (ext4FreeExtentTreeBlock D frames (h.depth - 1)) (rootChildAt i)
      (List.range h.entries) 0 s

/-- A logical block, a physical one and a length. -/
abbrev Mapped := Nat × Nat × Nat

/-- The caller's slice has room for `cap` of them; `out` is what is filled in. -/
def listLeaf (cap : Nat) (at_ : Nat → Checked Extent) :
    List Nat → List Mapped → Checked (List Mapped)
  | [], out => pure out
  | k :: ks, out =>
    if cap ≤ out.length then pure out
    else do
      let e ← at_ k
      listLeaf cap at_ ks (out ++ [(e.block,e.start % u32,e.actualLen)])

def listIndex (cap : Nat) (down : Nat → List Mapped → Checked (Except FsError (List Mapped)))
    (at_ : Nat → Checked Nat) : List Nat → List Mapped → Checked (Except FsError (List Mapped))
  | [], out => pure (.ok out)
  | k :: ks, out =>
    if cap ≤ out.length then pure (.ok out)
    else do
      let child ← at_ k
      if child = 0 then listIndex cap down at_ ks out
      else
        match ← down child out with
        | .error e => pure (.error e)
        | .ok out => listIndex cap down at_ ks out

def ext4FiemapNode (s : σ) (cap : Nat) :
    Nat → Nat → Nat → List Mapped → Checked (Except FsError (List Mapped))
  | 0, _, _, _ => .error .endless
  | frames + 1, depth, b, out =>
    onBlock D s b (fun e => pure (.error e)) fun buf =>
      if le16 buf 0 ≠ extMagic then pure (.error .corruptedFs)
      else if depth = 0 then do
        let out ← listLeaf cap (extentAt buf) (List.range (le16 buf 2)) out
        pure (.ok out)
      else
        listIndex cap (ext4FiemapNode s cap frames (depth - 1)) (childAt buf)
          (List.range (le16 buf 2)) out

def ext4FiemapTree (s : σ) (cap frames : Nat) (i : Inode) (depth : Nat) (out : List Mapped) :
    Checked (Except FsError (List Mapped)) :=
  listIndex cap (ext4FiemapNode D s cap frames (depth - 1)) (rootChildAt i)
    (List.range i.extentHeader.entries) out

/-- The listing of an inode that uses extents. -/
def ext4Fiemap (s : σ) (cap frames : Nat) (i : Inode) : Checked (Except FsError (List Mapped)) :=
  let h := i.extentHeader
  if h.magic ≠ extMagic then pure (.error .corruptedFs)
  else if h.depth = 0 then do
    let out ← listLeaf cap (rootExtentAt i) (List.range h.entries) []
    pure (.ok out)
  else ext4FiemapTree D s cap frames i h.depth []

end Walk
end Miku.Ext
