import Mathlib.Algebra.Ring.Nat
import Miku.Lib.OrdMap

namespace Miku.Mm
open Lib (OrdMap)

def pageSize : Nat := 4096
def mmapBase : Nat := 0x100000000
def mmapLimit : Nat := 0x7F0000000000
def brkBase : Nat := 0x6000000000
def userEnd : Nat := 0x800000000000

def u64Size : Nat := 2 ^ 64

def checkedAdd (a b : Nat) : Option Nat := if a + b < u64Size then some (a + b) else none

/-- Round up to a page, unless that wraps. -/
def checkedAlignUp (length : Nat) : Option Nat :=
  (checkedAdd length (pageSize - 1)).map (fun v => v / pageSize * pageSize)

def userEndFor (start size : Nat) : Option Nat :=
  (checkedAdd start size).filter (fun e => start < e && e ≤ userEnd)

structure FileBacking where
  vnodeId : Nat
  /-- File byte offset corresponding to the start of the mapping. -/
  fileOff : Nat
  fileSize : Nat
  shared : Bool
  deriving DecidableEq, Repr

/-- The backing of a mapping that starts `d` bytes further on. -/
def FileBacking.advance (b : FileBacking) (d : Nat) : FileBacking :=
  { b with fileOff := (b.fileOff + d) % u64Size }

structure Vma where
  start : Nat
  end_ : Nat
  prot : Nat
  /-- `none` is an anonymous mapping. -/
  backing : Option FileBacking
  deriving DecidableEq, Repr

structure VmaMap where
  vmas : OrdMap Vma
  brk : Nat
  brkFloor : Nat

namespace VmaMap

def new : VmaMap := ⟨.empty,brkBase,brkBase⟩

def insert (m : VmaMap) (v : Vma) : VmaMap := { m with vmas := m.vmas.insert v.start v }

/-- Cut `[s, e)` out of the VMA stored under one key. -/
def cutKey (s e : Nat) (vmas : OrdMap Vma) (k : Nat) : OrdMap Vma :=
  match vmas.get? k with
  | none => vmas
  | some v =>
    let vmas := vmas.erase k
    let vmas := if v.start < s then vmas.insert v.start ⟨v.start,s,v.prot,v.backing⟩ else vmas
    if v.end_ > e then
      vmas.insert e ⟨e,v.end_,v.prot,v.backing.map (fun b => b.advance (e - v.start))⟩
    else vmas

def overlapKeys (m : VmaMap) (s e : Nat) : List Nat :=
  ((m.vmas.below e).filter (fun kv => kv.2.end_ > s)).map Prod.fst

def removeRange (m : VmaMap) (s e : Nat) : VmaMap :=
  { m with vmas := (m.overlapKeys s e).foldl (cutKey s e) m.vmas }

def lastGap (size cursor : Nat) : Option Nat :=
  (checkedAdd cursor size).bind (fun end_ => if end_ ≤ mmapLimit then some cursor else none)

def scanGaps (size : Nat) : List Vma → Nat → Option Nat
  | [], cursor => lastGap size cursor
  | v :: vs, cursor =>
    if v.start ≥ mmapLimit then lastGap size cursor
    else match checkedAdd cursor size with
      | none => none
      | some end_ =>
        if end_ ≤ v.start then some cursor
        else scanGaps size vs (if v.end_ > cursor then v.end_ else cursor)

/-- The search starts past a VMA whose tail overlaps the base. -/
def firstCursor (m : VmaMap) : Nat :=
  match (m.vmas.upTo mmapBase).getLast? with
  | some (_,v) => if v.end_ > mmapBase then v.end_ else mmapBase
  | none => mmapBase

def findFree (m : VmaMap) (size : Nat) : Option Nat :=
  if size = 0 then none else
    scanGaps size ((m.vmas.fromKey m.firstCursor).map Prod.snd) m.firstCursor

/-- Absorb the anonymous neighbour that ends where `v` starts. -/
def absorbPrev (vmas : OrdMap Vma) (v : Vma) : OrdMap Vma × Vma :=
  match (vmas.below v.start).getLast? with
  | none => (vmas,v)
  | some (_,prev) =>
    if prev.end_ = v.start ∧ prev.prot = v.prot ∧ prev.backing = none then
      (vmas.erase prev.start,{ v with start := prev.start })
    else (vmas,v)

/-- Absorb the anonymous neighbour that starts where `v` ends. -/
def absorbNext (vmas : OrdMap Vma) (v : Vma) : OrdMap Vma × Vma :=
  match vmas.get? v.end_ with
  | none => (vmas,v)
  | some next =>
    if next.prot = v.prot ∧ next.backing = none then
      (vmas.erase next.start,{ v with end_ := next.end_ })
    else (vmas,v)

/-- Only anonymous mappings merge; file-backed ones carry their own offset. -/
def insertMerged (m : VmaMap) (v : Vma) : VmaMap :=
  if v.backing = none then
    let (vmas,v) := absorbPrev m.vmas v
    let (vmas,v) := absorbNext vmas v
    { m with vmas := vmas.insert v.start v }
  else m.insert v

def findAndInsert (m : VmaMap) (size prot : Nat) (backing : Option FileBacking) :
    Option (Nat × VmaMap) :=
  (m.findFree size).bind fun base =>
    (checkedAdd base size).map fun end_ => (base,m.insertMerged ⟨base,end_,prot,backing⟩)

def find (m : VmaMap) (addr : Nat) : Option Vma :=
  match (m.vmas.upTo addr).getLast? with
  | none => none
  | some (_,v) => if v.end_ > addr then some v else none

end VmaMap

end Miku.Mm
