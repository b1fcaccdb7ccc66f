import Mathlib.Data.BitVec

namespace Miku.Mm

/-- A raw page-table entry. -/
abbrev Pte := BitVec 64

def ptePresent : Pte := 0x1#64
def pteWritable : Pte := 0x2#64
def pteUser : Pte := 0x4#64
def pteCow : Pte := 0x200#64
def pteNoExecute : Pte := 0x8000000000000000#64
def pteAddrMask : Pte := 0x000FFFFFFFFFF000#64

namespace Pte

def has (p mask : Pte) : Bool := p &&& mask != 0#64

def present (p : Pte) : Bool := has p ptePresent
def writable (p : Pte) : Bool := has p pteWritable
def user (p : Pte) : Bool := has p pteUser
def cow (p : Pte) : Bool := has p pteCow
def noExecute (p : Pte) : Bool := has p pteNoExecute

def addr (p : Pte) : Nat := (p &&& pteAddrMask).toNat

/-- `PageTableEntry::set_addr`. -/
def setAddr (phys : Nat) (flags : Pte) : Pte := BitVec.ofNat 64 phys ||| flags

/-- How `clone_cow_inner` rewrites a present entry, in parent and child alike. -/
def toCow (p : Pte) : Pte := (p &&& ~~~pteWritable) ||| pteCow

/-- The entry for a private copy of a copy-on-write page. -/
def copied (p : Pte) (newPhys : Nat) : Pte :=
  (BitVec.ofNat 64 newPhys &&& pteAddrMask) ||| (p &&& ~~~pteAddrMask &&& ~~~pteCow) |||
    pteWritable

/-- The entry of the last owner of a copy-on-write page. -/
def unshared (p : Pte) : Pte := (p &&& ~~~pteCow) ||| pteWritable

end Pte

def swapPteMarker : Pte := 0x2#64

/-- Bit 0 clear, bit 1 the swap marker, bits 2-11 the saved flags, the slot above. -/
def makeSwapPteWithFlags (slot : Nat) (pteFlags : Pte) : Pte :=
  swapPteMarker ||| (pteFlags &&& 0xFFC#64) ||| (BitVec.ofNat 64 slot <<< 12)

def flagsFromSwapPte (raw : Pte) : Pte := raw &&& 0xFFC#64

def isSwapPte (raw : Pte) : Bool :=
  (raw &&& 1#64) == 0#64 && (raw &&& swapPteMarker) != 0#64 && raw != 0#64 &&
    (raw >>> 12) != 0#64

def slotFromPte (raw : Pte) : Nat := ((raw >>> 12) &&& 0xFFFFF#64).toNat

/-- The flags `try_swapin` maps the page with; an empty save means read-write. -/
def swapinFlags (raw : Pte) : Pte :=
  let saved := flagsFromSwapPte raw
  if saved != 0#64 then saved ||| ptePresent else ptePresent ||| pteWritable ||| pteUser

def protRead : Nat := 1
def protWrite : Nat := 2
def protExec : Nat := 4

def protHas (prot bit : Nat) : Bool := prot &&& bit != 0

/-- W^X: a request for both drops execution. -/
def protToFlags (prot : Nat) : Pte :=
  let prot := prot &&& (protRead ||| protWrite ||| protExec)
  let wantExec := protHas prot protExec && !protHas prot protWrite
  let f := ptePresent ||| pteUser
  let f := if protHas prot protWrite then f ||| pteWritable else f
  if !wantExec then f ||| pteNoExecute else f

open Function

/-- A table above the last level: the frame it occupies and, for each present
entry, the entry's flags with the table behind it. -/
structure Dir (α : Type) where
  frame : Nat
  entries : Nat → Option (Pte × α)

/-- A last-level table of raw entries. -/
structure P1 where
  frame : Nat
  ptes : Nat → Pte

abbrev P2 := Dir P1
abbrev P3 := Dir P2

/-- The user half of an address space, rooted at its `cr3` frame. The kernel
half is the same in every address space and is not represented. -/
abbrev P4 := Dir P3

/-- `PageTable::new()` written over a fresh frame. -/
def Dir.empty (α : Type) (frame : Nat) : Dir α := ⟨frame,fun _ => none⟩
def P1.empty (frame : Nat) : P1 := ⟨frame,fun _ => 0#64⟩

def Dir.set (d : Dir α) (i : Nat) (link : Pte × α) : Dir α :=
  { d with entries := update d.entries i (some link) }

def P1.set (p : P1) (i : Nat) (pte : Pte) : P1 := { p with ptes := update p.ptes i pte }

@[simp] theorem Dir.set_frame (d : Dir α) (i : Nat) (l : Pte × α) : (d.set i l).frame = d.frame := rfl

@[simp] theorem Dir.set_self (d : Dir α) (i : Nat) (l : Pte × α) :
    (d.set i l).entries i = some l := update_self _ _ _

theorem Dir.set_ne (d : Dir α) (h : j ≠ i) (l : Pte × α) :
    (d.set i l).entries j = d.entries j := update_of_ne h _ _

@[simp] theorem P1.set_frame (p : P1) (i : Nat) (pte : Pte) : (p.set i pte).frame = p.frame := rfl

@[simp] theorem P1.set_self (p : P1) (i : Nat) (pte : Pte) :
    (p.set i pte).ptes i = pte := update_self _ _ _

theorem P1.set_ne (p : P1) (h : j ≠ i) (pte : Pte) :
    (p.set i pte).ptes j = p.ptes j := update_of_ne h _ _

def ptIndex (virt level : Nat) : Nat := virt / 2 ^ (12 + 9 * level) % 512

/-- Entries of a directory that exist, in index order. -/
def userSlots : Nat := 256
def tableSlots : Nat := 512

/-- The entry the hardware finds for an address. -/
def P4.pteAt (p4 : P4) (virt : Nat) : Option Pte :=
  match p4.entries (ptIndex virt 3) with
  | none => none
  | some (_,p3) => match p3.entries (ptIndex virt 2) with
    | none => none
    | some (_,p2) => match p2.entries (ptIndex virt 1) with
      | none => none
      | some (_,p1) => some (p1.ptes (ptIndex virt 0))

/-- `walk_to_pte` followed by a read. A last-level table in frame zero is
treated as absent. -/
def P4.readPteRaw (p4 : P4) (virt : Nat) : Option Pte :=
  match p4.entries (ptIndex virt 3) with
  | none => none
  | some (_,p3) => match p3.entries (ptIndex virt 2) with
    | none => none
    | some (_,p2) => match p2.entries (ptIndex virt 1) with
      | none => none
      | some (_,p1) => if p1.frame = 0 then none else some (p1.ptes (ptIndex virt 0))

/-- `walk_to_pte` followed by a store; nothing happens when the walk fails. -/
def P4.writePteRaw (p4 : P4) (virt : Nat) (pte : Pte) : P4 :=
  match p4.entries (ptIndex virt 3) with
  | none => p4
  | some (f3,p3) => match p3.entries (ptIndex virt 2) with
    | none => p4
    | some (f2,p2) => match p2.entries (ptIndex virt 1) with
      | none => p4
      | some (f1,p1) =>
        if p1.frame = 0 then p4 else
          p4.set (ptIndex virt 3) (f3,p3.set (ptIndex virt 2) (f2,
            p2.set (ptIndex virt 1) (f1,p1.set (ptIndex virt 0) pte)))

end Miku.Mm
