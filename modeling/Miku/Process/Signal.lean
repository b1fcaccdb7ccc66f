import Miku.Lib.Bytes

namespace Miku.Process
open Lib

def userMax : Nat := 0x00007FFFFFFFFFFF

def SIGQUIT : Nat := 3

def SIGFRAME_WORDS : Nat := 5

/-- A process at the end of a system call: the user context that `sysret` will load, its
memory, and its signals. `writable` says that a page is the user's, present and writable
once lazy pages are filled and shared ones copied. -/
structure Context where
  rip : BitVec 64
  rsp : BitVec 64
  /-- What the system call returns. -/
  rax : BitVec 64
  rflags : BitVec 64
  mem : Bytes
  mapped : Nat → Bool
  writable : Nat → Bool
  mapped_of_writable : ∀ p, writable p → mapped p
  sigEntry : BitVec 64
  sigInDelivery : Bool
  pendingSig : BitVec 32
  killed : Option Nat

namespace Context

variable (c : Context)

/-- The pages of a range that lies in the user half. -/
def checkRange (ptr len : Nat) : Option (List Nat) :=
  if ptr = 0 ∨ len = 0 then none
  else if ptr > userMax then none
  else if ptr + len > userMax + 1 then none
  else some (List.range' (ptr / 4096) ((ptr + len + 0xFFF) / 4096 - ptr / 4096))

def userPtrMapped (ptr len : Nat) : Bool := (checkRange ptr len).any fun pages => pages.all c.mapped

def userPtrWritable (ptr len : Nat) : Bool := (checkRange ptr len).any fun pages => pages.all c.writable

/-- `trailing_zeros` of a set that is not empty. -/
def lowest (pending : BitVec 32) : Option Nat := (List.range 32).find? fun i => pending.getLsbD i

/-- The frame goes below the stack pointer, aligned to 16 bytes. -/
def frame : Nat := (c.rsp - 40#64).toNat / 16 * 16

def frameWords (sig : Nat) : List Nat := [sig,c.rip.toNat,c.rsp.toNat,c.rax.toNat,c.rflags.toNat]

def deliverPending : Context :=
  if c.sigEntry = 0 ∨ c.sigInDelivery then c
  else
    match lowest c.pendingSig with
    | none => c
    | some sig =>
      let c := { c with pendingSig := c.pendingSig &&& ~~~(1#32 <<< sig) }
      if !c.userPtrWritable c.frame (SIGFRAME_WORDS * 8) then { c with killed := some (128 + sig) }
      else
        { c with
          mem := put c.mem c.frame ((c.frameWords sig).flatMap le64Bytes)
          sigInDelivery := true
          rip := c.sigEntry
          rsp := BitVec.ofNat 64 c.frame }

/-- The word at an index of a frame. -/
def word (ptr i : Nat) : BitVec 64 := BitVec.ofNat 64 (le64 c.mem (ptr + 8 * i))

def sysSigreturn (framePtr : Nat) : Context :=
  if !c.userPtrMapped framePtr (SIGFRAME_WORDS * 8) then
    { c with
      killed := some (128 + SIGQUIT)
      rax := 0 }
  else if (c.word framePtr 1).toNat > userMax ∨ (c.word framePtr 2).toNat > userMax then
    { c with
      killed := some (128 + SIGQUIT)
      rax := 0 }
  else
    { c with
      rip := c.word framePtr 1
      rsp := c.word framePtr 2
      rax := c.word framePtr 3
      rflags := (c.word framePtr 4 &&& 0xCD5#64) ||| 0x202#64
      sigInDelivery := false }

/-- The end of the call sends the process to its handler. -/
def redirects : Bool := c.killed.isNone && !c.sigInDelivery && c.deliverPending.sigInDelivery

/-- A delivery, and the return of the handler with the frame it got. Then the end of
`sys_sigreturn` may deliver the next signal. -/
def serve : Context :=
  if c.killed.isSome then c
  else if c.redirects then c.deliverPending.sysSigreturn c.deliverPending.rsp.toNat
  else c.deliverPending

/-- Meanwhile more signals come. -/
def step (arrived : BitVec 32) : Context :=
  { c.serve with pendingSig := c.serve.pendingSig ||| arrived }

end Context

end Miku.Process
