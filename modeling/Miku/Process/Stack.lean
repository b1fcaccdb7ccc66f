import Miku.Lib.Descent

namespace Miku.Process
open Lib

def argMaxStringBytes : Nat := 131072
def argMaxVectorEntries : Nat := 8192
def stackEagerPages : Nat := 64
def eagerSize : Nat := stackEagerPages * 4096

/-- The part of the stack mapped before the program starts: its end, a page boundary, and
where it is in physical memory. -/
structure EagerStack where
  phys : Nat
  top : Nat
  aligned : top % 4096 = 0
  room : eagerSize + 4096 ≤ top
  small : top < 18446744073709551616

namespace EagerStack

def base (r : EagerStack) : Nat := r.top - eagerSize

/-- The stack that ends `slide` pages below the highest place for it. -/
def ofSlide (phys slide : Nat) (h : slide < 4096) : EagerStack where
  phys := phys
  top := 0x7FFFFFFF0000 - slide * 4096
  aligned := by omega
  room := by unfold eagerSize stackEagerPages; omega
  small := by omega

end EagerStack

variable (r : EagerStack)

def pushU64 (val : Nat) (s : Descent) : Descent := s.push r.base r.phys (le64Bytes val)

/-- The address returned is the stack pointer, here and for strings. -/
def pushBytes (bytes : List UInt8) (s : Descent) : Descent := s.push r.base r.phys bytes

/-- First the final 0, then the bytes of the string below it. -/
def pushCstr (b : List UInt8) (s : Descent) : Descent :=
  if s.overflow then s
  else if s.sp < r.base + (b.length + 1) then { s with overflow := true }
  else
    let sp := s.sp - 1
    let mem := put s.mem (hostOf r.base r.phys sp) [0]
    let sp := sp - b.length
    ⟨sp,s.overflow,put mem (hostOf r.base r.phys sp) b⟩

/-- Strings one after the other, with the addresses they get. -/
def pushCstrs : List (List UInt8) → Descent → List Nat × Descent
  | [], s => ([],s)
  | b :: bs, s =>
    let s := pushCstr r b s
    let p := pushCstrs bs s
    (s.sp :: p.1,p.2)

def pushWords (ws : List Nat) (s : Descent) : Descent := ws.reverse.foldl (fun s w => pushU64 r w s) s

/-- What the auxiliary vector says about the program and the processor. -/
structure AuxInfo where
  phdrVaddr : UInt64
  phentsize : UInt64
  phdrCount : UInt64
  interpBase : UInt64
  exeEntry : UInt64
  hwcap : UInt64

def atNull : Nat := 0
def atPhdr : Nat := 3
def atPhent : Nat := 4
def atPhnum : Nat := 5
def atPagesz : Nat := 6
def atBase : Nat := 7
def atFlags : Nat := 8
def atEntry : Nat := 9
def atUid : Nat := 11
def atEuid : Nat := 12
def atGid : Nat := 13
def atEgid : Nat := 14
def atPlatform : Nat := 15
def atHwcap : Nat := 16
def atClktck : Nat := 17
def atSecure : Nat := 23
def atRandom : Nat := 25
def atHwcap2 : Nat := 26
def atExecfn : Nat := 31
def atMinsigstksz : Nat := 51

def timerHzDefault : Nat := 250

def auxv (x : AuxInfo) (randomVa platformVa execfnVa : Nat) : List (Nat × Nat) :=
  [(atPhdr,x.phdrVaddr.toNat),(atPhent,x.phentsize.toNat),(atPhnum,x.phdrCount.toNat),
    (atPagesz,4096),(atBase,x.interpBase.toNat),(atFlags,0),(atEntry,x.exeEntry.toNat),
    (atUid,0),(atEuid,0),(atGid,0),(atEgid,0),(atSecure,0),(atRandom,randomVa),
    (atHwcap,x.hwcap.toNat),(atHwcap2,0),(atClktck,timerHzDefault),(atPlatform,platformVa),
    (atExecfn,execfnVa),(atMinsigstksz,2048),(atNull,0)]

/-- The bytes of `"x86_64"`. -/
def platform : List UInt8 := [0x78,0x38,0x36,0x5f,0x36,0x34]

/-- The bytes counted against the limit: the path, `"x86_64"`, the random bytes and the
strings with their final 0. Additions saturate only above the limit. -/
def strBytes (path : List UInt8) (args envs : List (List UInt8)) : Nat :=
  path.length + 1 + 7 + 16 + (args.map fun a => a.length + 1).sum +
    (envs.map fun e => e.length + 1).sum

/-- A program without arguments gets its path as the only one. -/
def argStrings (path : List UInt8) (args : List (List UInt8)) : List (List UInt8) :=
  (List.range (max args.length 1)).map fun i => (args[i]?).getD path

/-- Strings and words, from the stack pointer of `s` down. -/
def fillStack (random : Vector UInt8 16) (path : List UInt8) (args envs : List (List UInt8))
    (x : AuxInfo) (s : Descent) : Descent :=
  let randomAt := pushBytes r random.toList s
  let execfnAt := pushCstr r path randomAt
  let platformAt := pushCstr r platform execfnAt
  let argc := max args.length 1
  let argv := pushCstrs r (argStrings path args) platformAt
  let envc := envs.length
  let envp := pushCstrs r envs argv.2
  let s := { envp.2 with sp := envp.2.sp / 16 * 16 }
  let aux := auxv x randomAt.sp platformAt.sp execfnAt.sp
  let words := aux.length * 2 + (envc + 1) + (argc + 1) + 1
  let s := if words % 2 = 1 then { s with sp := s.sp - 8 } else s
  let s := aux.reverse.foldl (fun s kv => pushU64 r kv.1 (pushU64 r kv.2 s)) s
  let s := pushU64 r 0 s
  let s := pushWords r envp.1 s
  let s := pushU64 r 0 s
  let s := pushWords r argv.1 s
  pushU64 r argc s

def setupStack (random : Vector UInt8 16) (path : List UInt8) (args envs : List (List UInt8))
    (x : AuxInfo) (mem : Bytes) : Option Nat × Bytes :=
  if argMaxVectorEntries < args.length + envs.length then (none,mem)
  else if argMaxStringBytes < strBytes path args envs then (none,mem)
  else
    let s := fillStack r random path args envs x ⟨r.top,false,mem⟩
    (if s.overflow then none else some s.sp,s.mem)

end Miku.Process
