import Miku.Lib.Run

/-! The buffered writer of `bufio.rs`. The kernel is the sequence of its answers: a negative
number or zero for a write that fails, else how many bytes it would take. -/

namespace Miku.Libmiku.BufWriter

def defaultBufSize : Nat := 4096

def bufioFull : UInt32 := 0

def bufioLine : UInt32 := 1

def bufioNone : UInt32 := 2

/-- `buf` are the pending bytes. The last two fields are the kernel's: how many writes it
was asked for, and what it took. -/
structure Writer where
  allocated : Bool
  cap : Nat
  buf : List UInt8
  mode : UInt32
  calls : Nat
  accepted : List UInt8

def withCapacity (cap : Nat) (allocated : Bool) : Writer :=
  ⟨allocated,if cap = 0 then defaultBufSize else cap,[],bufioFull,0,[]⟩

variable (answers : Nat → Int)

def kernelWrite (data : List UInt8) (w : Writer) : Int × Writer :=
  let n := min (answers w.calls) data.length
  (n,{ w with calls := w.calls + 1, accepted := w.accepted ++ data.take n.toNat })

/-- Write out what is pending. What the kernel does not take moves to the front. -/
def drain (w : Writer) : Int × Writer :=
  let (n,w') := kernelWrite answers w.buf w
  (n,{ w' with buf := w.buf.drop n.toNat })

def flush (w : Writer) : Int × Writer :=
  if w.buf = [] ∨ !w.allocated then (0,w) else drain answers w

def copy (chunk : List UInt8) (w : Writer) : Writer := { w with buf := w.buf ++ chunk }

/-- One round of the copy loop, with the bytes left to copy. -/
def round (src : List UInt8) (w : Writer) : List UInt8 × Writer :=
  let chunk := src.take (w.cap - w.buf.length)
  let w := copy chunk w
  let w := if w.mode = bufioLine ∧ 10 ∈ chunk then (drain answers w).2 else w
  let w := if w.buf.length ≥ w.cap then (drain answers w).2 else w
  (src.drop chunk.length,w)

def writeLoop : Nat → List UInt8 → Writer → Option Writer
  | 0,_,_ => none
  | fuel + 1,src,w =>
    if src = [] then some w
    else writeLoop fuel (round answers src w).1 (round answers src w).2

def write (fuel : Nat) (src : List UInt8) (w : Writer) : Option (Int × Writer) :=
  if !w.allocated then some (-1,w)
  else if w.mode = bufioNone then some (kernelWrite answers src w)
  else (writeLoop answers fuel src w).map fun w => (src.length,w)

/-- `putc` and `puts` are writes of one byte and of the bytes before the first zero. -/
inductive Call where
  | write (src : List UInt8)
  | putc (c : UInt8)
  | puts (s : List UInt8)
  | setMode (mode : UInt32)
  | flush

/-- What the call passes to `write`, if it is one. -/
def Call.data : Call → Option (List UInt8)
  | .write src => some src
  | .putc c => some [c]
  | .puts s => some (s.takeWhile (· ≠ 0))
  | .setMode _ | .flush => none

/-- The writer, and the data of all writes that succeeded. -/
structure Log where
  writer : Writer
  sent : List UInt8

def pass (fuel : Nat) (l : Log) (src : List UInt8) : Option Log :=
  (write answers fuel src l.writer).map fun r => ⟨r.2,if r.1 > 0 then l.sent ++ src else l.sent⟩

def step (fuel : Nat) (l : Log) : Call → Option Log
  | .write src => pass answers fuel l src
  | .putc c => pass answers fuel l [c]
  | .puts s => pass answers fuel l (s.takeWhile (· ≠ 0))
  | .setMode mode => some { l with writer := { l.writer with mode := mode } }
  | .flush => some { l with writer := (flush answers l.writer).2 }

end Miku.Libmiku.BufWriter
