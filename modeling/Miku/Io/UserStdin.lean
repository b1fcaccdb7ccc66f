/-! The console input of the foreground process. Echo is left out, and so are the tests for
a foreground process: the model is of the time in which there is one. -/

namespace Miku.Io

def readBufSize : Nat := 1024
def lineBufSize : Nat := 256

structure Termios where
  icanon : Bool
  isig : Bool

structure Inner where
  readRing : List UInt8 := []
  lineBuf : List UInt8 := []
  eof : Bool := false

/-- One slot of the ring stays free. -/
def ringPush (ring : List UInt8) (b : UInt8) : List UInt8 :=
  if ring.length + 1 = readBufSize then ring else ring ++ [b]

/-- The ring as it lies in memory; the list has the bytes from `head` to `tail`. -/
structure ReadRing where
  buf : Nat → UInt8
  head : Nat
  tail : Nat
  inside : head < readBufSize ∧ tail < readBufSize

namespace ReadRing

def push (r : ReadRing) (byte : UInt8) : ReadRing :=
  let next := (r.tail + 1) % readBufSize
  if next = r.head then r
  else ⟨fun i => if i = r.tail then byte else r.buf i,r.head,next,r.inside.1,Nat.mod_lt _ (by decide)⟩

def pop (r : ReadRing) : Option (UInt8 × ReadRing) :=
  if r.head = r.tail then none
  else some (r.buf r.head,
    ⟨r.buf,(r.head + 1) % readBufSize,r.tail,Nat.mod_lt _ (by decide),r.inside.2⟩)

end ReadRing

def linePush (line : List UInt8) (b : UInt8) : List UInt8 :=
  if lineBufSize ≤ line.length then line else line ++ [b]

def feedChar (t : Termios) (s : Inner) (c : Char) : Inner :=
  if t.isig ∧ c = '\x03' then { s with readRing := [], lineBuf := [] }
  else if t.isig ∧ c = '\x1c' then s
  else if ¬t.icanon then { s with readRing := ringPush s.readRing c.toUInt8 }
  else if c = '\n' then
    { s with readRing := ringPush (s.lineBuf.foldl ringPush s.readRing) 10, lineBuf := [] }
  else if c = '\x08' ∨ c = '\x7f' then { s with lineBuf := s.lineBuf.dropLast }
  else if c = '\x04' then
    if s.lineBuf = [] then { s with eof := true }
    else { s with readRing := s.lineBuf.foldl ringPush s.readRing, lineBuf := [] }
  else if c = '\x15' then { s with lineBuf := [] }
  else if ' ' ≤ c ∧ c.toNat < 127 then { s with lineBuf := linePush s.lineBuf c.toUInt8 }
  else s

/-- A read that `waits` looks again later. -/
inductive Reply
  | error
  | waits
  | bytes (l : List UInt8)

def read (s : Inner) (bufPtr len : Nat) : Reply × Inner :=
  if bufPtr = 0 ∨ len = 0 ∨ bufPtr < 0x1000 ∨ 0x00007FFFFFFFFFFF < bufPtr then (.error,s)
  else if s.readRing = [] then
    if s.eof then (.bytes [],{ s with eof := false }) else (.waits,s)
  else
    let maxRead := min len readBufSize
    (.bytes (s.readRing.take maxRead),{ s with readRing := s.readRing.drop maxRead })

end Miku.Io
