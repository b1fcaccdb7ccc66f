import Miku.Net.Http

namespace Miku.Net.Hpack
open Lib
open Net.Http (ascii fromUtf8 parseUnsigned)

def staticNames : List (String × String) :=
  [(":authority",""),(":method","GET"),(":method","POST"),(":path","/"),(":path","/index.html"),
    (":scheme","http"),(":scheme","https"),(":status","200"),(":status","204"),(":status","206"),
    (":status","304"),(":status","400"),(":status","404"),(":status","500"),("accept-charset",""),
    ("accept-encoding","gzip, deflate"),("accept-language",""),("accept-ranges",""),("accept",""),
    ("access-control-allow-origin",""),("age",""),("allow",""),("authorization",""),
    ("cache-control",""),("content-disposition",""),("content-encoding",""),
    ("content-language",""),("content-length",""),("content-location",""),("content-range",""),
    ("content-type",""),("cookie",""),("date",""),("etag",""),("expect",""),("expires",""),
    ("from",""),("host",""),("if-match",""),("if-modified-since",""),("if-none-match",""),
    ("if-range",""),("if-unmodified-since",""),("last-modified",""),("link",""),("location",""),
    ("max-forwards",""),("proxy-authenticate",""),("proxy-authorization",""),("range",""),
    ("referer",""),("refresh",""),("retry-after",""),("server",""),("set-cookie",""),
    ("strict-transport-security",""),("transfer-encoding",""),("user-agent",""),("vary",""),
    ("via",""),("www-authenticate","")]

def hpackStatic : List (List UInt8 × List UInt8) :=
  staticNames.map fun e => (ascii e.1,ascii e.2)

/-- Codes with their numbers of bits. The character of an entry is its place. -/
def huffmanCodes : List (Nat × Nat) :=
  [(0x1ff8,13),(0x7fffd8,23),(0xfffffe2,28),(0xfffffe3,28),(0xfffffe4,28),(0xfffffe5,28),
    (0xfffffe6,28),(0xfffffe7,28),(0xfffffe8,28),(0xffffea,24),(0x3ffffffc,30),(0xfffffe9,28),
    (0xfffffea,28),(0x3ffffffd,30),(0xfffffeb,28),(0xfffffec,28),(0xfffffed,28),(0xfffffee,28),
    (0xfffffef,28),(0xffffff0,28),(0xffffff1,28),(0xffffff2,28),(0x3ffffffe,30),(0xffffff3,28),
    (0xffffff4,28),(0xffffff5,28),(0xffffff6,28),(0xffffff7,28),(0xffffff8,28),(0xffffff9,28),
    (0xffffffa,28),(0xffffffb,28),(0x14,6),(0x3f8,10),(0x3f9,10),(0xffa,12),(0x1ff9,13),(0x15,6),
    (0xf8,8),(0x7fa,11),(0x3fa,10),(0x3fb,10),(0xf9,8),(0x7fb,11),(0xfa,8),(0x16,6),(0x17,6),
    (0x18,6),(0x0,5),(0x1,5),(0x2,5),(0x19,6),(0x1a,6),(0x1b,6),(0x1c,6),(0x1d,6),(0x1e,6),
    (0x1f,6),(0x5c,7),(0xfb,8),(0x7ffc,15),(0x20,7),(0xffb,12),(0x3fc,10),(0x1ffa,13),(0x21,7),
    (0x5d,7),(0x5e,7),(0x5f,7),(0x60,7),(0x61,7),(0x62,7),(0x63,7),(0x64,7),(0x65,7),(0x66,7),
    (0x67,7),(0x68,7),(0x69,7),(0x6a,7),(0x6b,7),(0x6c,7),(0x6d,7),(0x6e,7),(0x6f,7),(0x70,7),
    (0x71,7),(0x72,7),(0xfc,8),(0x73,7),(0xfd,8),(0x1ffb,13),(0x7fff0,19),(0x1ffc,13),(0x3ffc,14),
    (0x22,7),(0x7ffd,15),(0x3,5),(0x23,6),(0x4,5),(0x24,6),(0x5,5),(0x25,6),(0x26,6),(0x27,6),
    (0x6,5),(0x74,7),(0x75,7),(0x28,6),(0x29,6),(0x2a,6),(0x7,5),(0x2b,6),(0x76,7),(0x2c,6),
    (0x8,5),(0x9,5),(0x2d,6),(0x77,7),(0x2e,6),(0x78,7),(0x2f,6),(0x79,7),(0x3ffd,14),
    (0x7fff1,19),(0x3ffe,14),(0x7fff2,19),(0x3fffd,22),(0x1fffe6,21),(0x3fffe9,22),(0x3fffea,22),
    (0x3fffeb,22),(0x1fffee,21),(0x3fffec,22),(0x3fffed,22),(0x3fffee,22),(0x77ffef,23),
    (0x3fffef,22),(0x3ffff0,22),(0x3ffff1,22),(0x3ffff2,22),(0x7ffff0,23),(0x3ffff3,22),
    (0x7ffff1,23),(0x7ffff2,23),(0x3ffff4,22),(0x3ffff5,22),(0x7ffff3,23),(0x3ffff6,22),
    (0x7ffff4,23),(0x7ffff5,23),(0x7ffff6,23),(0x7ffff7,23),(0x7ffff8,23),(0x7ffff9,23),
    (0x7ffffa,23),(0x7ffffb,23),(0x7ffffc,23),(0x7ffffd,23),(0x3ffff7,22),(0x7ffffe,23),
    (0x3ffff8,22),(0x1fffef,21),(0x3ffff9,22),(0x1ffff0,21),(0x3ffffa,22),(0x3ffffb,22),
    (0x1ffff1,21),(0x3ffffc,22),(0x3ffffd,22),(0x3ffffe,22),(0x3fffff,22),(0x1ffff2,21),
    (0x1ffff3,21),(0x1ffff4,21),(0x1ffff5,21),(0x3fffff,22),(0x7fffff,23),(0xffffff,24),
    (0xfffffc,24),(0xfffffd,24),(0xfffffe,24),(0xffffff,24),(0x1fffff,25),(0x3fffff,26),
    (0x7fffff,27),(0xffffff,28),(0xfffffff,28),(0x3ffffff,26),(0x7fffffc,27),(0x7fffffd,27),
    (0xfffffe,28),(0xffffff0,28),(0x1ffffed,25),(0xffffff1,28),(0xffffff2,28),(0xffffff3,28),
    (0xffffff4,28),(0xffffff5,28),(0xffffff6,28),(0xffffff7,28),(0xffffff8,28),(0xffffff9,28),
    (0xffffffa,28),(0xffffffb,28),(0xffffffc,28),(0xffffffd,28),(0xffffffe,28),(0xfffffff,28),
    (0x7fffffe,27),(0x7ffffff,27),(0x3ffffff,26),(0x1ffffff,25),(0x3ffffff,26),(0x7ffffff,27),
    (0xfffffff,28),(0x3ffffff,26),(0x7ffffff,27),(0xfffffff,28),(0xfffffff,28),(0xfffffff,28),
    (0xfffffff,28),(0xfffffff,28),(0x7ffffff,27),(0xfffffff,28),
      (0x1ffffff,25)] ++ List.replicate 30 (0xfffffff,28)

structure Code where
  code : Nat
  len : Nat
  ch : UInt8

def huffmanTable : List Code := huffmanCodes.zipIdx.map fun e => ⟨e.1.1,e.1.2,UInt8.ofNat e.2⟩

/-- The bits that have come in and are not used yet, and what is decoded. -/
structure Bits where
  bits : Nat
  nbits : Nat
  out : List UInt8

/-- The first entry that the oldest bits match. -/
def Bits.next (s : Bits) : Option Code :=
  huffmanTable.find? fun e =>
    e.len ≤ s.nbits && s.nbits - e.len < 64 && (s.bits >>> (s.nbits - e.len)) % 4294967296 == e.code

def Bits.take (s : Bits) (e : Code) : Bits :=
  let shift := s.nbits - e.len
  ⟨if shift = 0 then 0 else s.bits &&& (1 <<< shift - 1),shift,s.out ++ [e.ch]⟩

/-- The loop `'outer`, at most `n` rounds. -/
def drainBits : Nat → Bits → Checked Bits
  | 0, _ => .error .endless
  | n + 1, s =>
    match s.next with
    | none => pure s
    | some e => drainBits n (s.take e)

def huffmanByte (s : Bits) (byte : UInt8) : Checked Bits := do
  let nbits ← fit 4294967296 (s.nbits + 8)
  drainBits (nbits + 1) ⟨(s.bits <<< 8 ||| byte.toNat) % usize,nbits,s.out⟩

def huffmanDecode (src : List UInt8) : Checked (List UInt8) := do
  let s ← src.foldlM huffmanByte ⟨0,0,[]⟩
  pure s.out

/-! ### Integers and strings

Each returns its value and the position behind it. -/

/-- The continuation bytes of an integer, at most `n` of them. A shift by 64 or more
overflows; what a shift moves out of the word is lost. -/
def decodeIntLoop (data : List UInt8) : Nat → Nat → Nat → Nat → Checked (Nat × Nat)
  | 0, _, _, _ => .error .endless
  | n + 1, pos, value, shift =>
    if pos < data.length then do
      let b ← idx data pos
      let pos ← fit usize (pos + 1)
      let by_ ← fit 64 shift
      let value ← fit usize (value + (b.toNat % 128) <<< by_ % usize)
      let shift ← fit usize (shift + 7)
      if b < 128 then pure (value,pos) else decodeIntLoop data n pos value shift
    else pure (value,pos)

/-- `mask` has the bits of the prefix. -/
def hpackDecodeInt (data : List UInt8) (pos mask : Nat) : Checked (Nat × Nat) :=
  if data.length ≤ pos then pure (0,pos)
  else do
    let b ← idx data pos
    let first := b.toNat % (mask + 1)
    let pos ← fit usize (pos + 1)
    if first < mask then pure (first,pos) else decodeIntLoop data (data.length + 1) pos first 0

def stringBytes (huffman : Bool) (s : List UInt8) : Checked (List UInt8) :=
  if huffman then huffmanDecode s else pure s

def hpackDecodeString (data : List UInt8) (pos : Nat) : Checked (List UInt8 × Nat) :=
  if data.length ≤ pos then pure ([],pos)
  else do
    let b ← idx data pos
    let (len,pos) ← hpackDecodeInt data pos 127
    let after ← fit usize (pos + len)
    if data.length < after then pure ([],pos)
    else do
      let s ← slice data pos after
      let s ← stringBytes (b &&& 0x80 != 0) s
      pure (s,after)

/-- An index of the static table. There is no dynamic one. -/
def isStatic (i : Nat) : Bool := 0 < i && i ≤ hpackStatic.length

/-- A name from the table, or the string at `pos`. -/
def nameAt (block : List UInt8) (i pos : Nat) : Checked (List UInt8 × Nat) :=
  if isStatic i then do
    let e ← idx hpackStatic (i - 1)
    pure (e.1,pos)
  else hpackDecodeString block pos

/-- A literal: its name, then its value. -/
def literal (block : List UInt8) (pos mask : Nat) :
    Checked (Option (List UInt8 × List UInt8) × Nat) := do
  let (i,pos) ← hpackDecodeInt block pos mask
  let (name,pos) ← nameAt block i pos
  let (value,pos) ← hpackDecodeString block pos
  pure (some (name,value),pos)

/-- One round of the loop: a header or none, and the position behind it. -/
def header (block : List UInt8) (pos : Nat) :
    Checked (Option (List UInt8 × List UInt8) × Nat) := do
  let b ← idx block pos
  if b &&& 0x80 ≠ 0 then do
    let (i,pos) ← hpackDecodeInt block pos 127
    if isStatic i then do
      let e ← idx hpackStatic (i - 1)
      pure (some e,pos)
    else pure (none,pos)
  else if b &&& 0x40 ≠ 0 then literal block pos 63
  else if b &&& 0x20 ≠ 0 then do
    let (_,pos) ← hpackDecodeInt block pos 31
    pure (none,pos)
  else literal block pos 15

/-- The status and the location found. -/
abbrev Found := Nat × Option (List Nat)

def Found.set (f : Found) (name value : List UInt8) : Found :=
  if name = ascii ":status" then (((fromUtf8 value).bind (parseUnsigned 65536)).getD 0,f.2)
  else if name = ascii "location" then
    match fromUtf8 value with
    | some s => (f.1,some s)
    | none => f
  else f

def headersLoop (block : List UInt8) : Nat → Nat → Found → Checked Found
  | 0, _, _ => .error .endless
  | n + 1, pos, f =>
    if pos < block.length then do
      let (h,pos) ← header block pos
      headersLoop block n pos (match h with
        | some (name,value) => f.set name value
        | none => f)
    else pure f

def decodeHeadersBlock (block : List UInt8) : Checked Found :=
  headersLoop block (block.length + 1) 0 (0,none)

end Miku.Net.Hpack
