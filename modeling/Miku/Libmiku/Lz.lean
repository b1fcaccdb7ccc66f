import Miku.Lib.Checked

/-! The byte compressor of `lz.rs`. Allocations succeed. The decompressor checks each
access to its input, to the part of its output written, and to the room left. -/

namespace Miku.Libmiku.Lz
open Lib

def windowSize : Nat := 2047

def minMatch : Nat := 3

def maxMatch : Nat := 127

def maxLitRun : Nat := 127

variable (data : List UInt8)

/-- How far the bytes from `s` on are those from `pos` on, with `ml` of them compared and
at most the last argument to go. -/
def matchLen (s pos ml : Nat) : Nat → Nat
  | 0 => ml
  | n + 1 => if data[s + ml]? = data[pos + ml]? then matchLen s pos (ml + 1) n else ml

/-- The candidates from `s` on, as many as the last argument says. -/
def findLoop (pos maxLen s : Nat) (best : Nat × Nat) : Nat → Nat × Nat
  | 0 => best
  | n + 1 =>
    let ml := matchLen data s pos 0 maxLen
    if ml ≥ minMatch ∧ ml > best.2 then
      if ml = maxLen then (pos - s,ml) else findLoop pos maxLen (s + 1) (pos - s,ml) n
    else findLoop pos maxLen (s + 1) best n

/-- The distance and the length of the best match. -/
def findMatch (pos : Nat) : Nat × Nat :=
  let start := if pos > windowSize then pos - windowSize else 0
  let maxLen := if data.length - pos > maxMatch then maxMatch else data.length - pos
  if maxLen < minMatch then (0,0) else findLoop data pos maxLen start (0,0) (pos - start)

def flushLoop (max start remaining : Nat) (out : List UInt8) : Nat → Option (List UInt8)
  | 0 => some out
  | n + 1 =>
    if remaining = 0 then some out else
    let chunk := if remaining > maxLitRun then maxLitRun else remaining
    if out.length + 1 + chunk > max then none
    else flushLoop max (start + chunk) (remaining - chunk)
      (out ++ UInt8.ofNat chunk :: (data.drop start).take chunk) n

def flushLiterals (max start count : Nat) (out : List UInt8) : Option (List UInt8) :=
  if count > 0 then flushLoop data max start count out count else some out

/-- Seven bits of length, eleven of distance. -/
def encodeMatch (off mlen : Nat) : List UInt8 :=
  [0x80 ||| UInt8.ofNat mlen,UInt8.ofNat (off >>> 8 &&& 7),UInt8.ofNat (off &&& 0xFF)]

/-- The last argument bounds the rounds: each goes forward. -/
def compressLoop (max pos litStart litCount : Nat) (out : List UInt8) : Nat → Option (List UInt8)
  | 0 => flushLiterals data max litStart litCount out
  | n + 1 =>
    if pos < data.length then
      let (off,mlen) := findMatch data pos
      if mlen ≥ minMatch then
        match flushLiterals data max litStart litCount out with
        | none => none
        | some out =>
          if out.length + 3 > max then none
          else compressLoop max (pos + mlen) litStart 0 (out ++ encodeMatch off mlen) n
      else
        let litStart := if litCount = 0 then pos else litStart
        if litCount + 1 ≥ maxLitRun then
          match flushLiterals data max litStart (litCount + 1) out with
          | none => none
          | some out => compressLoop max (pos + 1) litStart 0 out n
        else compressLoop max (pos + 1) litStart (litCount + 1) out n
    else flushLiterals data max litStart litCount out

def compress : Option (List UInt8) :=
  if data = [] then none
  else compressLoop data (data.length * 2 + 256) 0 0 0 [] data.length

/-- Bytes written behind those that are. -/
def append (max : Nat) (out bytes : List UInt8) : Checked (List UInt8) :=
  if out.length + bytes.length ≤ max then .ok (out ++ bytes) else .error .slice

/-- Byte by byte, so that a match can run into what it writes. -/
def copyMatch (max src : Nat) (out : List UInt8) : Nat → Checked (List UInt8)
  | 0 => .ok out
  | n + 1 => do
    let b ← idx out src
    let out ← append max out [b]
    copyMatch max (src + 1) out n

def decompressLoop (max rp : Nat) (out : List UInt8) : Nat → Checked (Option (List UInt8))
  | 0 => .error .endless
  | fuel + 1 =>
    if rp < data.length then do
      let tag ← idx data rp
      let rp := rp + 1
      if tag &&& 0x80 ≠ 0 then
        let mlen := (tag &&& 0x7F).toNat
        if rp + 2 > data.length then pure none else
        let hi ← idx data rp
        let lo ← idx data (rp + 1)
        let offset := hi.toNat <<< 8 ||| lo.toNat
        let stop ← fit usize (out.length + mlen)
        if offset = 0 ∨ offset > out.length ∨ stop > max then pure none else
        let out ← copyMatch max (out.length - offset) out mlen
        decompressLoop max (rp + 2) out fuel
      else
        let count := tag.toNat
        if count = 0 then pure (some out) else
        let stop ← fit usize (out.length + count)
        if rp + count > data.length ∨ stop > max then pure none else
        let run ← slice data rp (rp + count)
        let out ← append max out run
        decompressLoop max (rp + count) out fuel
    else pure (some out)

def decompress (max : Nat) : Checked (Option (List UInt8)) :=
  if data = [] ∨ max = 0 then pure none else decompressLoop data max 0 [] (data.length + 1)

end Miku.Libmiku.Lz
