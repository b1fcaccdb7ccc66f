import Miku.Lib.Checked
import Miku.Net.Tcp

namespace Miku.Net.Http
open Lib

/-- The bytes of a text without other characters. -/
def ascii (s : String) : List UInt8 := s.toList.map fun c => UInt8.ofNat c.toNat

/-! ### Text

`core::str::from_utf8`, `trim`, `parse` and `eq_ignore_ascii_case`. A text is the list of
its characters. -/

def isCont (b : UInt8) : Bool := 0x80 ≤ b && b ≤ 0xBF

/-- Whether `b0`, `b1` begin a character of three bytes. -/
def threeBytes (b0 b1 : UInt8) : Bool :=
  if b0 = 0xE0 then 0xA0 ≤ b1 && b1 ≤ 0xBF
  else if b0 = 0xED then 0x80 ≤ b1 && b1 ≤ 0x9F
  else 0xE1 ≤ b0 && b0 ≤ 0xEF && isCont b1

/-- Whether `b0`, `b1` begin a character of four bytes. -/
def fourBytes (b0 b1 : UInt8) : Bool :=
  if b0 = 0xF0 then 0x90 ≤ b1 && b1 ≤ 0xBF
  else if b0 = 0xF4 then 0x80 ≤ b1 && b1 ≤ 0x8F
  else 0xF1 ≤ b0 && b0 ≤ 0xF3 && isCont b1

def low6 (b : UInt8) : Nat := b.toNat % 64

def fromUtf8 : List UInt8 → Option (List Nat)
  | [] => some []
  | b0 :: rest =>
    if b0 < 0x80 then (fromUtf8 rest).map (b0.toNat :: ·)
    else
      match rest with
      | [] => none
      | b1 :: rest =>
        if 0xC2 ≤ b0 && b0 ≤ 0xDF && isCont b1 then
          (fromUtf8 rest).map ((b0.toNat % 32 * 64 + low6 b1) :: ·)
        else
          match rest with
          | [] => none
          | b2 :: rest =>
            if threeBytes b0 b1 && isCont b2 then
              (fromUtf8 rest).map ((b0.toNat % 16 * 4096 + low6 b1 * 64 + low6 b2) :: ·)
            else
              match rest with
              | [] => none
              | b3 :: rest =>
                if fourBytes b0 b1 && isCont b2 && isCont b3 then
                  (fromUtf8 rest).map
                    ((b0.toNat % 8 * 262144 + low6 b1 * 4096 + low6 b2 * 64 + low6 b3) :: ·)
                else none

def isWhitespace (c : Nat) : Bool :=
  (9 ≤ c && c ≤ 13) || c == 32 || c == 0x85 || c == 0xA0 || c == 0x1680 ||
    (0x2000 ≤ c && c ≤ 0x200A) || c == 0x2028 || c == 0x2029 || c == 0x202F || c == 0x205F ||
    c == 0x3000

def trim (s : List Nat) : List Nat :=
  ((s.dropWhile isWhitespace).reverse.dropWhile isWhitespace).reverse

/-- The digits of an unsigned number below `bound`. -/
def parseDigits (bound : Nat) : Nat → List Nat → Option Nat
  | v, [] => some v
  | v, c :: s =>
    if 48 ≤ c ∧ c ≤ 57 ∧ v * 10 + (c - 48) < bound then parseDigits bound (v * 10 + (c - 48)) s
    else none

/-- A plus sign may stand in front. -/
def parseUnsigned (bound : Nat) (s : List Nat) : Option Nat :=
  let digits := if s.head? = some 43 then s.tail else s
  if digits = [] then none else parseDigits bound 0 digits

def lowerChar (c : Nat) : Nat := if 65 ≤ c ∧ c ≤ 90 then c + 32 else c

def chunkedText : List Nat := (ascii "chunked").map UInt8.toNat

def trimCrlfEnd (s : List UInt8) : Nat → Checked Nat
  | 0 => pure 0
  | e + 1 => do
    let b ← idx s e
    if b = 13 ∨ b = 10 then trimCrlfEnd s e else pure (e + 1)

def trimCrlf (s : List UInt8) : Checked (List UInt8) := do
  let e ← trimCrlfEnd s s.length
  slice s 0 e

def isBlank (b : UInt8) : Bool := b == 32 || b == 9

def trimWs (s : List UInt8) : Checked (List UInt8) :=
  let st := (s.findIdx? (!isBlank ·)).getD 0
  let en := ((s.reverse.findIdx? (!isBlank ·)).map (s.length - ·)).getD 0
  if st < en then slice s st en else pure []

def asciiLower (s : List UInt8) : List UInt8 := s.map fun b => if 65 ≤ b ∧ b ≤ 90 then b + 32 else b

/-- The loop `for i in from..len - 1`, `n` rounds from `i` on. -/
def findCrlfFrom (data : List UInt8) : Nat → Nat → Checked (Option Nat)
  | 0, _ => pure none
  | n + 1, i => do
    let a ← idx data i
    if a = 13 then do
      let j ← fit usize (i + 1)
      let b ← idx data j
      if b = 10 then pure (some i) else findCrlfFrom data n (i + 1)
    else findCrlfFrom data n (i + 1)

def findCrlf (data : List UInt8) (start : Nat) : Checked (Option Nat) :=
  findCrlfFrom data (data.length - 1 - start) start

def hexDigit (b : UInt8) : Option Nat :=
  if 48 ≤ b ∧ b ≤ 57 then some (b.toNat - 48)
  else if 97 ≤ b ∧ b ≤ 102 then some (b.toNat - 97 + 10)
  else if 65 ≤ b ∧ b ≤ 70 then some (b.toNat - 65 + 10)
  else none

/-- `wrapping_mul(16).wrapping_add(d)` for each digit. -/
def parseHexFrom : Nat → List UInt8 → Nat
  | v, [] => v
  | v, b :: s =>
    match hexDigit b with
    | some d => parseHexFrom ((v * 16 + d) % usize) s
    | none => v

def parseHex (s : List UInt8) : Nat := parseHexFrom 0 s

/-- The loop of `decode_chunked`, at most `n` rounds; `stop k` says whether Ctrl-C is found
pressed in round `k`. -/
def decodeLoop (stop : Nat → Bool) (data : List UInt8) :
    Nat → Nat → Nat → List UInt8 → Checked (List UInt8)
  | 0, _, _, _ => .error .endless
  | n + 1, k, pos, out => do
    if stop k then pure out
    else
      match ← findCrlf data pos with
      | none => pure out
      | some crlf => do
        let line ← slice data pos crlf
        let size := parseHex (← trimCrlf line)
        let pos ← fit usize (crlf + 2)
        if size = 0 then pure out
        else do
          let after ← fit usize (pos + size)
          let piece ← slice data pos (min after data.length)
          if data.length ≤ after then pure (out ++ piece)
          else do
            let pos ← fit usize (after + 2)
            decodeLoop stop data n (k + 1) pos (out ++ piece)

def decodeChunked (stop : Nat → Bool) (data : List UInt8) : Checked (List UInt8) :=
  decodeLoop stop data (data.length + 1) 0 0 []

structure HttpResponse where
  status : Nat
  reason : List Nat
  location : Option (List Nat)
  body : List UInt8
  contentLength : Option Nat
  chunked : Bool
  deriving DecidableEq

def findHeaderEnd (data : List UInt8) : Nat → Nat → Checked (Option Nat)
  | 0, _ => .error .endless
  | n + 1, i => do
    let last ← fit usize (i + 3)
    if last < data.length then do
      let after ← fit usize (i + 4)
      let four ← slice data i after
      if four = [13,10,13,10] then pure (some i) else findHeaderEnd data n (i + 1)
    else pure none

/-- What stands before the first space and, if there is one, behind it. -/
def cutSpace (s : List UInt8) : List UInt8 × Option (List UInt8) :=
  (s.takeWhile (· ≠ 32),(s.dropWhile (· ≠ 32)).tail?)

/-- `splitn(3, ' ')` of the status line. The first part is not used. -/
def statusLine (sl : List UInt8) : Option HttpResponse := do
  let rest ← (cutSpace sl).2
  let code := (cutSpace rest).1
  let rsn := ((cutSpace rest).2).getD []
  let text ← fromUtf8 code
  let status ← parseUnsigned 65536 (trim text)
  some ⟨status,trim ((fromUtf8 rsn).getD []),none,[],none,false⟩

def HttpResponse.set (resp : HttpResponse) (key value : List UInt8) : HttpResponse :=
  match fromUtf8 value with
  | none => resp
  | some s =>
    if key = ascii "content-length" then { resp with contentLength := parseUnsigned usize (trim s) }
    else if key = ascii "transfer-encoding" then
      if (trim s).map lowerChar = chunkedText then { resp with chunked := true } else resp
    else if key = ascii "location" then { resp with location := some (trim s) }
    else resp

def headerLine (resp : HttpResponse) (line : List UInt8) : Checked HttpResponse := do
  let line ← trimCrlf line
  if line = [] then pure resp
  else
    match line.findIdx? (· == 58) with
    | none => pure resp
    | some colon => do
      let key ← trimWs (← slice line 0 colon)
      let next ← fit usize (colon + 1)
      let value ← trimWs (← slice line next line.length)
      pure (resp.set (asciiLower key) value)

/-- `parse_response` up to the body, which it returns as it came. -/
def parseHead (data : List UInt8) : Checked (Option (HttpResponse × List UInt8)) := do
  match ← findHeaderEnd data (data.length + 1) 0 with
  | none => pure none
  | some hdrEnd => do
    let lines := (← slice data 0 hdrEnd).splitOn 10
    match statusLine (← trimCrlf (lines.headD [])) with
    | none => pure none
    | some resp => do
      let resp ← lines.tail.foldlM headerLine resp
      let bodyStart ← fit usize (hdrEnd + 4)
      if bodyStart ≤ data.length then do
        let raw ← slice data bodyStart data.length
        pure (some (resp,raw))
      else pure (some (resp,[]))

def parseResponse (stop : Nat → Bool) (data : List UInt8) : Checked (Option HttpResponse) := do
  match ← parseHead data with
  | none => pure none
  | some (resp,raw) => do
    let body ← if resp.chunked then decodeChunked stop raw else pure raw
    pure (some { resp with body := body })

end Miku.Net.Http
