import Miku.Lib.Exchange
import Miku.Net.Tcp
import Miku.Net.Tls

namespace Miku.Net.Dns
open Lib.Exchange
open Net.Tls (byte piece be16At)

/-- The labels of a host name: what stands between its dots, but for empty ones. -/
def labels (hostname : List UInt8) : List (List UInt8) :=
  (hostname.splitOn 46).filter (· ≠ [])

/-- A label with its length in front, if there is room for it. -/
def pushLabel (out label : List UInt8) : Option (List UInt8) :=
  if 512 ≤ out.length + 1 + label.length then none
  else some (out ++ UInt8.ofNat label.length :: label)

def queryHeader : List UInt8 := [0x13,0x37,0x01,0x00,0x00,0x01,0x00,0x00,0x00,0x00,0x00,0x00]

def buildQuery (hostname : List UInt8) : Option (List UInt8) := do
  let out ← (labels hostname).foldlM pushLabel queryHeader
  if 512 ≤ out.length + 5 then none else some (out ++ [0x00,0x00,0x01,0x00,0x01])

/-- The position behind a name. `n` bounds the rounds: each goes forward. -/
def skipName (buf : List UInt8) : Nat → Nat → Option Nat
  | 0, _ => none
  | n + 1, pos =>
    if buf.length ≤ pos then none
    else if byte buf pos = 0 then some (pos + 1)
    else if byte buf pos &&& 0xC0 = 0xC0 then some (pos + 2)
    else skipName buf n (pos + 1 + (byte buf pos).toNat)

def afterName (buf : List UInt8) (pos : Nat) : Option Nat := skipName buf (buf.length + 1) pos

def skipQuestions (buf : List UInt8) : Nat → Nat → Option Nat
  | 0, pos => some pos
  | n + 1, pos => do
    let pos ← afterName buf pos
    if buf.length < pos + 4 then none else skipQuestions buf n (pos + 4)

/-- The loop over the answers: the first with type 1 and four bytes of data. -/
def firstAddress (buf : List UInt8) : Nat → Nat → Option Ip
  | 0, _ => none
  | n + 1, pos => do
    let pos ← afterName buf pos
    if buf.length < pos + 10 then none
    else
      let rtype := be16At buf pos
      let rdlen := be16At buf (pos + 8)
      if buf.length < pos + 10 + rdlen then none
      else if rtype = 1 ∧ rdlen = 4 then some (piece buf (pos + 10) 4)
      else firstAddress buf n (pos + 10 + rdlen)

def parseResponse (buf : List UInt8) : Option Ip :=
  let flags := be16At buf 2
  let qdcount := be16At buf 4
  let ancount := be16At buf 6
  if buf.length < 12 then none
  else if flags / 0x8000 % 2 = 0 then none
  else if flags % 16 ≠ 0 then none
  else if ancount = 0 then none
  else do
    let pos ← skipQuestions buf qdcount 12
    firstAddress buf ancount pos

structure UdpDgram where
  srcIp : Ip
  srcPort : Nat
  data : List UInt8
  deriving DecidableEq

def accept (dgram : UdpDgram) : Option Ip :=
  if dgram.srcPort ≠ 53 then none else parseResponse dgram.data

/-- Up to four attempts; each element is what one call of `pump` brings to the port. An
attempt that Ctrl-C ends is the last one. The datagram with the address is returned too. -/
def resolve (hostname : List UInt8) (rounds : List (List (List UdpDgram))) :
    Option (UdpDgram × Ip) :=
  if hostname = [] then none
  else do
    let _ ← buildQuery hostname
    (attempts accept 4 rounds []).1

/-! ### What a response says

Written from the format of the messages, not from the parser above. -/

abbrev Name := List (List UInt8)

def lower (b : UInt8) : UInt8 := if 65 ≤ b ∧ b ≤ 90 then b + 32 else b

/-- Names are compared without regard to case. -/
def queried (hostname : List UInt8) : Name := (labels hostname).map (·.map lower)

/-- The name at a position, through compression pointers. A name that is not a loop
comes to no byte twice. -/
def nameFrom (buf : List UInt8) : Nat → Nat → Option Name
  | 0, _ => none
  | n + 1, pos =>
    match buf[pos]? with
    | none => none
    | some b =>
      if b = 0 then some []
      else if 192 ≤ b then nameFrom buf n (be16At buf pos % 16384)
      else if 64 ≤ b ∨ buf.length < pos + 1 + b.toNat then none
      else do
        let rest ← nameFrom buf n (pos + 1 + b.toNat)
        some ((piece buf (pos + 1) b.toNat).map lower :: rest)

def nameAt (buf : List UInt8) (pos : Nat) : Option Name := nameFrom buf (buf.length + 1) pos

structure Question where
  name : Name
  qtype : Nat
  qclass : Nat
  deriving DecidableEq

/-- The question of a message that has exactly one. -/
def questionOf (buf : List UInt8) : Option Question := do
  let name ← nameAt buf 12
  let pos ← afterName buf 12
  if be16At buf 4 = 1 then some ⟨name,be16At buf pos,be16At buf (pos + 2)⟩ else none

/-- A resource record: where its name and its data stand. -/
structure Record where
  owner : Nat
  rtype : Nat
  rclass : Nat
  rdata : Nat
  rdlen : Nat
  deriving DecidableEq

/-- The records from a position on, up to the first that is cut off. -/
def recordsFrom (buf : List UInt8) : Nat → Nat → List Record
  | 0, _ => []
  | n + 1, pos =>
    match afterName buf pos with
    | none => []
    | some p =>
      if buf.length < p + 10 + be16At buf (p + 8) then []
      else
        ⟨pos,be16At buf p,be16At buf (p + 2),p + 10,be16At buf (p + 8)⟩ ::
          recordsFrom buf n (p + 10 + be16At buf (p + 8))

def answers (buf : List UInt8) : List Record :=
  match skipQuestions buf (be16At buf 4) 12 with
  | none => []
  | some pos => recordsFrom buf (be16At buf 6) pos

/-- A response that reports no error. -/
def isResponse (buf : List UInt8) : Bool :=
  12 ≤ buf.length && be16At buf 2 / 0x8000 % 2 = 1 && be16At buf 2 % 16 = 0

/-- The first A record with an address. -/
def firstA (buf : List UInt8) : Option Record :=
  (answers buf).find? fun r => r.rtype = 1 && r.rdlen = 4

/-- What settles a query, of all that arrives for it in the four attempts: the first response
from port 53 with an A record, whoever sent it. -/
def settling (rounds : List (List (List UdpDgram))) : Option (UdpDgram × Record) :=
  (rounds.take 4).flatten.flatten.findSome? fun d =>
    if d.srcPort = 53 ∧ isResponse d.data then (firstA d.data).map (d,·) else none

def Record.address (r : Record) (buf : List UInt8) : Ip := piece buf r.rdata 4

/-- `name` stands for `target` by the CNAME records of the message. -/
inductive Alias (buf : List UInt8) (name : Name) : Name → Prop
  | self : Alias buf name name
  | cname {a b : Name} {r : Record} (h : Alias buf name a) (hr : r ∈ answers buf)
      (htype : r.rtype = 5) (hclass : r.rclass = 1) (howner : nameAt buf r.owner = some a)
      (hdata : nameAt buf r.rdata = some b) : Alias buf name b

/-- A record of class IN that belongs to the queried name. -/
def Record.For (r : Record) (buf hostname : List UInt8) : Prop :=
  r.rclass = 1 ∧ ∃ owner, nameAt buf r.owner = some owner ∧ Alias buf (queried hostname) owner

/-- The datagram is an answer of `server` to this query. -/
structure Answers (server : Ip) (query : List UInt8) (d : UdpDgram) : Prop where
  source : d.srcIp = server ∧ d.srcPort = 53
  id : be16At d.data 0 = be16At query 0
  question : questionOf d.data = questionOf query

end Miku.Net.Dns
