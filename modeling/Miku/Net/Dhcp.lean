import Miku.Lib.Exchange
import Miku.Net.Tcp
import Miku.Net.Tls

namespace Miku.Net.Dhcp
open Lib.Exchange
open Net.Tls (byte piece be16At)

def dhcpOffer : UInt8 := 2
def dhcpRequest : UInt8 := 3
def dhcpAck : UInt8 := 5

def dhcpMagic : List UInt8 := [99,130,83,99]

def optRequestedIp : UInt8 := 50
def optSubnet : UInt8 := 1
def optRouter : UInt8 := 3
def optDns : UInt8 := 6
def optLease : UInt8 := 51
def optMsgType : UInt8 := 53
def optServer : UInt8 := 54
def optParamReq : UInt8 := 55
def optEnd : UInt8 := 255

structure DhcpResult where
  ip : Ip
  mask : Ip
  gw : Ip
  dns : Ip
  server : Ip
  leaseSecs : Nat
  deriving DecidableEq

def be32At (b : List UInt8) (i : Nat) : Nat := 65536 * be16At b i + be16At b (i + 2)

def be32Bytes (n : Nat) : List UInt8 :=
  [UInt8.ofNat (n / 16777216),UInt8.ofNat (n / 65536),UInt8.ofNat (n / 256),UInt8.ofNat n]

/-- An option of four bytes, if there is one. -/
def addrOption (opt : UInt8) : Option Ip → List UInt8
  | none => []
  | some ip => opt :: 4 :: ip

def buildPacket (msgType : UInt8) (xid : Nat) (mac : List UInt8) (ciaddr : Ip)
    (serverIp requestedIp : Option Ip) : List UInt8 :=
  ([1,1,6,0] ++ be32Bytes xid ++ [0,0,0x80,0x00] ++ ciaddr ++ List.replicate 12 0 ++ mac ++
    List.replicate 202 0 ++ dhcpMagic ++ [optMsgType,1,msgType] ++ addrOption optServer serverIp ++
    addrOption optRequestedIp requestedIp ++ [optParamReq,3,optSubnet,optRouter,optDns] ++
    [optEnd]).rightpad 300 0

/-- The options that the loop comes to, each with its data. `n` bounds its rounds: every
round takes a byte at least. -/
def options : Nat → List UInt8 → List (UInt8 × List UInt8)
  | n + 1, opt :: rest =>
    if opt = optEnd then []
    else if opt = 0 then options n rest
    else
      match rest with
      | [] => []
      | len :: rest =>
        if rest.length < len.toNat then []
        else (opt,rest.take len.toNat) :: options n (rest.drop len.toNat)
  | _, _ => []

/-- What `parse_offer` collects. -/
structure Fields where
  mask : Ip
  gw : Ip
  dns : Ip
  server : Ip
  msgType : UInt8
  leaseSecs : Nat

def Fields.initial : Fields := ⟨[255,255,255,0],[0,0,0,0],[8,8,8,8],[0,0,0,0],0,0⟩

def Fields.set (f : Fields) (o : UInt8 × List UInt8) : Fields :=
  let (opt,data) := o
  if opt = optMsgType ∧ 1 ≤ data.length then { f with msgType := byte data 0 }
  else if opt = optSubnet ∧ 4 ≤ data.length then { f with mask := data.take 4 }
  else if opt = optRouter ∧ 4 ≤ data.length then { f with gw := data.take 4 }
  else if opt = optDns ∧ 4 ≤ data.length then { f with dns := data.take 4 }
  else if opt = optServer ∧ 4 ≤ data.length then { f with server := data.take 4 }
  else if opt = optLease ∧ 4 ≤ data.length then { f with leaseSecs := be32At data 0 }
  else f

def optionsOf (buf : List UInt8) : List (UInt8 × List UInt8) := options buf.length (buf.drop 240)

def parseOffer (buf : List UInt8) (xid : Nat) : Option DhcpResult :=
  let f := (optionsOf buf).foldl Fields.set .initial
  if buf.length < 240 then none
  else if be32At buf 4 ≠ xid then none
  else if piece buf 236 4 ≠ dhcpMagic then none
  else if f.msgType ≠ dhcpOffer ∧ f.msgType ≠ dhcpAck then none
  else some ⟨piece buf 16 4,f.mask,f.gw,f.dns,f.server,f.leaseSecs⟩

/-- A datagram on port 68. `requested` notes whether it came in after the request was
sent. -/
structure Dgram where
  data : List UInt8
  requested : Bool
  deriving DecidableEq

/-- What arrives: for each attempt the datagrams that each call of `pump` finds. -/
structure Arrivals where
  discover : List (List (List (List UInt8)))
  request : List (List (List (List UInt8)))

def theXid : Nat := 0xDEADBEEF

def noted (requested : Bool) (rounds : List (List (List (List UInt8)))) :
    List (List (List Dgram)) :=
  rounds.map (·.map (·.map (⟨·,requested⟩)))

/-- Up to four DISCOVERs: the reply taken for the offer and what is left in the queue. -/
def Arrivals.offer (a : Arrivals) : Option (Dgram × DhcpResult) × List Dgram :=
  attempts (fun d => parseOffer d.data theXid) 4 (noted false a.discover) []

/-- How an exchange ended: the request sent, the datagram that ended it and what is
configured. -/
structure Outcome where
  request : List UInt8
  took : Dgram
  result : DhcpResult

def exchange (mac : List UInt8) (a : Arrivals) : Option Outcome :=
  match a.offer with
  | (none,_) => none
  | (some (_,offer),q) =>
    match attempts (fun d => parseOffer d.data theXid) 4 (noted true a.request) q with
    | (none,_) => none
    | (some (d,r),_) =>
      some ⟨buildPacket dhcpRequest theXid mac [0,0,0,0] (some offer.server) (some offer.ip),d,r⟩

def doDhcp (mac : List UInt8) (a : Arrivals) : Option DhcpResult := (exchange mac a).map (·.result)

end Miku.Net.Dhcp
