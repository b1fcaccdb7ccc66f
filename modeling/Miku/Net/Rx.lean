import Miku.Lib.Checked
import Miku.Net.Tcp

namespace Miku.Net
open Lib

/-- `u16::from_be_bytes([l[i], l[i + 1]])`. -/
def u16At (l : List UInt8) (i : Nat) : Checked Nat := do
  let a ← idx l i
  let b ← idx l (i + 1)
  pure (a.toNat * 256 + b.toNat)

def u32At (l : List UInt8) (i : Nat) : Checked Nat := do
  let a ← u16At l i
  let b ← u16At l (i + 2)
  pure (a * 65536 + b)

def u16Bytes (n : Nat) : List UInt8 := [UInt8.ofNat (n / 256),UInt8.ofNat n]

abbrev Mac := List UInt8

def ethertypeIp : Nat := 0x0800
def ethertypeArp : Nat := 0x0806

structure EthFrame where
  dst : Mac
  src : Mac
  ethertype : Nat
  payload : List UInt8

namespace EthFrame

def parse (buf : List UInt8) : Checked (Option EthFrame) :=
  if buf.length < 14 then pure none
  else do
    let dst ← slice buf 0 6
    let src ← slice buf 6 12
    let ethertype ← u16At buf 12
    let payload ← slice buf 14 buf.length
    pure (some ⟨dst,src,ethertype,payload⟩)

/-- The number of bytes used in `out`, and `out`. -/
def build (dst src : Mac) (ethertype : Nat) (payload out : List UInt8) :
    Checked (Nat × List UInt8) := do
  let need ← fit usize (14 + payload.length)
  if out.length < need then pure (0,out)
  else do
    let out ← store out 0 dst
    let out ← store out 6 src
    let out ← store out 12 (u16Bytes ethertype)
    let out ← store out 14 payload
    pure (need,out)

end EthFrame

def arpRequest : Nat := 1
def arpReply : Nat := 2
def hwEthernet : Nat := 1
def protoIpv4 : Nat := 0x0800
def arpTableSize : Nat := 16

structure ArpEntry where
  ip : Ip
  mac : Mac
  valid : Bool

structure ArpTable where
  entries : List ArpEntry
  next : Nat

namespace ArpTable

def new : ArpTable := ⟨List.replicate arpTableSize ⟨[0,0,0,0],[0,0,0,0,0,0],false⟩,0⟩

def insert (t : ArpTable) (ip : Ip) (mac : Mac) : Checked ArpTable :=
  match t.entries.findIdx? fun e => e.valid && e.ip == ip with
  | some i => pure { t with entries := t.entries.modify i fun e => { e with mac := mac } }
  | none => do
    let entries ← store t.entries (t.next % arpTableSize) [⟨ip,mac,true⟩]
    let next ← fit usize (t.next + 1)
    pure ⟨entries,next % arpTableSize⟩

end ArpTable

structure ArpPacket where
  senderIp : Ip
  senderMac : Mac
  op : Nat

def arpParse (buf : List UInt8) : Checked (Option ArpPacket) :=
  if buf.length < 28 then pure none
  else do
    let hwType ← u16At buf 0
    let protoType ← u16At buf 2
    if hwType ≠ hwEthernet ∨ protoType ≠ protoIpv4 then pure none
    else do
      let hlen ← idx buf 4
      let plen ← idx buf 5
      if hlen ≠ 6 ∨ plen ≠ 4 then pure none
      else do
        let op ← u16At buf 6
        let senderMac ← slice buf 8 14
        let senderIp ← slice buf 14 18
        pure (some ⟨senderIp,senderMac,op⟩)

def arpBuildReply (ourMac : Mac) (ourIp : Ip) (targetMac : Mac) (targetIp : Ip) :
    Checked (List UInt8) := do
  let out ← store (List.replicate 28 0) 0 (u16Bytes hwEthernet ++ u16Bytes protoIpv4 ++ [6,4] ++
    u16Bytes arpReply)
  let out ← store out 8 ourMac
  let out ← store out 14 ourIp
  let out ← store out 18 targetMac
  store out 24 targetIp

def protoIcmp : Nat := 1
def protoUdp : Nat := 17

structure Ipv4Header where
  src : Ip
  dst : Ip
  proto : Nat
  ttl : UInt8
  ihl : Nat
  totalLen : Nat

namespace Ipv4Header

def parse (buf : List UInt8) : Checked (Option Ipv4Header) :=
  if buf.length < 20 then pure none
  else do
    let b ← idx buf 0
    if b.toNat / 16 ≠ 4 then pure none
    else do
      let ihl ← fit 256 (b.toNat % 16 * 4)
      if ihl < 20 ∨ buf.length < ihl then pure none
      else do
        let totalLen ← u16At buf 2
        let ttl ← idx buf 8
        let proto ← idx buf 9
        let src ← slice buf 12 16
        let dst ← slice buf 16 20
        pure (some ⟨src,dst,proto.toNat,ttl,ihl,totalLen⟩)

def payload (h : Ipv4Header) (buf : List UInt8) : Checked (List UInt8) :=
  let stop := min h.totalLen buf.length
  if stop < h.ihl then pure [] else slice buf h.ihl stop

end Ipv4Header

/-- The words of a packet are summed up, two bytes in a round. -/
def sumLoop (data : List UInt8) : Nat → Nat → Nat → Checked Nat
  | 0, _, _ => .error .endless
  | n + 1, i, sum => do
    let j ← fit usize (i + 1)
    if j < data.length then do
      let w ← u16At data i
      let sum ← fit 4294967296 (sum + w)
      let i ← fit usize (i + 2)
      sumLoop data n i sum
    else if i < data.length then do
      let b ← idx data i
      fit 4294967296 (sum + b.toNat * 256)
    else pure sum

/-- `while sum >> 16 != 0`. -/
def foldSum : Nat → Nat → Checked Nat
  | 0, _ => .error .endless
  | n + 1, sum =>
    if sum / 65536 ≠ 0 then do
      let sum ← fit 4294967296 (sum % 65536 + sum / 65536)
      foldSum n sum
    else pure sum

def ipChecksum (data : List UInt8) : Checked Nat := do
  let sum ← sumLoop data (data.length + 1) 0 0
  let sum ← foldSum (sum + 1) sum
  pure (65535 - sum % 65536)

def ipBuild (src dst : Ip) (proto : Nat) (payload out : List UInt8) :
    Checked (Nat × List UInt8) := do
  let need ← fit usize (20 + payload.length)
  if out.length < need then pure (0,out)
  else do
    let out ← store out 0 ([0x45,0] ++ u16Bytes need ++ [0,0,0x40,0,64,UInt8.ofNat proto,0,0])
    let out ← store out 12 src
    let out ← store out 16 dst
    let head ← slice out 0 20
    let csum ← ipChecksum head
    let out ← store out 10 (u16Bytes csum)
    let out ← store out 20 payload
    pure (need,out)

/-- The reply to an echo request. -/
def Ipv4Header.handleIcmp (ip : Ipv4Header) (ourIp : Ip) (icmp replyIp : List UInt8) :
    Checked (Nat × List UInt8) :=
  if ip.dst ≠ ourIp then pure (0,replyIp)
  else if icmp.length < 8 then pure (0,replyIp)
  else do
    let kind ← idx icmp 0
    if kind ≠ 8 then pure (0,replyIp)
    else do
      let ident ← slice icmp 4 8
      let data ← slice icmp 8 icmp.length
      let icmpLen ← fit usize (8 + data.length)
      let reply ← store (List.replicate 1500 0) 0 ([0,0,0,0] ++ ident)
      let reply ← store reply 8 data
      let whole ← slice reply 0 icmpLen
      let csum ← ipChecksum whole
      let reply ← store reply 2 (u16Bytes csum)
      let whole ← slice reply 0 icmpLen
      ipBuild ip.dst ip.src protoIcmp whole replyIp

structure UdpHeader where
  srcPort : Nat
  dstPort : Nat
  length : Nat

namespace UdpHeader

def parse (buf : List UInt8) : Checked (Option UdpHeader) :=
  if buf.length < 8 then pure none
  else do
    let srcPort ← u16At buf 0
    let dstPort ← u16At buf 2
    let length ← u16At buf 4
    pure (some ⟨srcPort,dstPort,length⟩)

def payload (h : UdpHeader) (buf : List UInt8) : Checked (List UInt8) :=
  slice buf 8 (8 + min (h.length - 8) (buf.length - 8))

end UdpHeader

namespace TcpSegment

/-- `parse`, with its accesses checked. -/
def read (buf : List UInt8) : Checked (Option TcpSegment) :=
  if buf.length < 20 then pure none
  else do
    let b ← idx buf 12
    let dataOffset ← fit 256 (b.toNat / 16 * 4)
    if dataOffset < 20 then pure none
    else do
      let srcPort ← u16At buf 0
      let dstPort ← u16At buf 2
      let seq ← u32At buf 4
      let ack ← u32At buf 8
      let flags ← idx buf 13
      let window ← u16At buf 14
      pure (some {
        srcPort := UInt16.ofNat srcPort
        dstPort := UInt16.ofNat dstPort
        seq := UInt32.ofNat seq
        ack := UInt32.ofNat ack
        flags := flags
        window := UInt16.ofNat window
        dataOffset := dataOffset })

/-- `payload`, with its slice checked. -/
def readPayload (seg : TcpSegment) (buf : List UInt8) : Checked (List UInt8) :=
  if buf.length ≤ seg.dataOffset then pure [] else slice buf seg.dataOffset buf.length

end TcpSegment

/-- The loop of `parse_mss_option`, with its accesses checked. -/
def readMss (opts : List UInt8) : Nat → Nat → Checked (Option UInt16)
  | 0, _ => .error .endless
  | n + 1, i =>
    if i < opts.length then do
      let kind ← idx opts i
      if kind = 0 then pure none
      else if kind = 1 then readMss opts n (i + 1)
      else if kind = 2 then do
        let stop ← fit usize (i + 4)
        if opts.length < stop then pure none
        else do
          let l ← idx opts (i + 1)
          if l = 4 then do
            let mss ← u16At opts (i + 2)
            pure (some (UInt16.ofNat mss))
          else pure none
      else if opts.length ≤ i + 1 then pure none
      else do
        let l ← idx opts (i + 1)
        if l < 2 then pure none
        else do
          let i ← fit usize (i + l.toNat)
          readMss opts n i
    else pure none

def readMssOption (bytes : List UInt8) (seg : TcpSegment) : Checked (Option UInt16) :=
  let optsEnd := min seg.dataOffset bytes.length
  if optsEnd ≤ 20 then pure none
  else do
    let opts ← slice bytes 20 optsEnd
    readMss opts (opts.length + 1) 0

structure IcmpEvent where
  icmpType : UInt8
  srcIp : Ip
  id : Nat
  seq : Nat
  ttl : UInt8

structure BoundDgram where
  srcIp : Ip
  srcPort : Nat
  data : List UInt8

structure UdpSlot where
  port : Nat
  queue : List BoundDgram

/-- What a frame can change: the ARP table, the queues of the consumers and the frames
sent. -/
structure Rx where
  mac : Mac
  ip : Ip
  arp : ArpTable
  icmpWaiters : List (Option (List IcmpEvent))
  udpBinds : List (Option UdpSlot)
  stack : Stack
  sent : List (List UInt8)

namespace Rx

def tx (s : Rx) (frame : List UInt8) : Rx := { s with sent := s.sent ++ [frame] }

/-- The first `n` bytes of a buffer go out, if there are any. -/
def txSome (s : Rx) (built : Nat × List UInt8) : Checked Rx :=
  if 0 < built.1 then do
    let frame ← slice built.2 0 built.1
    pure (s.tx frame)
  else pure s

def handleArp (s : Rx) (frame : EthFrame) : Checked Rx := do
  match ← arpParse frame.payload with
  | none => pure s
  | some p => do
    let arp ← s.arp.insert p.senderIp p.senderMac
    let s := { s with arp := arp }
    if p.op = arpRequest then do
      let target ← slice frame.payload 24 28
      if target = s.ip then do
        let reply ← arpBuildReply s.mac s.ip p.senderMac p.senderIp
        let built ← EthFrame.build p.senderMac s.mac ethertypeArp reply (List.replicate 64 0)
        s.txSome built
      else pure s
    else pure s

def handleIcmp (s : Rx) (frame : EthFrame) (ip : Ipv4Header) (icmp : List UInt8) : Checked Rx :=
  if icmp.length < 8 then pure s
  else do
    let kind ← idx icmp 0
    if kind = 8 then do
      let built ← ip.handleIcmp s.ip icmp (List.replicate 1500 0)
      if 0 < built.1 then do
        let packet ← slice built.2 0 built.1
        let built ← EthFrame.build frame.src s.mac ethertypeIp packet (List.replicate 1520 0)
        s.txSome built
      else pure s
    else do
      let id ← u16At icmp 4
      let seq ← u16At icmp 6
      let ev : IcmpEvent :=
        ⟨kind,ip.src,if kind = 0 then id else 0,if kind = 0 then seq else 0,ip.ttl⟩
      pure { s with
        icmpWaiters := s.icmpWaiters.map (Option.map fun q =>
          if q.length < queueCap then q ++ [ev] else q) }

def handleUdp (s : Rx) (ip : Ipv4Header) (payload : List UInt8) : Checked Rx := do
  match ← UdpHeader.parse payload with
  | none => pure s
  | some hdr => do
    let data ← hdr.payload payload
    match s.udpBinds.findIdx? fun o => o.any fun b => b.port == hdr.dstPort with
    | none => pure s
    | some i =>
      pure { s with
        udpBinds := s.udpBinds.modify i (Option.map fun b =>
          if b.queue.length < queueCap then
            { b with queue := b.queue ++ [⟨ip.src,hdr.srcPort,data⟩] } else b) }

def readSynMss (seg : TcpSegment) (bytes : List UInt8) : Checked (Option UInt16) :=
  if seg.has flagSyn then readMssOption bytes seg else pure none

/-- The packet for the queue of a connection. -/
def readPacket (seg : TcpSegment) (srcIp : Ip) (bytes : List UInt8) : Checked TcpPacket := do
  let mss ← readSynMss seg bytes
  let data ← seg.readPayload bytes
  pure ⟨seg,data,srcIp,mss.getD 536⟩

def handleTcp (s : Rx) (ip : Ipv4Header) (payload : List UInt8) : Checked Rx := do
  match ← TcpSegment.read payload with
  | none => pure s
  | some seg =>
    match s.stack.connOf seg ip.src with
    | some h => do
      let pkt ← readPacket seg ip.src payload
      pure { s with stack := s.stack.enqueue h pkt }
    | none =>
      if seg.has flagSyn && !seg.has flagAck then do
        let mss ← readMssOption payload seg
        match s.stack.listeners.findIdx? fun o => o.any fun l => l.port == seg.dstPort with
        | some i =>
          pure { s with
            stack := s.stack.enqueueSyn i ⟨ip.src,seg.srcPort,seg.seq,mss.getD 536⟩ }
        | none => pure s
      else pure s

def handleIp (s : Rx) (frame : EthFrame) : Checked Rx := do
  match ← Ipv4Header.parse frame.payload with
  | none => pure s
  | some ip => do
    let payload ← ip.payload frame.payload
    if ip.proto = protoIcmp then s.handleIcmp frame ip payload
    else if ip.proto = protoUdp then s.handleUdp ip payload
    else if ip.proto = protoTcp.toNat then s.handleTcp ip payload
    else pure s

def dispatchFrame (s : Rx) (raw : List UInt8) : Checked Rx := do
  match ← EthFrame.parse raw with
  | none => pure s
  | some frame =>
    if frame.ethertype = ethertypeArp then s.handleArp frame
    else if frame.ethertype = ethertypeIp then s.handleIp frame
    else pure s

/-- The frames of one call of `pump`. -/
def dispatchFrames (s : Rx) (frames : List (List UInt8)) : Checked Rx :=
  frames.foldlM dispatchFrame s

end Rx

end Miku.Net
