import Mathlib.Data.List.Basic
import Mathlib.Logic.Function.Basic

namespace Miku.Net

def flagFin : UInt8 := 0x01
def flagSyn : UInt8 := 0x02
def flagRst : UInt8 := 0x04
def flagAck : UInt8 := 0x10

def rxBuf : Nat := 32768
def queueCap : Nat := 64

abbrev Ip := List UInt8

/-- `(a.wrapping_sub(b) as i32) > 0`. -/
def wrappingGt (a b : UInt32) : Bool := 0 < (a - b).toNat && (a - b).toNat < 2147483648

def wrappingGe (a b : UInt32) : Bool := a == b || wrappingGt a b

def be16 (b : List UInt8) (i : Nat) : UInt16 :=
  UInt16.ofNat ((b.getD i 0).toNat * 256 + (b.getD (i + 1) 0).toNat)

def be32 (b : List UInt8) (i : Nat) : UInt32 :=
  UInt32.ofNat ((be16 b i).toNat * 65536 + (be16 b (i + 2)).toNat)

structure TcpSegment where
  srcPort : UInt16
  dstPort : UInt16
  seq : UInt32
  ack : UInt32
  flags : UInt8
  window : UInt16
  dataOffset : Nat
  deriving DecidableEq, Repr

namespace TcpSegment

def parse (buf : List UInt8) : Option TcpSegment :=
  let dataOffset := (buf.getD 12 0).toNat / 16 * 4
  if buf.length < 20 ∨ dataOffset < 20 then none
  else some {
    srcPort := be16 buf 0
    dstPort := be16 buf 2
    seq := be32 buf 4
    ack := be32 buf 8
    flags := buf.getD 13 0
    window := be16 buf 14
    dataOffset := dataOffset }

def payload (seg : TcpSegment) (buf : List UInt8) : List UInt8 := buf.drop seg.dataOffset

def has (seg : TcpSegment) (flag : UInt8) : Bool := seg.flags &&& flag != 0

end TcpSegment

/-- The loop over the options of a SYN. `n` bounds its rounds by the number of bytes. -/
def mssOption (opts : List UInt8) : Nat → Nat → Option UInt16
  | 0, _ => none
  | n + 1, i =>
    if opts.length ≤ i then none
    else
      match (opts.getD i 0).toNat with
      | 0 => none
      | 1 => mssOption opts n (i + 1)
      | 2 => if i + 4 ≤ opts.length ∧ opts.getD (i + 1) 0 = 4 then some (be16 opts (i + 2)) else none
      | _ =>
        if opts.length ≤ i + 1 ∨ opts.getD (i + 1) 0 < 2 then none
        else mssOption opts n (i + (opts.getD (i + 1) 0).toNat)

def parseMssOption (bytes : List UInt8) (seg : TcpSegment) : Option UInt16 :=
  let opts := (bytes.take seg.dataOffset).drop 20
  mssOption opts (opts.length + 1) 0

/-- The sum of the 16-bit words; a last byte alone is a high one. -/
def sumWords : List UInt8 → Nat
  | [] => 0
  | [a] => a.toNat * 256
  | a :: b :: bs => a.toNat * 256 + b.toNat + sumWords bs

/-- `while sum >> 16 != 0`: three rounds are enough for a sum below `2^32`. -/
def fold16 (n : Nat) : Nat :=
  let fold := fun n : Nat => n % 65536 + n / 65536
  fold (fold (fold n))

def protoTcp : UInt8 := 6

/-- Over the pseudo header and the segment; 0 is written as `0xFFFF`. -/
def checksum (src dst : Ip) (data : List UInt8) : Nat :=
  let len := data.length % 65536
  let pseudo := src ++ dst ++ [0,protoTcp,UInt8.ofNat (len / 256),UInt8.ofNat len]
  let r := 65535 - fold16 (sumWords pseudo + sumWords data)
  if r = 0 then 65535 else r

/-- The checksum of a segment is the one that `build_opts` would have put there. -/
def checksumOk (src dst : Ip) (data : List UInt8) : Bool :=
  (be16 data 16).toNat == checksum src dst ((data.set 16 0).set 17 0)

inductive TcpState where
  | closed | synSent | synReceived | established | finWait1 | finWait2 | closeWait | lastAck
  deriving DecidableEq, Repr

/-- `rx` are the first `rx_len` bytes of `rx_buf`. Hardware addresses and the round trip
estimate are left out: receiving does not look at them. -/
structure TcpSocket where
  state : TcpState
  localPort : UInt16
  remotePort : UInt16
  remoteIp : Ip
  localIp : Ip
  seq : UInt32
  ack : UInt32
  rx : List UInt8
  peerClosed : Bool
  peerAcked : UInt32
  sndWnd : UInt16
  peerMss : UInt16
  rxHandle : Option Nat

structure TcpPacket where
  seg : TcpSegment
  payload : List UInt8
  srcIp : Ip
  synMss : UInt16
  deriving DecidableEq

/-- A segment without data that goes out. -/
structure Reply where
  seq : UInt32
  ack : UInt32
  flags : UInt8
  window : Nat

namespace TcpSocket

def sendSegment (s : TcpSocket) (flags : UInt8) : Reply := ⟨s.seq,s.ack,flags,rxBuf - s.rx.length⟩

/-- The acknowledgement of a segment, unless it is older than the last one. -/
def acknowledge (s : TcpSocket) (seg : TcpSegment) : TcpSocket :=
  if seg.has flagAck && wrappingGe seg.ack s.peerAcked then { s with peerAcked := seg.ack } else s

/-- The bytes of a segment that comes next, as far as there is room. -/
def takeData (s : TcpSocket) (seg : TcpSegment) (data : List UInt8) : TcpSocket :=
  if !data.isEmpty && seg.seq == s.ack then
    let copy := min data.length (rxBuf - s.rx.length)
    { s with
      rx := s.rx ++ data.take copy
      ack := s.ack + UInt32.ofNat copy }
  else s

def takeFin (s : TcpSocket) (seg : TcpSegment) : TcpSocket :=
  if seg.has flagFin && seg.seq == s.ack then
    { s with
      ack := s.ack + 1
      peerClosed := true
      state := if s.state = .established then .closeWait else .closed }
  else s

/-- A segment in the states `Established`, `FinWait1` and `FinWait2`. -/
def dispatchOpen (s : TcpSocket) (seg : TcpSegment) (data : List UInt8) : TcpSocket × List Reply :=
  let s := ((s.acknowledge seg).takeData seg data).takeFin seg
  (s,if !data.isEmpty || seg.has flagFin then [s.sendSegment flagAck] else [])

/-- Every acknowledgement tells the window of the peer. -/
def noteWindow (s : TcpSocket) (seg : TcpSegment) : TcpSocket :=
  if seg.has flagAck then { s with sndWnd := seg.window } else s

/-- What `dispatch_segment` does by state. -/
def react (s : TcpSocket) (seg : TcpSegment) (data : List UInt8) : TcpSocket × List Reply :=
  match s.state with
  | .synSent =>
    if seg.has flagSyn && seg.has flagAck then
      let s := { s with
        ack := seg.seq + 1
        seq := seg.ack
        peerAcked := seg.ack
        state := .established }
      (s,[s.sendSegment flagAck])
    else (s,[])
  | .synReceived =>
    if seg.has flagAck && seg.ack == s.seq then
      let s := { s with
        peerAcked := seg.ack
        state := .established }
      if !data.isEmpty || seg.has flagFin then s.dispatchOpen seg data else (s,[])
    else (s,[])
  | .established | .finWait1 | .finWait2 => s.dispatchOpen seg data
  | .closeWait => (s.acknowledge seg,[])
  | .lastAck => (if seg.has flagAck then { s with state := .closed } else s,[])
  | .closed => (s,[])

def dispatchSegment (s : TcpSocket) (seg : TcpSegment) (data : List UInt8) :
    TcpSocket × List Reply :=
  (s.noteWindow seg).react seg data

def noteMss (s : TcpSocket) (pkt : TcpPacket) : TcpSocket :=
  if pkt.seg.has flagSyn then { s with peerMss := pkt.synMss } else s

/-- One round of the loop in `recv_one`. -/
def process (s : TcpSocket) (pkt : TcpPacket) : TcpSocket × List Reply :=
  if pkt.seg.has flagRst then
    ({ s with
      state := .closed
      peerClosed := true },[])
  else (s.noteMss pkt).dispatchSegment pkt.seg pkt.payload

end TcpSocket

structure TcpConnSlot where
  localPort : UInt16
  remoteIp : Ip
  remotePort : UInt16
  queue : List TcpPacket

structure SynRequest where
  srcIp : Ip
  srcPort : UInt16
  seq : UInt32
  mss : UInt16

structure ListenSlot where
  port : UInt16
  queue : List SynRequest

/-- The queues, and the sockets that take from them by their handles. -/
structure Stack where
  conns : List (Option TcpConnSlot)
  listeners : List (Option ListenSlot)
  socks : Nat → TcpSocket

def TcpConnSlot.takes (c : TcpConnSlot) (seg : TcpSegment) (srcIp : Ip) : Bool :=
  c.localPort == seg.dstPort && c.remotePort == seg.srcPort && c.remoteIp == srcIp

def packetOf (seg : TcpSegment) (srcIp : Ip) (bytes : List UInt8) : TcpPacket where
  seg := seg
  payload := seg.payload bytes
  srcIp := srcIp
  synMss := if seg.has flagSyn then (parseMssOption bytes seg).getD 536 else 536

namespace Stack

/-- The first connection that a segment belongs to. -/
def connOf (n : Stack) (seg : TcpSegment) (srcIp : Ip) : Option Nat :=
  n.conns.findIdx? fun o => o.any fun c => c.takes seg srcIp

def enqueue (n : Stack) (h : Nat) (pkt : TcpPacket) : Stack :=
  { n with conns := n.conns.modify h (Option.map fun c =>
      if c.queue.length < queueCap then { c with queue := c.queue ++ [pkt] } else c) }

def enqueueSyn (n : Stack) (i : Nat) (r : SynRequest) : Stack :=
  { n with listeners := n.listeners.modify i (Option.map fun l =>
      if l.queue.length < queueCap then { l with queue := l.queue ++ [r] } else l) }

def handleTcp (n : Stack) (srcIp : Ip) (bytes : List UInt8) : Stack :=
  match TcpSegment.parse bytes with
  | none => n
  | some seg =>
    match n.connOf seg srcIp with
    | some h => n.enqueue h (packetOf seg srcIp bytes)
    | none =>
      if seg.has flagSyn && !seg.has flagAck then
        match n.listeners.findIdx? fun o => o.any fun l => l.port == seg.dstPort with
        | some i => n.enqueueSyn i ⟨srcIp,seg.srcPort,seg.seq,(parseMssOption bytes seg).getD 536⟩
        | none => n
      else n

/-- `recv_one` takes the packets of a connection and leaves its queue empty. -/
def recvOne (n : Stack) (h : Nat) : Stack :=
  match n.conns[h]? with
  | some (some c) =>
    { n with
      conns := n.conns.set h (some { c with queue := [] })
      socks := Function.update n.socks h (c.queue.foldl (fun s pkt => (s.process pkt).1) (n.socks h)) }
  | _ => n

end Stack

/-- Where a process is in `socket::recv`, with the size of its buffer: outside, at the head
of the loop, taking packets, or before the test for a timeout. -/
inductive Phase where
  | idle
  | top (n : Nat)
  | drain (n : Nat)
  | wait (n : Nat)
  deriving DecidableEq

/-- A connection and the process that reads from it. With a packet stands its place in the
peer's stream, which the code does not know. `handed` is what `recv` has returned; `ended`
is set when it returned 0 for a buffer that is not empty. -/
structure Reader where
  sock : TcpSocket
  queue : List (Nat × TcpPacket)
  phase : Phase
  handed : List UInt8
  ended : Bool

inductive Event where
  /-- A segment is queued by `handle_tcp`. -/
  | arrive (place : Nat) (pkt : TcpPacket)
  /-- `recv` is called. -/
  | call (n : Nat)
  /-- Ctrl-C is seen at the head of the loop. -/
  | interrupt
  /-- `recv_one` is called in `recv`. -/
  | enter
  /-- `recv_one` takes a packet, in `recv` or in one of the loops of `connect`, `send` and
  `close`. -/
  | take
  /-- `recv_one` has found its queue empty. -/
  | copy
  | timeout
  /-- The loop goes on after `yield_now`. -/
  | again
  /-- `send` has sent some bytes. -/
  | sent (n : UInt32)
  /-- `close` sends a FIN. -/
  | shut
  /-- `close` or `send` gives the connection up. -/
  | abort

namespace Reader

/-- `recv` returns 0. -/
def returnZero (r : Reader) (n : Nat) : Reader :=
  { r with
    phase := .idle
    ended := r.ended || decide (0 < n) }

/-- `recv_one_into` behind the loop, and the tests of `recv`. -/
def copyOut (r : Reader) (n : Nat) : Reader :=
  let take := min r.sock.rx.length n
  if 0 < take then
    { r with
      sock := { r.sock with rx := r.sock.rx.drop take }
      handed := r.handed ++ r.sock.rx.take take
      phase := .idle }
  else if r.sock.peerClosed then r.returnZero n
  else { r with phase := .wait n }

def takePacket (r : Reader) : Reader :=
  match r.queue with
  | [] => r
  | (_,pkt) :: q => { r with sock := (r.sock.process pkt).1, queue := q }

def shut (s : TcpSocket) : TcpSocket :=
  match s.state with
  | .established => { s with seq := s.seq + 1, state := .finWait1 }
  | .closeWait => { s with seq := s.seq + 1, state := .lastAck }
  | _ => s

/-- Events that cannot happen now change nothing. -/
def step (r : Reader) : Event → Reader
  | .arrive place pkt =>
    if r.queue.length < queueCap then { r with queue := r.queue ++ [(place,pkt)] } else r
  | .call n => if r.phase = .idle then { r with phase := .top n } else r
  | .interrupt =>
    match r.phase with
    | .top n => r.returnZero n
    | _ => r
  | .enter =>
    match r.phase with
    | .top n => { r with phase := .drain n }
    | _ => r
  | .take =>
    match r.phase with
    | .idle | .drain _ => r.takePacket
    | _ => r
  | .copy =>
    match r.phase with
    | .drain n => if r.queue.isEmpty then r.copyOut n else r
    | _ => r
  | .timeout =>
    match r.phase with
    | .wait n => r.returnZero n
    | _ => r
  | .again =>
    match r.phase with
    | .wait n => { r with phase := .top n }
    | _ => r
  | .sent n => { r with sock := { r.sock with seq := r.sock.seq + n } }
  | .shut => { r with sock := shut r.sock }
  | .abort => { r with sock := { r.sock with state := .closed } }

def run (r : Reader) (es : List Event) : Reader := es.foldl step r

end Reader

open Function

def maxSockets : Nat := 64

inductive SockState where
  | unconnected | connected | busy
  deriving DecidableEq

inductive SockKind where
  | tcp | listener | udp
  deriving DecidableEq

/-- A connection or a listener, by who asked for it: the process, its descriptor, and which of
the sockets of that number it was. -/
structure Endpoint where
  pid : Nat
  idx : Nat
  gen : Nat
  deriving DecidableEq

structure Slot where
  active : Bool
  ownerPid : Nat
  state : SockState
  kind : SockKind
  tcp : Option Endpoint
  listener : Option Endpoint
  bound : Bool
  deriving DecidableEq

def Slot.empty : Slot := ⟨false,0,.unconnected,.tcp,none,none,false⟩

inductive SockCall where
  | bind | listen | accept | connect | send | recv | close
  deriving DecidableEq

/-- Where a process is between two sections under the lock of the table. -/
inductive Pc where
  | idle
  /-- The descriptor was the caller's when `owned_by` looked. -/
  | checked (call : SockCall) (idx : Nat)
  /-- `send` or `recv` of something that is not a datagram socket. -/
  | stream (idx : Nat)
  | connecting (idx gen : Nat)
  /-- The connection is out of its slot. -/
  | holding (idx gen : Nat) (conn : Endpoint)
  | accepting (idx gen : Nat) (listener : Endpoint)
  /-- A connection has been accepted that has no slot yet. -/
  | accepted
  | parking (idx gen : Nat)
  deriving DecidableEq

/-- `SOCKETS` and the processes. What the code does not keep: `gen` counts the sockets that
a slot has been, and `used` are the connections read, written or closed by processes. -/
structure Sockets where
  slots : Nat → Slot
  gen : Nat → Nat
  pc : Nat → Pc
  used : List (Nat × Endpoint)

inductive SockEvent where
  | socket (pid : Nat) (kind : SockKind)
  /-- A system call on a descriptor begins. -/
  | begin (pid : Nat) (call : SockCall) (idx : Nat)
  /-- The next section of a call. `ok` is how the network has answered before it. -/
  | next (pid : Nat) (ok : Bool)
  /-- `close_all_for_pid`. -/
  | exit (pid : Nat)

namespace Sockets

variable (s : Sockets)

def setSlot (i : Nat) (sl : Slot) : Sockets := { s with slots := update s.slots i sl }

def goto (pid : Nat) (pc : Pc) : Sockets := { s with pc := update s.pc pid pc }

def freeSlot : Option Nat := (List.range maxSockets).find? fun i => !(s.slots i).active

/-- The first free slot becomes a new socket. -/
def create (pid : Nat) (kind : SockKind) : Option (Nat × Sockets) :=
  s.freeSlot.map fun i =>
    (i,{ s.setSlot i { Slot.empty with active := true, ownerPid := pid, kind := kind } with
      gen := update s.gen i (s.gen i + 1) })

def ownedBy (idx pid : Nat) : Bool := (s.slots idx).active && (s.slots idx).ownerPid == pid

def bind (pid idx : Nat) : Sockets :=
  let sl := s.slots idx
  if sl.active && sl.kind == .tcp && sl.state == .unconnected then
    (s.setSlot idx { sl with bound := true }).goto pid .idle
  else s.goto pid .idle

def listen (pid idx : Nat) : Sockets :=
  let sl := s.slots idx
  if sl.active && sl.kind == .tcp && sl.state == .unconnected && sl.bound then
    (s.setSlot idx { sl with listener := some ⟨pid,idx,s.gen idx⟩, kind := .listener }).goto pid .idle
  else s.goto pid .idle

/-- `close_fd`: the connection is closed behind the lock. -/
def closeFd (pid idx : Nat) : Sockets :=
  let sl := s.slots idx
  if sl.active then
    { (s.setSlot idx Slot.empty).goto pid .idle with
      used := sl.tcp.toList.map (pid,·) ++ s.used }
  else s.goto pid .idle

/-- The listener is taken out of its slot. -/
def acceptTake (pid idx : Nat) : Sockets :=
  let sl := s.slots idx
  if sl.active && sl.kind == .listener && sl.state != .busy then
    match sl.listener with
    | some l =>
      (s.setSlot idx { sl with listener := none, state := .busy }).goto pid (.accepting idx (s.gen idx) l)
    | none => s.goto pid .idle
  else s.goto pid .idle

/-- The listener goes back, unless the socket was closed. -/
def acceptReturn (pid idx : Nat) (l : Endpoint) (ok : Bool) : Sockets :=
  let sl := s.slots idx
  let s :=
    if sl.active && sl.state == .busy then
      s.setSlot idx { sl with listener := some l, state := .unconnected }
    else s
  s.goto pid (if ok then .accepted else .idle)

def acceptCreate (pid : Nat) : Sockets :=
  match s.create pid .tcp with
  | some (i,t) => t.goto pid (.parking i (t.gen i))
  | none => s.goto pid .idle

/-- The new connection is put into its slot. If its address cannot be told to the caller,
`sys_accept` closes it. -/
def acceptStore (pid idx gen : Nat) (ok : Bool) : Sockets :=
  (s.setSlot idx { s.slots idx with tcp := some ⟨pid,idx,gen⟩, state := .connected }).goto pid
    (if ok then .idle else .checked .close idx)

/-- The first section of `connect`; a datagram socket only notes its peer. -/
def connectStart (pid idx : Nat) : Sockets :=
  let sl := s.slots idx
  if sl.active && sl.kind == .tcp && sl.state == .unconnected then
    (s.setSlot idx { sl with state := .busy }).goto pid (.connecting idx (s.gen idx))
  else s.goto pid .idle

/-- The last section of `connect`, with the handshake done or failed. -/
def connectDone (pid idx gen : Nat) (ok : Bool) : Sockets :=
  let sl := s.slots idx
  if !sl.active then s.goto pid .idle
  else if ok then
    (s.setSlot idx { sl with tcp := some ⟨pid,idx,gen⟩, state := .connected }).goto pid .idle
  else (s.setSlot idx { sl with state := .unconnected }).goto pid .idle

/-- `send` and `recv` look for a datagram socket first. -/
def transferStart (pid idx : Nat) : Sockets :=
  let sl := s.slots idx
  if sl.active && sl.kind == .udp then s.goto pid .idle else s.goto pid (.stream idx)

def takeConnected (pid idx : Nat) : Sockets :=
  let sl := s.slots idx
  if sl.active && sl.kind == .tcp && sl.state == .connected then
    match sl.tcp with
    | some conn =>
      { (s.setSlot idx { sl with tcp := none, state := .busy }).goto pid (.holding idx (s.gen idx) conn) with
        used := (pid,conn) :: s.used }
    | none => s.goto pid .idle
  else s.goto pid .idle

def returnSocket (pid idx : Nat) (conn : Endpoint) : Sockets :=
  let sl := s.slots idx
  if sl.active && sl.state == .busy then
    (s.setSlot idx { sl with tcp := some conn, state := .connected }).goto pid .idle
  else s.goto pid .idle

def next (pid : Nat) (ok : Bool) : Sockets :=
  match s.pc pid with
  | .idle => s
  | .checked .bind idx => s.bind pid idx
  | .checked .listen idx => s.listen pid idx
  | .checked .accept idx => s.acceptTake pid idx
  | .checked .connect idx => s.connectStart pid idx
  | .checked .send idx => s.transferStart pid idx
  | .checked .recv idx => s.transferStart pid idx
  | .checked .close idx => s.closeFd pid idx
  | .stream idx => s.takeConnected pid idx
  | .connecting idx gen => s.connectDone pid idx gen ok
  | .holding idx _ conn => s.returnSocket pid idx conn
  | .accepting idx _ l => s.acceptReturn pid idx l ok
  | .accepted => s.acceptCreate pid
  | .parking idx gen => s.acceptStore pid idx gen ok

/-- Every socket of the process is freed, whatever it is doing. -/
def closeAllForPid (pid : Nat) : Sockets :=
  { s with slots := fun i => if s.ownedBy i pid && decide (i < maxSockets) then Slot.empty else s.slots i }

def step (s : Sockets) : SockEvent → Sockets
  | .socket pid kind =>
    if s.pc pid = .idle ∧ kind ≠ .listener then (s.create pid kind).elim s Prod.snd else s
  | .begin pid call idx =>
    if s.pc pid = .idle ∧ idx < maxSockets ∧ s.ownedBy idx pid then s.goto pid (.checked call idx) else s
  | .next pid ok => s.next pid ok
  | .exit pid => s.closeAllForPid pid

def run (s : Sockets) (es : List SockEvent) : Sockets := es.foldl step s

/-- No socket is open and no call under way. -/
def booted : Sockets := ⟨fun _ => Slot.empty,fun _ => 0,fun _ => .idle,[]⟩

end Sockets

end Miku.Net
