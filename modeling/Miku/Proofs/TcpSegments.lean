import Miku.Net.Tcp
import Miku.Lib.Run

namespace Miku.Net
open List Option

namespace TcpSocket

variable {s : TcpSocket} {seg : TcpSegment} {data : List UInt8}

/-- Nothing is acknowledged that was not before, or it is older. -/
def NoNewAck (s : TcpSocket) (seg : TcpSegment) : Prop :=
  seg.has flagAck → wrappingGe seg.ack s.peerAcked → seg.ack = s.peerAcked

/-- The next bytes come, and there is room for them. -/
def Accepts (s : TcpSocket) (seg : TcpSegment) (data : List UInt8) : Prop :=
  data ≠ [] ∧ seg.seq = s.ack ∧ s.rx.length < rxBuf

/-- What a packet must not do in the states with an open connection. -/
def InertOpen (s : TcpSocket) (seg : TcpSegment) (data : List UInt8) : Prop :=
  s.NoNewAck seg ∧ ¬s.Accepts seg data ∧ ¬(seg.has flagFin ∧ seg.seq = s.ack)

def InertIn (s : TcpSocket) (seg : TcpSegment) (data : List UInt8) : TcpState → Prop
  | .synSent => ¬(seg.has flagSyn ∧ seg.has flagAck)
  | .synReceived => ¬(seg.has flagAck ∧ seg.ack = s.seq)
  | .established | .finWait1 | .finWait2 => s.InertOpen seg data
  | .closeWait => s.NoNewAck seg
  | .lastAck => ¬seg.has flagAck
  | .closed => True

/-- A packet that says nothing new: no reset of a connection not closed yet, the same
segment size and window as before, and nothing that the state reacts to. -/
def Inert (s : TcpSocket) (pkt : TcpPacket) : Prop :=
  if pkt.seg.has flagRst then s.state = .closed ∧ s.peerClosed
  else (pkt.seg.has flagSyn → pkt.synMss = s.peerMss) ∧ (pkt.seg.has flagAck → pkt.seg.window = s.sndWnd) ∧
    s.InertIn pkt.seg pkt.payload s.state

theorem acknowledge_eq_iff : s.acknowledge seg = s ↔ s.NoNewAck seg := by
  rw [acknowledge,NoNewAck]
  split
  · rename_i h
    simp only [Bool.and_eq_true] at h
    constructor
    · exact fun he _ _ => congrArg peerAcked he
    · intro hn
      rw [hn h.1 h.2]
  · rename_i h
    simp only [Bool.and_eq_true] at h
    simp only [true_iff]
    exact fun h1 h2 => absurd ⟨h1,h2⟩ h

theorem takeData_of_not (h : ¬s.Accepts seg data) : s.takeData seg data = s := by
  rw [takeData]
  split
  · rename_i hc
    simp only [Bool.and_eq_true,Bool.not_eq_true',isEmpty_eq_false_iff,beq_iff_eq] at hc
    have hr : rxBuf - s.rx.length = 0 := by
      by_contra hr
      exact h ⟨hc.1,hc.2,by omega⟩
    simp only [hr,Nat.min_zero,take_zero,append_nil]
    simp
  · rfl

theorem length_takeData (h : s.Accepts seg data) : s.rx.length < (s.takeData seg data).rx.length := by
  obtain ⟨hd,hs,hl⟩ := h
  have hc : (!data.isEmpty && seg.seq == s.ack) = true := by simp [hd,hs]
  have := length_pos_iff.mpr hd
  rw [takeData,if_pos hc]
  simp only [length_append,length_take]
  omega

theorem rx_takeFin : (s.takeFin seg).rx = s.rx := by
  rw [takeFin]
  split <;> rfl

theorem rx_acknowledge : (s.acknowledge seg).rx = s.rx := by
  rw [acknowledge]
  split <;> rfl

theorem peerAcked_takeFin : (s.takeFin seg).peerAcked = s.peerAcked := by
  rw [takeFin]
  split <;> rfl

theorem accepts_acknowledge : (s.acknowledge seg).Accepts seg data ↔ s.Accepts seg data := by
  rw [acknowledge]
  split <;> rfl

theorem takeFin_of_not (h : ¬(seg.has flagFin ∧ seg.seq = s.ack)) : s.takeFin seg = s := by
  rw [takeFin,if_neg]
  simpa using h

theorem dispatchOpen_eq_iff (ho : s.state ≠ .closed ∧ s.state ≠ .closeWait) :
    (s.dispatchOpen seg data).1 = s ↔ s.InertOpen seg data := by
  simp only [dispatchOpen]
  constructor
  · intro he
    have hacc : ¬s.Accepts seg data := by
      intro h
      have hl := length_takeData (accepts_acknowledge.mpr h)
      rw [rx_acknowledge] at hl
      have hrx := congrArg (fun x => x.rx.length) he
      simp only [rx_takeFin] at hrx
      omega
    rw [takeData_of_not fun h => hacc (accepts_acknowledge.mp h)] at he
    have hack : s.NoNewAck seg := by
      rw [← acknowledge_eq_iff,acknowledge]
      have hp := congrArg peerAcked he
      rw [peerAcked_takeFin,acknowledge] at hp
      split
      · rename_i hc
        rw [if_pos hc] at hp
        simp only at hp
        rw [hp]
      · rfl
    rw [acknowledge_eq_iff.mpr hack] at he
    refine ⟨hack,hacc,fun hf => ?_⟩
    -- a FIN taken moves the connection to a state without one
    have hc : (seg.has flagFin && seg.seq == s.ack) = true := by simp [hf.1,hf.2]
    have hst := congrArg state he
    rw [takeFin,if_pos hc] at hst
    split at hst
    · exact ho.2 hst.symm
    · exact ho.1 hst.symm
  · rintro ⟨hack,hacc,hfin⟩
    rw [acknowledge_eq_iff.mpr hack,takeData_of_not hacc,takeFin_of_not hfin]

theorem state_dispatchOpen : (s.dispatchOpen seg data).1.state = s.state ∨
    (s.dispatchOpen seg data).1.state = .closeWait ∨ (s.dispatchOpen seg data).1.state = .closed := by
  have hs : ((s.acknowledge seg).takeData seg data).state = s.state := by
    rw [takeData,acknowledge]
    split <;> split <;> rfl
  simp only [dispatchOpen]
  rw [takeFin]
  split
  · split
    · exact .inr (.inl rfl)
    · exact .inr (.inr rfl)
  · exact .inl hs

theorem react_eq_iff : (s.react seg data).1 = s ↔ s.InertIn seg data s.state := by
  rw [react]
  cases h : s.state with
  | closed => simp [InertIn]
  | synSent =>
    simp only [InertIn]
    split
    · rename_i hc
      refine ⟨fun he => ?_,fun hn => absurd (by simpa using hc) hn⟩
      have hst := congrArg state he
      rw [h] at hst
      cases hst
    · rename_i hc
      exact ⟨fun _ => by simpa using hc,fun _ => rfl⟩
  | synReceived =>
    simp only [InertIn]
    split
    · rename_i hc
      refine ⟨fun he => ?_,fun hn => absurd (by simpa using hc) hn⟩
      -- the connection is established, and a FIN can only take it further
      have hst := congrArg state he
      rw [h] at hst
      split at hst
      · rcases @state_dispatchOpen { s with peerAcked := seg.ack, state := .established } seg data
          with h1 | h1 | h1
        all_goals
          rw [hst] at h1
          cases h1
      · cases hst
    · rename_i hc
      exact ⟨fun _ => by simpa using hc,fun _ => rfl⟩
  | established | finWait1 | finWait2 => exact dispatchOpen_eq_iff (by simp [h])
  | closeWait => exact acknowledge_eq_iff
  | lastAck =>
    simp only [InertIn]
    split
    · rename_i hc
      refine ⟨fun he => ?_,fun hn => absurd hc hn⟩
      have hst := congrArg state he
      rw [h] at hst
      cases hst
    · rename_i hc
      exact ⟨fun _ => hc,fun _ => rfl⟩

theorem notes_dispatchOpen : (s.dispatchOpen seg data).1.peerMss = s.peerMss ∧
    (s.dispatchOpen seg data).1.sndWnd = s.sndWnd := by
  simp only [dispatchOpen,takeFin,takeData,acknowledge]
  split <;> split <;> split <;> exact ⟨rfl,rfl⟩

theorem notes_react : (s.react seg data).1.peerMss = s.peerMss ∧
    (s.react seg data).1.sndWnd = s.sndWnd := by
  rw [react]
  split
  · split <;> exact ⟨rfl,rfl⟩
  · split
    · split
      · exact notes_dispatchOpen
      · exact ⟨rfl,rfl⟩
    · exact ⟨rfl,rfl⟩
  · exact notes_dispatchOpen
  · exact notes_dispatchOpen
  · exact notes_dispatchOpen
  · rw [acknowledge]
    split <;> exact ⟨rfl,rfl⟩
  · split <;> exact ⟨rfl,rfl⟩
  · exact ⟨rfl,rfl⟩

theorem noteMss_eq_iff : s.noteMss pkt = s ↔ (pkt.seg.has flagSyn → pkt.synMss = s.peerMss) := by
  rw [noteMss]
  split
  · rename_i h
    exact ⟨fun he _ => congrArg peerMss he,fun hm => by rw [hm h]⟩
  · rename_i h
    exact ⟨fun _ h' => absurd h' h,fun _ => rfl⟩

theorem noteWindow_eq_iff : s.noteWindow seg = s ↔ (seg.has flagAck → seg.window = s.sndWnd) := by
  rw [noteWindow]
  split
  · rename_i h
    exact ⟨fun he _ => congrArg sndWnd he,fun hm => by rw [hm h]⟩
  · rename_i h
    exact ⟨fun _ h' => absurd h' h,fun _ => rfl⟩

theorem process_eq_iff : (s.process pkt).1 = s ↔ s.Inert pkt := by
  rw [process,Inert]
  split
  · constructor
    · intro he
      exact ⟨(congrArg state he).symm,(congrArg peerClosed he).symm⟩
    · rintro ⟨hs,hp⟩
      rw [← hs,← hp]
  · rw [dispatchSegment]
    constructor
    · intro he
      -- the notes are not touched again, so they must be the old ones
      have hn := @notes_react ((s.noteMss pkt).noteWindow pkt.seg) pkt.seg pkt.payload
      rw [he] at hn
      have hmss : s.noteMss pkt = s := by
        rw [noteMss_eq_iff]
        intro hf
        have := hn.1
        rw [noteWindow,noteMss,if_pos hf] at this
        split at this <;> exact this.symm
      rw [hmss] at hn he
      have hwnd : s.noteWindow pkt.seg = s := by
        rw [noteWindow_eq_iff]
        intro hf
        have := hn.2
        rw [noteWindow,if_pos hf] at this
        exact this.symm
      rw [hwnd] at he
      exact ⟨noteMss_eq_iff.mp hmss,noteWindow_eq_iff.mp hwnd,react_eq_iff.mp he⟩
    · rintro ⟨hmss,hwnd,hin⟩
      rw [noteMss_eq_iff.mpr hmss,noteWindow_eq_iff.mpr hwnd]
      exact react_eq_iff.mpr hin

/-- The sequence number is one of those the connection has room for. -/
def inWindow (s : TcpSocket) (seq : UInt32) : Bool :=
  (seq - s.ack).toNat < rxBuf - s.rx.length

/-- A reset outside the window, an acknowledgement of what was never sent, or an answer to
a SYN not ours. -/
def Strange (s : TcpSocket) (seg : TcpSegment) : Prop :=
  seg.has flagRst ∧ ¬s.inWindow seg.seq ∨
  seg.has flagAck ∧ wrappingGt seg.ack s.seq ∨
  s.state = .synSent ∧ seg.has flagSyn ∧ seg.has flagAck ∧ seg.ack ≠ s.seq

end TcpSocket

namespace Stack

variable {n : Stack} {srcIp : Ip} {bytes : List UInt8}

/-- The packets that wait for a connection. -/
def pending (n : Stack) (h : Nat) : List TcpPacket :=
  match n.conns[h]? with
  | some (some c) => c.queue
  | _ => []

/-- Every connection takes its packets. -/
def drain (n : Stack) : Stack := (List.range n.conns.length).foldl recvOne n

/-- A segment is received, and every connection takes what is queued for it. -/
def receive (n : Stack) (srcIp : Ip) (bytes : List UInt8) : Stack := (n.handleTcp srcIp bytes).drain

theorem socks_recvOne : (n.recvOne h).socks k =
    if k = h then (n.pending h).foldl (fun s pkt => (s.process pkt).1) (n.socks h) else n.socks k := by
  by_cases hk : k = h
  · subst hk
    rcases hc : n.conns[k]? with _ | _ | c <;> simp [recvOne,pending,hc]
  · rcases hc : n.conns[h]? with _ | _ | c <;> simp [recvOne,hc,hk]

theorem pending_recvOne (hk : k ≠ h) : (n.recvOne h).pending k = n.pending k := by
  rw [recvOne]
  split
  · simp only [pending]
    rw [getElem?_set_ne (Ne.symm hk)]
  · rfl

theorem socks_foldl {hs : List Nat} (hnd : hs.Nodup) : (hs.foldl recvOne n).socks k =
    if k ∈ hs then (n.pending k).foldl (fun s pkt => (s.process pkt).1) (n.socks k) else n.socks k := by
  induction hs generalizing n with
  | nil => rfl
  | cons h hs ih =>
    obtain ⟨hh,hnd⟩ := nodup_cons.mp hnd
    rw [foldl_cons,ih hnd,socks_recvOne]
    by_cases hk : k = h
    · subst hk
      simp [hh]
    · rw [pending_recvOne hk]
      simp [hk]

theorem socks_drain :
    n.drain.socks k = (n.pending k).foldl (fun s pkt => (s.process pkt).1) (n.socks k) := by
  rw [drain,socks_foldl nodup_range]
  split
  · rfl
  · rename_i hk
    have : n.conns[k]? = none := getElem?_eq_none (by simpa using hk)
    simp [pending,this]

/-- The connection a segment belongs to, and the packet as it gets there. -/
def target (n : Stack) (srcIp : Ip) (bytes : List UInt8) : Option (Nat × TcpPacket) :=
  (TcpSegment.parse bytes).bind fun seg =>
    (n.connOf seg srcIp).map fun h => (h,packetOf seg srcIp bytes)

theorem socks_handleTcp : (n.handleTcp srcIp bytes).socks = n.socks := by
  rw [handleTcp]
  split
  · rfl
  · split
    · rfl
    · split
      · split <;> rfl
      · rfl

theorem pending_handleTcp (hidle : ∀ h, n.pending h = []) : (n.handleTcp srcIp bytes).pending k =
      match n.target srcIp bytes with
      | some (h,pkt) => if k = h then [pkt] else []
      | none => [] := by
  rw [handleTcp,target]
  cases hp : TcpSegment.parse bytes with
  | none => exact hidle k
  | some seg =>
    simp only [bind_some]
    cases hc : n.connOf seg srcIp with
    | some h =>
      simp only [map_some]
      obtain ⟨hlt,hany,-⟩ := findIdx?_eq_some_iff_getElem.mp hc
      obtain ⟨c,hslot⟩ : ∃ c, n.conns[h]? = some (some c) := by
        obtain ⟨c,hcs⟩ := isSome_iff_exists.mp (isSome_of_any hany)
        exact ⟨c,by rw [getElem?_eq_getElem hlt,hcs]⟩
      have hq : c.queue = [] := by
        have := hidle h
        rwa [pending,hslot] at this
      by_cases hk : k = h
      · subst hk
        simp [pending,enqueue,hslot,hq,queueCap]
      · have := hidle k
        rw [pending] at this ⊢
        simp only [enqueue,getElem?_modify,Ne.symm hk,if_neg hk,if_false]
        simpa using this
    | none =>
      simp only [map_none]
      split
      · split <;> exact hidle k
      · exact hidle k

theorem socks_receive (hidle : ∀ h, n.pending h = []) : (n.receive srcIp bytes).socks k =
    match n.target srcIp bytes with
    | some (h,pkt) => if k = h then ((n.socks k).process pkt).1 else n.socks k
    | none => n.socks k := by
  rw [receive,socks_drain,pending_handleTcp hidle,socks_handleTcp]
  split
  · split <;> rfl
  · rfl

/-- A segment with a wrong checksum, or one strange to its connection. -/
def OffPath (n : Stack) (srcIp dstIp : Ip) (bytes : List UInt8) : Prop :=
  ¬checksumOk srcIp dstIp bytes ∨
    ∃ h pkt, n.target srcIp bytes = some (h,pkt) ∧ (n.socks h).Strange pkt.seg

/-- No connection is changed by the segment. -/
def Unaffected (n : Stack) (srcIp : Ip) (bytes : List UInt8) : Prop :=
  ∀ h, (n.receive srcIp bytes).socks h = n.socks h

/-- The connection of the segment, if it has one, finds nothing new in it. -/
def SaysNothing (n : Stack) (srcIp : Ip) (bytes : List UInt8) : Prop :=
  ∀ h pkt, n.target srcIp bytes = some (h,pkt) → (n.socks h).Inert pkt

theorem unaffected_iff (hidle : ∀ h, n.pending h = []) :
    n.Unaffected srcIp bytes ↔ n.SaysNothing srcIp bytes := by
  rw [Unaffected,SaysNothing]
  constructor
  · intro hu h pkt ht
    have := hu h
    rw [socks_receive hidle,ht] at this
    simp only [if_true] at this
    exact TcpSocket.process_eq_iff.mp this
  · intro hi h
    rw [socks_receive hidle]
    split
    · rename_i k pkt ht
      split
      · rename_i hk
        subst hk
        exact TcpSocket.process_eq_iff.mpr (hi _ pkt ht)
      · rfl
    · rfl

/-- Nothing is checked: a segment from off the path is harmless if and only if it says
nothing that its connection would take from the peer. -/
theorem off_path_harmless_iff (n : Stack) (hidle : ∀ h, n.pending h = []) (srcIp dstIp : Ip)
    (bytes : List UInt8) : (n.OffPath srcIp dstIp bytes → n.Unaffected srcIp bytes) ↔
      (n.OffPath srcIp dstIp bytes → n.SaysNothing srcIp bytes) :=
  forall_congr' fun _ => unaffected_iff hidle

/-- A client at 10.0.0.1 connected to a server at 10.0.0.2. -/
def client : TcpSocket where
  state := .established
  localPort := 50000
  remotePort := 80
  remoteIp := [10,0,0,2]
  localIp := [10,0,0,1]
  seq := 1001
  ack := 7001
  rx := []
  peerClosed := false
  peerAcked := 1001
  sndWnd := 8192
  peerMss := 1460
  rxHandle := some 0

def clientStack : Stack where
  conns := [some ⟨50000,[10,0,0,2],80,[]⟩]
  listeners := []
  socks _ := client

theorem pending_clientStack (h : Nat) : clientStack.pending h = [] := by
  cases h <;> rfl

/-- A header without options from port 80 to port 50000; `seq` is the highest byte of the
sequence number, and the checksum field is zero. -/
def header (seq flags : UInt8) : List UInt8 :=
  [0,80,195,80,seq,0,0,0,0,0,0,0,80,flags,32,0,0,0,0,0]

/-- A bare segment without flags and with a wrong checksum is harmless. -/
theorem off_path_harmless_bare : clientStack.OffPath [10,0,0,2] [10,0,0,1] (header 9 0) ∧
    clientStack.Unaffected [10,0,0,2] (header 9 0) := by
  have hoff : clientStack.OffPath [10,0,0,2] [10,0,0,1] (header 9 0) := .inl (by decide +kernel)
  refine ⟨hoff,(off_path_harmless_iff clientStack pending_clientStack _ [10,0,0,1] _).mpr ?_ hoff⟩
  intro _ h pkt ht
  have he : clientStack.target [10,0,0,2] (header 9 0) =
      some (0,packetOf ⟨80,50000,150994944,0,0,8192,20⟩ [10,0,0,2] (header 9 0)) := by decide +kernel
  rw [he] at ht
  cases ht
  exact ⟨nofun,nofun,nofun,fun ha => ha.1 rfl,nofun⟩

/-- A reset closes the connection, though its checksum is wrong and its sequence number far
outside the window. -/
theorem stray_reset_closes : clientStack.OffPath [10,0,0,2] [10,0,0,1] (header 9 flagRst) ∧
    ¬clientStack.Unaffected [10,0,0,2] (header 9 flagRst) := by
  refine ⟨.inl (by decide +kernel),fun hu => ?_⟩
  have hst : ((clientStack.receive [10,0,0,2] (header 9 flagRst)).socks 0).state = .closed := by
    decide +kernel
  rw [hu 0] at hst
  cases hst

end Stack

open Lib

/-- The other side of a connection: its first sequence number and all it ever sends. -/
structure Peer where
  isn : UInt32
  stream : List UInt8

/-- The number of a segment, counted from the SYN, which is 0. -/
def TcpPacket.number (pkt : TcpPacket) (place : Nat) : Nat :=
  if pkt.seg.has flagSyn then place else place + 1

/-- A segment of the peer: its bytes are those of the stream at its place, and a FIN comes
behind all of them. -/
structure Peer.Sends (p : Peer) (place : Nat) (pkt : TcpPacket) : Prop where
  seq : pkt.seg.seq = p.isn + UInt32.ofNat (pkt.number place)
  syn : pkt.seg.has flagSyn → place = 0
  data : pkt.payload <+: p.stream.drop place
  fin : pkt.seg.has flagFin → place + pkt.payload.length = p.stream.length

instance {p : Peer} {place : Nat} {pkt : TcpPacket} : Decidable (p.Sends place pkt) :=
  decidable_of_iff (pkt.seg.seq = p.isn + UInt32.ofNat (pkt.number place) ∧
      (pkt.seg.has flagSyn → place = 0) ∧ pkt.payload <+: p.stream.drop place ∧
      (pkt.seg.has flagFin → place + pkt.payload.length = p.stream.length))
    ⟨fun ⟨h1,h2,h3,h4⟩ => ⟨h1,h2,h3,h4⟩,fun ⟨h1,h2,h3,h4⟩ => ⟨h1,h2,h3,h4⟩⟩

namespace Reader

variable {p : Peer} {r : Reader} {s : TcpSocket} {pkt : TcpPacket} {place : Nat}

/-- All that was taken from the connection. -/
def received (r : Reader) : List UInt8 := r.handed ++ r.sock.rx

/-- A segment that is no reset, is less than `2^32` away from what comes next, and brings
no FIN with bytes for which there is no room at all. -/
def Plain (r : Reader) (place : Nat) (pkt : TcpPacket) : Prop :=
  pkt.seg.has flagRst = false ∧
  pkt.number place < r.received.length + 1 + 4294967296 ∧
  r.received.length + 1 < pkt.number place + 4294967296 ∧
  ¬(pkt.seg.has flagFin ∧ pkt.payload ≠ [] ∧ pkt.seg.seq = r.sock.ack ∧ rxBuf ≤ r.sock.rx.length)

/-- Only segments of the peer arrive, those taken are plain ones, and `recv` is not
interrupted and does not time out. -/
def Fair (p : Peer) (r : Reader) : Event → Prop
  | .arrive place pkt => p.Sends place pkt
  | .take => ∀ place pkt q, r.queue = (place,pkt) :: q → r.Plain place pkt
  | .interrupt => ∀ n, r.phase = .top n → n = 0
  | .timeout => ∀ n, r.phase = .wait n → n = 0
  | _ => True

instance : Decidable (r.Plain place pkt) := inferInstanceAs (Decidable (_ ∧ _ ∧ _ ∧ ¬_))

instance {e : Event} : Decidable (Fair p r e) :=
  match e with
  | .arrive place pkt => inferInstanceAs (Decidable (p.Sends place pkt))
  | .take =>
    match h : r.queue with
    | [] => .isTrue fun _ _ _ hq => nomatch h.symm.trans hq
    | (place,pkt) :: q => decidable_of_iff (r.Plain place pkt)
        ⟨fun hp _ _ _ hq => by cases h.symm.trans hq; exact hp,fun hp => hp place pkt q h⟩
  | .interrupt =>
    match h : r.phase with
    | .top n => decidable_of_iff (n = 0)
        ⟨fun hn _ hp => by cases h.symm.trans hp; exact hn,fun hn => hn n h⟩
    | .idle | .drain _ | .wait _ => .isTrue fun _ hp => nomatch h.symm.trans hp
  | .timeout =>
    match h : r.phase with
    | .wait n => decidable_of_iff (n = 0)
        ⟨fun hn _ hp => by cases h.symm.trans hp; exact hn,fun hn => hn n h⟩
    | .idle | .drain _ | .top _ => .isTrue fun _ hp => nomatch h.symm.trans hp
  | .call _ | .enter | .copy | .again | .sent _ | .shut | .abort => .isTrue True.intro

/-- What the application has got is a prefix of the stream, and it has all of it when it is
told of the end. -/
def Intact (p : Peer) (r : Reader) : Prop :=
  r.handed <+: p.stream ∧ (r.ended → r.handed = p.stream)

/-- What the receiver knows of the stream in each state. `k` bytes were received. -/
def Knows (p : Peer) (s : TcpSocket) (k : Nat) : TcpState → Prop
  | .synSent => k = 0 ∧ s.peerClosed = false
  | .synReceived => k = 0 ∧ s.peerClosed = false ∧ s.ack = p.isn + UInt32.ofNat (k + 1)
  | .established | .finWait1 | .finWait2 =>
    s.peerClosed = false ∧ s.ack = p.isn + UInt32.ofNat (k + 1)
  | .closeWait | .lastAck | .closed => s.peerClosed → k = p.stream.length

structure Inv (p : Peer) (r : Reader) : Prop where
  queue : ∀ e ∈ r.queue, p.Sends e.1 e.2
  prefix_ : r.received <+: p.stream
  knows : Knows p r.sock r.received.length r.sock.state
  ended : r.ended → r.handed = p.stream

theorem eq_of_seq (h : isn + UInt32.ofNat a = isn + UInt32.ofNat b)
    (h1 : a < b + 4294967296) (h2 : b < a + 4294967296) : a = b := by
  have := congrArg UInt32.toNat h
  simp only [UInt32.toNat_add,UInt32.toNat_ofNat'] at this
  omega

/-- A segment with the next sequence number is at the next place. -/
theorem place_of_seq (hs : p.Sends place pkt) (hseq : pkt.seg.seq = p.isn + UInt32.ofNat (k + 1))
    (h1 : pkt.number place < k + 1 + 4294967296) (h2 : k + 1 < pkt.number place + 4294967296) :
    place = k := by
  have hn := eq_of_seq (hs.seq.symm.trans hseq) h1 h2
  rw [TcpPacket.number] at hn
  split at hn
  · have := hs.syn ‹_›
    omega
  · omega

theorem acknowledge_fields {seg : TcpSegment} : (s.acknowledge seg).rx = s.rx ∧
    (s.acknowledge seg).ack = s.ack ∧ (s.acknowledge seg).peerClosed = s.peerClosed ∧
    (s.acknowledge seg).state = s.state := by
  rw [TcpSocket.acknowledge]
  split <;> exact ⟨rfl,rfl,rfl,rfl⟩

def Open (s : TcpSocket) : Prop := s.state = .established ∨ s.state = .finWait1 ∨ s.state = .finWait2

theorem knows_open (h : Open s) : Knows p s k s.state ↔
    s.peerClosed = false ∧ s.ack = p.isn + UInt32.ofNat (k + 1) := by
  rcases h with h | h | h <;> rw [h] <;> rfl

section

variable (hs : p.Sends place pkt) (h1 : pkt.number place < (h ++ s.rx).length + 1 + 4294967296)
  (h2 : (h ++ s.rx).length + 1 < pkt.number place + 4294967296)
include hs h1 h2

theorem takeData_knows (hpre : h ++ s.rx <+: p.stream)
    (hack : s.ack = p.isn + UInt32.ofNat ((h ++ s.rx).length + 1)) :
    h ++ (s.takeData pkt.seg pkt.payload).rx <+: p.stream ∧ (s.takeData pkt.seg pkt.payload).ack =
        p.isn + UInt32.ofNat ((h ++ (s.takeData pkt.seg pkt.payload).rx).length + 1) := by
  rw [TcpSocket.takeData]
  split
  · rename_i hc
    simp only [Bool.and_eq_true,beq_iff_eq] at hc
    have hplace := place_of_seq hs (hc.2.trans hack) h1 h2
    obtain ⟨rest,hrest⟩ := hpre
    have hd := hs.data
    rw [hplace,← hrest,drop_left] at hd
    generalize hcopy : min pkt.payload.length (rxBuf - s.rx.length) = copy
    constructor
    · rw [← append_assoc,← hrest]
      exact (prefix_append_right_inj _).mpr (( take_prefix copy _).trans hd)
    · have hlen : (h ++ (s.rx ++ pkt.payload.take copy)).length = (h ++ s.rx).length + copy := by
        simp only [length_append,length_take]
        omega
      rw [hack,hlen]
      apply UInt32.toNat_inj.mp
      simp only [UInt32.toNat_add,UInt32.toNat_ofNat']
      omega
  · exact ⟨hpre,hack⟩

variable (hroom : ¬(pkt.seg.has flagFin ∧ pkt.payload ≠ [] ∧ pkt.seg.seq = s.ack ∧
  rxBuf ≤ s.rx.length))
include hroom

/-- A FIN taken stands behind the last byte. -/
theorem received_of_fin (hack : s.ack = p.isn + UInt32.ofNat ((h ++ s.rx).length + 1))
    (hf : pkt.seg.has flagFin) (hseq : pkt.seg.seq = (s.takeData pkt.seg pkt.payload).ack) :
    (h ++ (s.takeData pkt.seg pkt.payload).rx).length = p.stream.length := by
  rw [TcpSocket.takeData] at hseq ⊢
  split at hseq
  · -- bytes taken have moved the number that comes next
    rename_i hc
    simp only [Bool.and_eq_true,beq_iff_eq,Bool.not_eq_true',isEmpty_eq_false_iff] at hc
    have hlt : s.rx.length < rxBuf := by
      by_contra hge
      exact hroom ⟨hf,hc.1,hc.2,by omega⟩
    have hpos := length_pos_iff.mpr hc.1
    dsimp only at hseq
    rw [hc.2] at hseq
    have := congrArg UInt32.toNat hseq
    simp only [UInt32.toNat_add,UInt32.toNat_ofNat',rxBuf] at this hlt
    omega
  · rename_i hc
    rw [if_neg hc]
    have hd : pkt.payload = [] := by
      by_contra hd
      exact hc (by simp [hd,hseq])
    have hplace := place_of_seq hs (hseq.trans hack) h1 h2
    have := hs.fin hf
    rw [hd,hplace] at this
    simpa using this

variable (hpre : h ++ s.rx <+: p.stream) (hk : Knows p s (h ++ s.rx).length s.state)
include hpre hk

theorem dispatchOpen_knows (ho : Open s) : h ++ (s.dispatchOpen pkt.seg pkt.payload).1.rx <+: p.stream ∧
      Knows p (s.dispatchOpen pkt.seg pkt.payload).1
        (h ++ (s.dispatchOpen pkt.seg pkt.payload).1.rx).length
        (s.dispatchOpen pkt.seg pkt.payload).1.state := by
  obtain ⟨hrx,hack,hpc,hst⟩ := @acknowledge_fields s pkt.seg
  obtain ⟨hclosed,hnext⟩ := (knows_open ho).mp hk
  simp only [TcpSocket.dispatchOpen]
  generalize s.acknowledge pkt.seg = a at hrx hack hpc hst
  rw [← hrx] at hpre hnext h1 h2 hroom
  rw [← hack] at hnext hroom
  obtain ⟨hpre',hnext'⟩ := takeData_knows hs h1 h2 hpre hnext
  have hfin := received_of_fin hs h1 h2 hroom hnext
  have hpc' : (a.takeData pkt.seg pkt.payload).peerClosed = false := by
    rw [TcpSocket.takeData]
    split <;> exact hpc.trans hclosed
  have hst' : (a.takeData pkt.seg pkt.payload).state = s.state := by
    rw [TcpSocket.takeData]
    split <;> exact hst
  generalize a.takeData pkt.seg pkt.payload = b at *
  rw [TcpSocket.takeFin]
  split
  · rename_i hc
    simp only [Bool.and_eq_true,beq_iff_eq] at hc
    refine ⟨hpre',?_⟩
    have hall := hfin hc.1 hc.2
    split
    · exact fun _ => hall
    · exact fun _ => hall
  · have hob : Open b := by
      unfold Open
      rw [hst']
      exact ho
    exact ⟨hpre',(knows_open hob).mpr ⟨hpc',hnext'⟩⟩

theorem react_knows : h ++ (s.react pkt.seg pkt.payload).1.rx <+: p.stream ∧
      Knows p (s.react pkt.seg pkt.payload).1 (h ++ (s.react pkt.seg pkt.payload).1.rx).length
        (s.react pkt.seg pkt.payload).1.state := by
  rw [TcpSocket.react]
  split
  · rename_i hst
    rw [hst] at hk
    split
    · -- the SYN of the peer has its first number
      rename_i hc
      simp only [Bool.and_eq_true] at hc
      refine ⟨hpre,hk.2,?_⟩
      dsimp only
      rw [hs.seq,TcpPacket.number,if_pos hc.1,hs.syn hc.1,hk.1]
      simp
    · rw [hst]
      exact ⟨hpre,hk⟩
  · rename_i hst
    rw [hst] at hk
    split
    · dsimp only
      have hk' : Knows p { s with peerAcked := pkt.seg.ack, state := .established }
          (h ++ s.rx).length .established := ⟨hk.2.1,hk.2.2⟩
      split
      · exact dispatchOpen_knows hs h1 h2 hroom hpre hk' (.inl rfl)
      · exact ⟨hpre,hk'⟩
    · rw [hst]
      exact ⟨hpre,hk⟩
  · exact dispatchOpen_knows hs h1 h2 hroom hpre hk (.inl ‹_›)
  · exact dispatchOpen_knows hs h1 h2 hroom hpre hk (.inr (.inl ‹_›))
  · exact dispatchOpen_knows hs h1 h2 hroom hpre hk (.inr (.inr ‹_›))
  · rename_i hst
    obtain ⟨hrx,-,hpc,hst'⟩ := @acknowledge_fields s pkt.seg
    rw [hst] at hk
    rw [hrx,hst',hst]
    refine ⟨hpre,?_⟩
    intro hc
    exact hk (hpc ▸ hc)
  · rename_i hst
    rw [hst] at hk
    split
    · exact ⟨hpre,hk⟩
    · rw [hst]
      exact ⟨hpre,hk⟩
  · rename_i hst
    rw [hst] at hk ⊢
    exact ⟨hpre,hk⟩

end

theorem Inv.process (hi : Inv p r) (hs : p.Sends place pkt) (hp : r.Plain place pkt) :
    r.handed ++ (r.sock.process pkt).1.rx <+: p.stream ∧
      Knows p (r.sock.process pkt).1 (r.handed ++ (r.sock.process pkt).1.rx).length
        (r.sock.process pkt).1.state := by
  obtain ⟨hrst,h1,h2,hroom⟩ := hp
  have hnotes : ((r.sock.noteMss pkt).noteWindow pkt.seg).rx = r.sock.rx ∧
      ((r.sock.noteMss pkt).noteWindow pkt.seg).ack = r.sock.ack ∧
      ((r.sock.noteMss pkt).noteWindow pkt.seg).state = r.sock.state ∧
      ((r.sock.noteMss pkt).noteWindow pkt.seg).peerClosed = r.sock.peerClosed := by
    rw [TcpSocket.noteWindow,TcpSocket.noteMss]
    split <;> split <;> exact ⟨rfl,rfl,rfl,rfl⟩
  rw [TcpSocket.process,hrst,if_neg (by decide),TcpSocket.dispatchSegment]
  generalize (r.sock.noteMss pkt).noteWindow pkt.seg = s at hnotes
  obtain ⟨hrx,hack,hst,hpc⟩ := hnotes
  have hk := hi.knows
  have hpre := hi.prefix_
  rw [received] at hk hpre h1 h2
  rw [← hrx] at hk hpre h1 h2 hroom
  rw [← hack] at hroom
  refine react_knows hs h1 h2 hroom hpre ?_
  rw [hst]
  revert hk
  cases r.sock.state <;> simp only [Knows,hpc,hack,imp_self]

theorem Inv.rx_of_ended (hi : Inv p r) (he : r.ended) : r.sock.rx = [] := by
  have hpre := hi.prefix_
  rw [received,hi.ended he] at hpre
  have := hpre.length_le
  simp only [length_append] at this
  exact length_eq_zero_iff.mp (by omega)

theorem Inv.sock (hi : Inv p r) (s : TcpSocket) (hrx : s.rx = r.sock.rx)
    (hk : Knows p s r.received.length s.state) : Inv p { r with sock := s } := by
  have hr : ({ r with sock := s } : Reader).received = r.received := by
    rw [received,received]
    rw [hrx]
  exact ⟨hi.queue,by rw [hr]; exact hi.prefix_,by rw [hr]; exact hk,hi.ended⟩

theorem Inv.returnZero (hi : Inv p r) (n : Nat) (hn : 0 < n → r.handed = p.stream) :
    Inv p (r.returnZero n) := by
  refine ⟨hi.queue,hi.prefix_,hi.knows,fun he => ?_⟩
  simp only [Reader.returnZero,Bool.or_eq_true,decide_eq_true_eq] at he
  rcases he with he | he
  · exact hi.ended he
  · exact hn he

theorem Inv.copyOut (hi : Inv p r) (n : Nat) : Inv p (r.copyOut n) := by
  rw [Reader.copyOut]
  dsimp only
  split
  · generalize min r.sock.rx.length n = k
    have hr : (r.handed ++ r.sock.rx.take k) ++ r.sock.rx.drop k = r.received := by
      rw [append_assoc,take_append_drop,received]
    refine ⟨hi.queue,?_,?_,fun he => ?_⟩
    · rw [received,hr]
      exact hi.prefix_
    · rw [received,hr]
      have hk := hi.knows
      revert hk
      dsimp only
      cases r.sock.state <;> exact id
    · dsimp only
      rw [hi.rx_of_ended he,take_nil,append_nil]
      exact hi.ended he
  · rename_i hk
    split
    · rename_i hc
      refine hi.returnZero n fun hn => ?_
      -- nothing is left in the buffer, and the peer has sent no more
      have hrx : r.sock.rx = [] := length_eq_zero_iff.mp (by omega)
      have hknows := hi.knows
      have hlen : r.received.length = p.stream.length := by
        revert hknows
        cases r.sock.state <;> simp only [Knows,hc,Bool.true_eq_false,false_and,and_false,
          IsEmpty.forall_iff,forall_const,imp_self]
      have := hi.prefix_.eq_of_length hlen
      rwa [received,hrx,append_nil] at this
    · exact ⟨hi.queue,hi.prefix_,hi.knows,hi.ended⟩

theorem step_inv (e : Event) (hi : Inv p r) (hf : Fair p r e) : Inv p (r.step e) := by
  have hsame : ∀ ph, Inv p { r with phase := ph } := fun _ =>
    ⟨hi.queue,hi.prefix_,hi.knows,hi.ended⟩
  cases e with
  | arrive place pkt =>
    rw [step]
    split
    · refine ⟨fun x hx => ?_,hi.prefix_,hi.knows,hi.ended⟩
      rcases mem_append.mp hx with hx | hx
      · exact hi.queue x hx
      · rw [mem_singleton.mp hx]
        exact hf
    · exact hi
  | call n | enter | again =>
    rw [step]
    split
    · exact hsame _
    · exact hi
  | interrupt | timeout =>
    rw [step]
    split
    · rename_i n hn
      exact hi.returnZero n fun h0 => absurd (hf n hn) (by omega)
    · exact hi
  | take =>
    have htake : Inv p r.takePacket := by
      rw [takePacket]
      split
      · exact hi
      · rename_i place pkt q hq
        have hs := hi.queue (place,pkt) (by simp [hq])
        obtain ⟨hpre,hk⟩ := hi.process hs (hf place pkt q hq)
        exact ⟨fun x hx => hi.queue x (by simp [hq,hx]),hpre,hk,hi.ended⟩
    rw [step]
    split
    · exact htake
    · exact htake
    · exact hi
  | copy =>
    rw [step]
    split
    · split
      · exact hi.copyOut _
      · exact hi
    · exact hi
  | sent n =>
    refine hi.sock _ rfl ?_
    have hk := hi.knows
    revert hk
    dsimp only
    cases r.sock.state <;> exact id
  | shut =>
    refine hi.sock _ ?_ ?_
    · rw [Reader.shut]
      split <;> rfl
    · have hk := hi.knows
      rw [Reader.shut]
      split
      · rename_i hst
        rw [hst] at hk
        exact hk
      · rename_i hst
        rw [hst] at hk
        exact hk
      · exact hk
  | abort =>
    refine hi.sock _ rfl ?_
    have hk := hi.knows
    revert hk
    dsimp only
    cases r.sock.state <;> intro hk hc
    all_goals simp_all [Knows]

/-- A connection before the first segment of the peer is taken: a client that has sent its
SYN, or a server that has answered the one with the first sequence number of the peer. -/
def Fresh (p : Peer) (r : Reader) : Prop :=
  r.queue = [] ∧ r.handed = [] ∧ r.ended = false ∧ r.sock.rx = [] ∧ r.sock.peerClosed = false ∧
    (r.sock.state = .synSent ∨ r.sock.state = .synReceived ∧ r.sock.ack = p.isn + 1)

theorem Fresh.inv (h : Fresh p r) : Inv p r := by
  obtain ⟨hq,hh,he,hrx,hc,hst⟩ := h
  have hr : r.received = [] := by rw [received,hh,hrx]; rfl
  refine ⟨by simp [hq],by simp [hr],?_,by simp [he]⟩
  rw [hr]
  rcases hst with hst | ⟨hst,hack⟩
  · rw [hst]
    exact ⟨rfl,hc⟩
  · rw [hst]
    exact ⟨rfl,hc,hack⟩

theorem Inv.intact (hi : Inv p r) : Intact p r := ⟨(prefix_append _ _).trans hi.prefix_,hi.ended⟩

/-- In every fair run the application gets a prefix of the stream, and is told of its end
when it has all of it. -/
theorem stream_intact (p : Peer) (r : Reader) (hr : Fresh p r) (es : List Event)
    (hf : Along step (Fair p) r es) : Intact p (r.run es) :=
  (hf.invariant (fun _ e hi h => step_inv e hi h) hr.inv).intact

/-- A client whose SYN had the number 1000. -/
def fresh : Reader where
  sock := {
    state := .synSent
    localPort := 50000
    remotePort := 80
    remoteIp := [10,0,0,2]
    localIp := [10,0,0,1]
    seq := 1001
    ack := 0
    rx := []
    peerClosed := false
    peerAcked := 0
    sndWnd := 8192
    peerMss := 536
    rxHandle := some 0 }
  queue := []
  phase := .idle
  handed := []
  ended := false

theorem fresh_fresh : Fresh p fresh := ⟨rfl,rfl,rfl,rfl,rfl,.inl rfl⟩

/-- A segment of a peer that starts at 7000. -/
def segment (seq : UInt32) (flags : UInt8) (data : List UInt8) : TcpPacket :=
  ⟨⟨80,50000,seq,1001,flags,8192,20⟩,data,[10,0,0,2],536⟩

/-- The second byte overtakes the first one, which comes twice. -/
def useStream : List Event :=
  [.arrive 0 (segment 7000 0x12 []),.take,.arrive 1 (segment 7002 0x10 [8]),
    .arrive 0 (segment 7001 0x10 [7]),.call 10,.enter,.take,.take,.copy,
    .arrive 0 (segment 7001 0x10 [7]),.arrive 1 (segment 7002 0x10 [8]),.arrive 2 (segment 7003 0x11 []),
    .call 10,.enter,.take,.take,.take,.copy,.call 10,.enter,.copy]

theorem stream_intact_use : Intact ⟨7000,[7,8]⟩ (fresh.run useStream) ∧
    (fresh.run useStream).handed = [7,8] ∧ (fresh.run useStream).ended :=
  ⟨stream_intact ⟨7000,[7,8]⟩ fresh fresh_fresh useStream (by decide +kernel),by decide +kernel⟩

/-- After `l` the peer sends the segments `cs` and then a last byte with its FIN, before the
application reads. -/
def sendAll (l : List UInt8) : List (List UInt8) → List Event
  | [] => [.arrive l.length (segment (7001 + UInt32.ofNat l.length) 0x11 [5]),.take,
      .call 65536,.enter,.copy,.call 65536,.enter,.copy]
  | c :: cs => .arrive l.length (segment (7001 + UInt32.ofNat l.length) 0x10 c) :: .take ::
      sendAll (l ++ c) cs

/-- The open connection with `l` in its buffer. -/
def filled (l : List UInt8) : Reader :=
  { fresh with sock := { fresh.sock with
      state := .established
      peerAcked := 1001
      rx := l
      ack := 7001 + UInt32.ofNat l.length } }

variable {l : List UInt8} {cs : List (List UInt8)}

theorem take_segment (hf : flags = 0x10 ∨ flags = 0x11) :
    ((filled l).step (.arrive i (segment n flags c))).step .take = { filled l with
      sock := ((filled l).sock.takeData (segment n flags c).seg c).takeFin (segment n flags c).seg } := by
  have hflags : (16 : UInt8) &&& 4 = 0 ∧ (16 : UInt8) &&& 2 = 0 ∧ (17 : UInt8) &&& 4 = 0 ∧
      (17 : UInt8) &&& 2 = 0 ∧ (17 : UInt8) &&& 16 = 16 := by decide
  rcases hf with rfl | rfl <;> simp [hflags,filled,step,fresh,takePacket,TcpSocket.process,segment,
    TcpSegment.has,queueCap,TcpSocket.noteMss,TcpSocket.dispatchSegment,TcpSocket.noteWindow,
    TcpSocket.react,TcpSocket.dispatchOpen,TcpSocket.acknowledge,flagRst,flagSyn,flagAck,
    wrappingGe,wrappingGt]

theorem take_next (hl : (l ++ c).length ≤ rxBuf) (hc : c ≠ []) :
    ((filled l).step (.arrive i (segment (7001 + UInt32.ofNat l.length) 0x10 c))).step .take =
      filled (l ++ c) := by
  have hmin : min c.length (rxBuf - l.length) = c.length := by
    rw [length_append] at hl
    omega
  have hfin : (0x10 : UInt8) &&& flagFin = 0 := rfl
  rw [take_segment (.inl rfl)]
  simp [filled,TcpSocket.takeData,TcpSocket.takeFin,segment,TcpSegment.has,hmin,hc,hfin,
    UInt32.add_assoc]

/-- If the segments fill the buffer, the FIN is taken without the byte before it. -/
theorem run_sendAll (hl : (l ++ cs.flatten).length = rxBuf) (hne : [] ∉ cs) :
    ((filled l).run (sendAll l cs)).handed = l ++ cs.flatten ∧
    ((filled l).run (sendAll l cs)).ended := by
  induction cs generalizing l with
  | nil =>
    rw [flatten_nil,append_nil] at hl ⊢
    have htake : l.take 32768 = l := take_of_length_le (Nat.le_of_eq hl)
    have hfin : (0x11 : UInt8) &&& flagFin = 1 := rfl
    rw [sendAll,run,foldl_cons,foldl_cons,take_segment (.inr rfl)]
    simp [filled,TcpSocket.takeData,TcpSocket.takeFin,segment,TcpSegment.has,hl,htake,hfin,fresh,
      step,copyOut,returnZero,rxBuf]
  | cons c cs ih =>
    rw [flatten_cons,← append_assoc] at hl ⊢
    rw [sendAll,run,foldl_cons,foldl_cons,take_next (by rw [length_append] at hl; omega)
      fun h => hne (h ▸ mem_cons_self)]
    exact ih hl fun h => hne (mem_cons_of_mem c h)

theorem sends_segment (hf : flags = 0x10 ∨ flags = 0x11 ∧ c = t) (hc : c <+: t) :
    Peer.Sends ⟨7000,l ++ t⟩ l.length (segment (7001 + UInt32.ofNat l.length) flags c) := by
  have hseq : 7001 + UInt32.ofNat l.length = 7000 + UInt32.ofNat (l.length + 1) := by
    rw [UInt32.ofNat_add,UInt32.add_comm (UInt32.ofNat _),← UInt32.add_assoc]
    rfl
  have hflags : (0x10 : UInt8) &&& flagSyn = 0 ∧ (0x11 : UInt8) &&& flagSyn = 0 ∧
      (0x10 : UInt8) &&& flagFin = 0 := by decide
  rcases hf with rfl | ⟨rfl,rfl⟩
  all_goals constructor <;> simp_all [segment,TcpPacket.number,TcpSegment.has]

theorem sends_sendAll (hm : Event.arrive place pkt ∈ sendAll l cs) :
    Peer.Sends ⟨7000,l ++ (cs.flatten ++ [5])⟩ place pkt := by
  induction cs generalizing l with
  | nil =>
    simp only [sendAll,mem_cons,Event.arrive.injEq,reduceCtorEq,or_false,not_mem_nil] at hm
    obtain ⟨rfl,rfl⟩ := hm
    exact sends_segment (.inr ⟨rfl,rfl⟩) (prefix_refl _)
  | cons c cs ih =>
    simp only [sendAll,mem_cons,Event.arrive.injEq,reduceCtorEq,false_or] at hm
    rw [flatten_cons,append_assoc]
    rcases hm with ⟨rfl,rfl⟩ | hm
    · exact sends_segment (.inl rfl) (prefix_append _ _)
    · rw [← append_assoc]
      exact ih hm

/-- Segments of 512 bytes that fill the buffer. -/
def segments : List (List UInt8) := replicate 64 (replicate 512 5)

/-- The SYN of the peer and all its segments. -/
def sendSegments : List Event := .arrive 0 (segment 7000 0x12 []) :: .take :: sendAll [] segments

/-- The application is told that the stream has ended, and the last byte is lost. -/
theorem last_byte_lost : Fresh ⟨7000,segments.flatten ++ [5]⟩ fresh ∧
    (∀ place pkt, Event.arrive place pkt ∈ sendSegments →
      Peer.Sends ⟨7000,segments.flatten ++ [5]⟩ place pkt) ∧
    ¬Intact ⟨7000,segments.flatten ++ [5]⟩ (fresh.run sendSegments) := by
  refine ⟨fresh_fresh,fun place pkt hm => ?_,fun hi => ?_⟩
  · simp only [sendSegments,mem_cons,Event.arrive.injEq,reduceCtorEq,false_or] at hm
    rcases hm with ⟨rfl,rfl⟩ | hm
    · exact ⟨rfl,fun _ => rfl, nil_prefix,nofun⟩
    · have hs := sends_sendAll hm
      exact hs
  · have hopen : (fresh.step (.arrive 0 (segment 7000 0x12 []))).step .take = filled [] := rfl
    rw [sendSegments,run,foldl_cons,foldl_cons,hopen] at hi
    have hlen : ([] ++ segments.flatten).length = rxBuf := by
      rw [segments,flatten_replicate_replicate,nil_append,length_replicate]
      rfl
    have hne : [] ∉ segments := by
      rw [segments,mem_replicate]
      exact fun h => absurd (congrArg length h.2) (by rw [length_replicate]; decide)
    obtain ⟨hh,he⟩ := run_sendAll hlen hne
    have hstream := congrArg List.length (hh.symm.trans (hi.2 he))
    rw [nil_append,length_append,length_singleton] at hstream
    omega

end Reader

end Miku.Net
