import Miku.Net.Dhcp

namespace Miku.Net.Dhcp
open Lib.Exchange List
open Net.Tls (byte piece be16At)

/-- The last option `opt` that has at least `n` bytes. -/
def lastOption (opts : List (UInt8 × List UInt8)) (opt : UInt8) (n : Nat) :
    Option (List UInt8) :=
  (opts.reverse.find? fun o => o.1 = opt ∧ n ≤ o.2.length).map (·.2)

def messageType (buf : List UInt8) : UInt8 :=
  ((lastOption (optionsOf buf) optMsgType 1).map (byte · 0)).getD 0

def addressOption (buf : List UInt8) (opt : UInt8) (default : Ip) : Ip :=
  ((lastOption (optionsOf buf) opt 4).map (·.take 4)).getD default

/-- The values of a reply, with the client's defaults for what it leaves out. -/
def carried (buf : List UInt8) : DhcpResult where
  ip := piece buf 16 4
  mask := addressOption buf optSubnet [255,255,255,0]
  gw := addressOption buf optRouter [0,0,0,0]
  dns := addressOption buf optDns [8,8,8,8]
  server := addressOption buf optServer [0,0,0,0]
  leaseSecs := ((lastOption (optionsOf buf) optLease 4).map (be32At · 0)).getD 0

/-- What `o` says, if it is an option `opt` with at least `n` bytes, else `old`. -/
def said {α : Type} (o : UInt8 × List UInt8) (opt : UInt8) (n : Nat) (v : List UInt8 → α)
    (old : α) : α :=
  if o.1 = opt ∧ n ≤ o.2.length then v o.2 else old

/-- Each field is set by one option. -/
theorem set_eq (f : Fields) (o : UInt8 × List UInt8) : f.set o =
    { mask := said o optSubnet 4 (·.take 4) f.mask
      gw := said o optRouter 4 (·.take 4) f.gw
      dns := said o optDns 4 (·.take 4) f.dns
      server := said o optServer 4 (·.take 4) f.server
      msgType := said o optMsgType 1 (byte · 0) f.msgType
      leaseSecs := said o optLease 4 (be32At · 0) f.leaseSecs } := by
  obtain ⟨opt,data⟩ := o
  simp only [Fields.set,said]
  -- the options are different, so at most one of the conditions holds
  by_cases h0 : opt = optMsgType ∨ opt = optSubnet ∨ opt = optRouter ∨ opt = optDns ∨
      opt = optServer ∨ opt = optLease
  · rcases h0 with rfl | rfl | rfl | rfl | rfl | rfl <;>
      simp [optMsgType,optSubnet,optRouter,optDns,optServer,optLease] <;> split <;> rfl
  · simp only [not_or] at h0
    simp [h0]

theorem lastOption_cons {α : Type} {v : List UInt8 → α} {old : α} :
    ((lastOption (o :: opts) opt n).map v).getD old =
      ((lastOption opts opt n).map v).getD (said o opt n v old) := by
  rw [lastOption,lastOption,reverse_cons,find?_append,said]
  cases opts.reverse.find? fun o => o.1 = opt ∧ n ≤ o.2.length with
  | some x => rfl
  | none => by_cases ho : o.1 = opt ∧ n ≤ o.2.length <;> simp [ho]

/-- Each field is what the last option that sets it says. -/
theorem foldl_set (opts : List (UInt8 × List UInt8)) (f : Fields) : opts.foldl Fields.set f =
    { mask := ((lastOption opts optSubnet 4).map (·.take 4)).getD f.mask
      gw := ((lastOption opts optRouter 4).map (·.take 4)).getD f.gw
      dns := ((lastOption opts optDns 4).map (·.take 4)).getD f.dns
      server := ((lastOption opts optServer 4).map (·.take 4)).getD f.server
      msgType := ((lastOption opts optMsgType 1).map (byte · 0)).getD f.msgType
      leaseSecs := ((lastOption opts optLease 4).map (be32At · 0)).getD f.leaseSecs } := by
  induction opts generalizing f with
  | nil => rfl
  | cons o opts ih => simp only [foldl_cons,ih,set_eq,lastOption_cons]

theorem parseOffer_some (h : parseOffer buf xid = some r) : 240 ≤ buf.length ∧ be32At buf 4 = xid ∧
      (messageType buf = dhcpOffer ∨ messageType buf = dhcpAck) ∧ r = carried buf := by
  simp only [parseOffer,foldl_set] at h
  split at h
  · cases h
  rename_i hlen
  split at h
  · cases h
  rename_i hxid
  split at h
  · cases h
  split at h
  · cases h
  rename_i hmsg
  refine ⟨Nat.not_lt.1 hlen,not_not.1 hxid,?_,(Option.some.inj h).symm⟩
  by_cases ho : messageType buf = dhcpOffer
  · exact .inl ho
  · exact .inr (not_not.1 fun ha => hmsg ⟨ho,ha⟩)

/-- The address that a packet of the client asks for. -/
def requestedIp (packet : List UInt8) : Ip := addressOption packet optRequestedIp []

/-- A request has 240 bytes up to the options, and zeroes behind them. -/
theorem buildPacket_request (mac : List UInt8) (server ip : Ip) :
    ∃ n, buildPacket dhcpRequest theXid mac [0,0,0,0] (some server) (some ip) =
      ([1,1,6,0] ++ be32Bytes theXid ++ [0,0,0x80,0x00] ++ [0,0,0,0] ++ List.replicate 12 0 ++
        mac ++ List.replicate 202 0 ++ dhcpMagic) ++
      ([optMsgType,1,dhcpRequest] ++ (optServer :: 4 :: server) ++ (optRequestedIp :: 4 :: ip) ++
        [optParamReq,3,optSubnet,optRouter,optDns] ++ optEnd :: List.replicate n 0) := by
  simp only [buildPacket,List.rightpad,addrOption,append_assoc,cons_append,nil_append]
  exact ⟨_,rfl⟩

variable {mac : List UInt8} {server ip : Ip}

section

variable (hmac : mac.length = 6) (hserver : server.length = 4) (hip : ip.length = 4)
include hmac hserver hip

theorem length_buildPacket :
    (buildPacket dhcpRequest theXid mac [0,0,0,0] (some server) (some ip)).length = 300 := by
  simp only [buildPacket,be32Bytes,addrOption,dhcpMagic,length_rightpad,length_append,
    length_replicate,length_cons,length_nil,hmac,hserver,hip]
  rfl

theorem optionsOf_buildPacket :
    optionsOf (buildPacket dhcpRequest theXid mac [0,0,0,0] (some server) (some ip)) =
      [(optMsgType,[dhcpRequest]),(optServer,server),(optRequestedIp,ip),
        (optParamReq,[optSubnet,optRouter,optDns])] := by
  obtain ⟨n,hn⟩ := buildPacket_request mac server ip
  obtain ⟨a,b,c,d,rfl⟩ := length_eq_four.1 hserver
  obtain ⟨a',b',c',d',rfl⟩ := length_eq_four.1 hip
  rw [optionsOf,length_buildPacket hmac rfl rfl,hn,drop_left']
  · rfl
  · simp only [be32Bytes,dhcpMagic,length_append,length_replicate,length_cons,length_nil,hmac]

theorem requestedIp_buildPacket :
    requestedIp (buildPacket dhcpRequest theXid mac [0,0,0,0] (some server) (some ip)) = ip := by
  rw [requestedIp,addressOption,optionsOf_buildPacket hmac hserver hip]
  simp [lastOption,hip,optParamReq,optRequestedIp,take_of_length_le (Nat.le_of_eq hip)]

end

theorem length_addressOption {default : Ip}
    (h : default.length = 4) : (addressOption buf opt default).length = 4 := by
  unfold addressOption lastOption
  cases hf : (optionsOf buf).reverse.find? fun o => o.1 = opt ∧ 4 ≤ o.2.length with
  | none => exact h
  | some o =>
    have hp := find?_some hf
    simp only [decide_eq_true_eq] at hp
    simp [hp.2]

/-- In the request phase only an acknowledgement of the offered address is accepted: no
reply to the DISCOVER is left in the queue, and of what arrives every reply of this
transaction is an ACK for that address. -/
def Arrivals.Orderly (a : Arrivals) : Prop :=
  ∀ d offer q, a.offer = (some (d,offer),q) →
    (∀ x ∈ q, parseOffer x.data theXid = none) ∧
    ∀ x ∈ (a.request.take 4).flatten.flatten, ∀ r, parseOffer x theXid = some r →
      messageType x = dhcpAck ∧ r.ip = offer.ip

/-- What is configured was acknowledged: the datagram is an ACK of this transaction,
received after the request, for the address it asked for, and the values are its own. -/
structure Acknowledged (o : Outcome) : Prop where
  ack : messageType o.took.data = dhcpAck
  xid : be32At o.took.data 4 = theXid
  after : o.took.requested = true
  address : o.result.ip = requestedIp o.request
  values : o.result = carried o.took.data

theorem mem_noted (h : d ∈ ((noted true rounds).take 4).flatten.flatten) :
    d.requested = true ∧ d.data ∈ (rounds.take 4).flatten.flatten := by
  simp only [noted,← map_take,mem_flatten,List.mem_map] at h ⊢
  obtain ⟨l,⟨ls,⟨round,hround,rfl⟩,hl⟩,hd⟩ := h
  obtain ⟨arrived,harrived,rfl⟩ := List.mem_map.1 hl
  obtain ⟨data,hdata,rfl⟩ := List.mem_map.1 hd
  exact ⟨rfl,arrived,⟨round,hround,harrived⟩,hdata⟩

theorem exchange_some (h : exchange mac a = some o) :
    ∃ d offer q, a.offer = (some (d,offer),q) ∧ parseOffer d.data theXid = some offer ∧ o.request =
        buildPacket dhcpRequest theXid mac [0,0,0,0] (some offer.server) (some offer.ip) ∧
      parseOffer o.took.data theXid = some o.result ∧ (o.took ∈ q ∨ o.took.requested = true ∧
        o.took.data ∈ (a.request.take 4).flatten.flatten) := by
  unfold exchange at h
  cases hoffer : a.offer with
  | mk x q =>
    rw [hoffer] at h
    cases x with
    | none => cases h
    | some x =>
      obtain ⟨d,offer⟩ := x
      cases hack : attempts (fun d => parseOffer d.data theXid) 4 (noted true a.request) q with
      | mk y q' =>
        simp only [hack] at h
        cases y with
        | none => cases h
        | some y =>
          obtain ⟨took,r⟩ := y
          obtain rfl := Option.some.inj h
          obtain ⟨hm,hr⟩ := attempts_some hack
          obtain ⟨-,hd⟩ := attempts_some hoffer
          exact ⟨d,offer,q,rfl,hd,rfl,hr,hm.imp_right mem_noted⟩

/-- What is configured always comes from one OFFER or ACK of this transaction, never from a
NAK; and if only an acknowledgement of the offered address is accepted in the request
phase, it was acknowledged. -/
theorem dhcp_acknowledged {mac : List UInt8} {a : Arrivals} {o : Outcome}
    (hmac : mac.length = 6) (h : exchange mac a = some o) :
    ((messageType o.took.data = dhcpOffer ∨ messageType o.took.data = dhcpAck) ∧
      be32At o.took.data 4 = theXid ∧ o.result = carried o.took.data) ∧
    (a.Orderly → Acknowledged o) := by
  obtain ⟨d,offer,q,hoffer,hd,hreq,hr,hfrom⟩ := exchange_some h
  obtain ⟨-,hxid,htype,hres⟩ := parseOffer_some hr
  refine ⟨⟨htype,hxid,hres⟩,fun ha => ?_⟩
  obtain ⟨hq,hlater⟩ := ha d offer q hoffer
  obtain hq' | ⟨hafter,hm⟩ := hfrom
  · rw [hq _ hq'] at hr
    cases hr
  · obtain ⟨hack,hip⟩ := hlater _ hm _ hr
    obtain ⟨hlen,-,-,rfl⟩ := parseOffer_some hd
    refine ⟨hack,hxid,hafter,?_,hres⟩
    rw [hip,hreq]
    refine (requestedIp_buildPacket hmac (length_addressOption rfl) ?_).symm
    simp only [carried,piece,length_take,length_drop]
    omega

/-- A reply with no options but its type and its server. -/
def reply (msgType : UInt8) (ip server : Ip) : List UInt8 :=
  [2,1,6,0] ++ be32Bytes theXid ++ List.replicate 8 0 ++ ip ++ List.replicate 216 0 ++
    dhcpMagic ++ [optMsgType,1,msgType] ++ addrOption optServer (some server) ++ [optEnd]

def sampleMac : List UInt8 := [2,0,0,0,0,1]

/-- One server offers an address and acknowledges it. -/
def oneServer : Arrivals where
  discover := [[[],[reply dhcpOffer [10,0,0,5] [10,0,0,1]]]]
  request := [[[],[reply dhcpAck [10,0,0,5] [10,0,0,1]]]]

theorem oneServer_orderly : oneServer.Orderly := by
  intro d offer q h
  have hoffer : oneServer.offer = (some (⟨reply dhcpOffer [10,0,0,5] [10,0,0,1],false⟩,
      carried (reply dhcpOffer [10,0,0,5] [10,0,0,1])),[]) := by decide +kernel
  rw [hoffer] at h
  cases h
  refine ⟨fun x hx => absurd hx not_mem_nil,fun x hx r hr => ?_⟩
  obtain rfl : x = reply dhcpAck [10,0,0,5] [10,0,0,1] := by
    simpa [oneServer] using hx
  obtain ⟨-,-,-,rfl⟩ := parseOffer_some hr
  decide +kernel

theorem dhcp_acknowledged_oneServer : (doDhcp sampleMac oneServer).map (·.ip) = some [10,0,0,5] ∧
      ∀ o, exchange sampleMac oneServer = some o → Acknowledged o :=
  ⟨by decide +kernel,fun _ h => (dhcp_acknowledged rfl h).2 oneServer_orderly⟩

/-- Two servers offer an address, nobody acknowledges one. -/
def twoOffers : Arrivals where
  discover := [[[reply dhcpOffer [10,0,0,5] [10,0,0,1],reply dhcpOffer [10,0,9,9] [10,0,0,2]]]]
  request := [[[]]]

/-- The second offer is taken for the acknowledgement. -/
theorem offer_configures : (doDhcp sampleMac twoOffers).map (·.ip) = some [10,0,9,9] ∧
      ∀ x ∈ twoOffers.discover.flatten.flatten ++ twoOffers.request.flatten.flatten,
        messageType x = dhcpOffer := by
  decide +kernel

end Miku.Net.Dhcp
