import Miku.Lib.Bytes

namespace Miku.Net.Tls
open Lib

/-- The primitives that the handshake is built on. -/
structure Crypto where
  sha256 : List UInt8 → List UInt8
  hmacSha1 : (key data : List UInt8) → List UInt8
  hmacSha256 : (key data : List UInt8) → List UInt8
  prfSha256 : (secret label seed : List UInt8) → Nat → List UInt8
  hkdfExtract : (salt ikm : List UInt8) → List UInt8
  hkdfExpandLabel : (secret label context : List UInt8) → Nat → List UInt8
  deriveSecret : (secret label hash : List UInt8) → List UInt8
  ecdhShared : (priv pub : List UInt8) → Option (List UInt8)
  aes128gcmOpen : (key nonce aad cipher : List UInt8) → Option (List UInt8)
  cbcDecrypt : (key iv cipher : List UInt8) → List UInt8
  tlsUnpad : List UInt8 → Option (List UInt8)
  parseRsaPublicKey : List UInt8 → Option (List UInt8)
  /-- Empty if the key does not take the message. -/
  rsaPkcs1Encrypt : (key msg : List UInt8) → List UInt8

/-- What the client has drawn at random, and whom it calls. -/
structure Client where
  random : List UInt8
  sessionId : List UInt8
  ecdhPriv : List UInt8
  ecdhPub : List UInt8
  premaster : List UInt8
  host : List UInt8

def RT_CHANGE_CIPHER_SPEC : UInt8 := 20
def RT_ALERT : UInt8 := 21
def RT_HANDSHAKE : UInt8 := 22
def RT_APP_DATA : UInt8 := 23

def HT_CLIENT_HELLO : UInt8 := 1
def HT_SERVER_HELLO : UInt8 := 2
def HT_CERTIFICATE : UInt8 := 11
def HT_SERVER_KEY_EXCHANGE : UInt8 := 12
def HT_SERVER_HELLO_DONE : UInt8 := 14
def HT_CLIENT_KEY_EXCHANGE : UInt8 := 16
def HT_FINISHED : UInt8 := 20

def label (s : String) : List UInt8 := s.toList.map fun c => UInt8.ofNat c.toNat

def byte (l : List UInt8) (i : Nat) : UInt8 := l[i]?.getD 0

def be16At (l : List UInt8) (i : Nat) : Nat := 256 * (byte l i).toNat + (byte l (i + 1)).toNat

def be24At (l : List UInt8) (i : Nat) : Nat := 256 * be16At l i + (byte l (i + 2)).toNat

def be16Bytes (n : Nat) : List UInt8 := [UInt8.ofNat (n / 256),UInt8.ofNat n]

def be64Bytes (n : Nat) : List UInt8 := be32Bytes (n / 4294967296) ++ be32Bytes n

/-- The `n` bytes from `i` on. -/
def piece (l : List UInt8) (i n : Nat) : List UInt8 := (l.drop i).take n

def makeHandshake (htype : UInt8) (body : List UInt8) : List UInt8 :=
  htype :: UInt8.ofNat (body.length / 65536) :: be16Bytes body.length ++ body

def clientHelloExtensions (c : Client) : List UInt8 :=
  [0x00,0x2B,0,5,4,0x03,0x04,0x03,0x03] ++
  [0x00,0x33,0,71,0,69,0x00,0x17,0,65] ++ c.ecdhPub ++
  [0,0] ++ be16Bytes (c.host.length + 5) ++ be16Bytes (c.host.length + 3) ++ [0] ++
    be16Bytes c.host.length ++ c.host ++
  [0x00,0x0D,0,14,0,12,0x08,0x04,0x08,0x05,0x08,0x06,0x04,0x01,0x05,0x01,0x04,0x03] ++
  [0x00,0x0A,0,4,0,2,0x00,0x17] ++
  [0x00,0x0B,0,2,1,0] ++
  [0x00,0x10,0x00,0x0E,0x00,0x0C,2] ++ label "h2" ++ [8] ++ label "http/1.1"

def clientHello (c : Client) : List UInt8 :=
  makeHandshake HT_CLIENT_HELLO <|
    [0x03,0x03] ++ c.random ++ [32] ++ c.sessionId ++
    [0,12,0x13,0x01,0xC0,0x27,0xC0,0x13,0x00,0x3C,0x00,0x2F,0x00,0xFF] ++ [1,0] ++
    be16Bytes (clientHelloExtensions c).length ++ clientHelloExtensions c

inductive Version where
  | tls12
  | tls13
  deriving DecidableEq

/-- A Finished message that the client takes for the server's: the secret and the messages
it vouches for, its verify data, and whether all its bytes came out of records opened with
the negotiated keys. -/
structure ServerFinished where
  version : Version
  secret : List UInt8
  transcript : List UInt8
  verifyData : List UInt8
  isSealed : Bool
  deriving DecidableEq

/-- The last loop, which waits for the Finished of TLS 1.2. -/
structure Await where
  serverKey : List UInt8
  serverMacKey : List UInt8
  serverSeq : Nat
  masterSecret : List UInt8
  sfExpected : List UInt8
  gotCcs : Bool
  rounds : Nat
  deriving DecidableEq

inductive Phase where
  | receiving
  | awaiting (a : Await)
  | succeeded (f : ServerFinished)
  | failed
  deriving DecidableEq

/-- The handshake so far. Each byte of `hsBuf` is kept with whether its record was sealed.
`finished13` is there once `handshake_done` is set. -/
structure Handshake where
  phase : Phase
  rounds : Nat
  hsBuf : List (UInt8 × Bool)
  transcript : List UInt8
  serverRandom : List UInt8
  serverEcPub : List UInt8
  macLen : Nat
  useEcdhe : Bool
  serverCert : Bytes
  certLen : Nat
  gotShd : Bool
  tls13Agreed : Bool
  hsSecret : List UInt8
  hashAfterSh : List UInt8
  serverHsKey : List UInt8
  serverHsIv : List UInt8
  tls13ServerSeq : Nat
  finished13 : Option ServerFinished

/-- What one turn of a loop finds on the connection. -/
inductive Turn where
  | record (rtype : UInt8) (payload : List UInt8)
  | timeout
  | closed
  | interrupted

def start (c : Client) : Handshake where
  phase := .receiving
  rounds := 0
  hsBuf := []
  transcript := clientHello c
  serverRandom := List.replicate 32 0
  serverEcPub := List.replicate 65 0
  macLen := 20
  useEcdhe := false
  serverCert := zeroBytes
  certLen := 0
  gotShd := false
  tls13Agreed := false
  hsSecret := List.replicate 32 0
  hashAfterSh := List.replicate 32 0
  serverHsKey := List.replicate 16 0
  serverHsIv := List.replicate 12 0
  tls13ServerSeq := 0
  finished13 := none

/-- The complete messages of a buffer, and the rest. Every message takes at least a byte.
-/
def messages : Nat → List (UInt8 × Bool) → List (List (UInt8 × Bool)) × List (UInt8 × Bool)
  | 0, buf => ([],buf)
  | fuel + 1, buf =>
    let hlen := be24At (buf.map Prod.fst) 1
    if 4 ≤ buf.length ∧ 4 + hlen ≤ buf.length then
      let r := messages fuel (buf.drop (4 + hlen))
      (buf.take (4 + hlen) :: r.1,r.2)
    else ([],buf)

/-- The extensions of a ServerHello from `ep` on: whether one of them chooses TLS 1.3, and the
key share. -/
def helloExtensions (msg : List UInt8) (extEnd : Nat) : Nat → Nat → Bool × List UInt8 → Bool × List UInt8
  | 0, _, r => r
  | fuel + 1, ep, r =>
    if ep + 4 ≤ extEnd then
      let etype := be16At msg ep
      let elen := be16At msg (ep + 2)
      let ep := ep + 4
      let r :=
        if etype = 0x002B ∧ 2 ≤ elen ∧ ep + elen ≤ extEnd ∧ be16At msg ep = 0x0304 then (true,r.2) else r
      let r :=
        if etype = 0x0033 ∧ 4 ≤ elen ∧ ep + elen ≤ extEnd ∧ be16At msg (ep + 2) = 65 ∧
            ep + 4 + 65 ≤ extEnd then (r.1,piece msg (ep + 4) 65)
        else r
      helloExtensions msg extEnd fuel (ep + elen) r
    else r

/-- What a ServerHello says beyond the cipher. -/
def helloChoice (msg : List UInt8) (r : Bool × List UInt8) : Bool × List UInt8 :=
  let extOff := 39 + (byte msg 38).toNat + 3
  if extOff + 2 ≤ msg.length then
    helloExtensions msg (min (extOff + 2 + be16At msg extOff) msg.length) msg.length (extOff + 2) r
  else r

/-- The client reads the message as far as the cipher. -/
def helloReadable (msg : List UInt8) : Bool :=
  decide (42 ≤ msg.length) && decide (39 + (byte msg 38).toNat + 2 ≤ msg.length)

/-- A ServerHello without a shared secret ends the handshake. -/
def onServerHello (cr : Crypto) (c : Client) (s : Handshake) (msg : List UInt8) : Option Handshake :=
  let s := if 42 ≤ msg.length then { s with serverRandom := piece msg 6 32 } else s
  if helloReadable msg then
    let cs := be16At msg (39 + (byte msg 38).toNat)
    let r := helloChoice msg (s.tls13Agreed,s.serverEcPub)
    let s := { s with tls13Agreed := r.1, serverEcPub := r.2 }
    if s.tls13Agreed then
      (cr.ecdhShared c.ecdhPriv s.serverEcPub).map fun shared =>
        let hash := cr.sha256 s.transcript
        let zeros := List.replicate 32 0
        let early := cr.hkdfExtract zeros zeros
        let secret := cr.hkdfExtract (cr.deriveSecret early (label "derived") (cr.sha256 [])) shared
        let sHs := cr.deriveSecret secret (label "s hs traffic") hash
        { s with
          hashAfterSh := hash
          hsSecret := secret
          serverHsKey := cr.hkdfExpandLabel sHs (label "key") [] 16
          serverHsIv := cr.hkdfExpandLabel sHs (label "iv") [] 12 }
    else
      some { s with
        macLen := if cs = 0x003C ∨ cs = 0xC027 then 32 else 20
        useEcdhe := decide (cs = 0xC027 ∨ cs = 0xC013) }
  else some s

def onCertificate (s : Handshake) (msg : List UInt8) : Handshake :=
  let listOff := 5 + (byte msg 4).toNat
  if listOff + 6 ≤ msg.length then
    let certLen := min (be24At msg (listOff + 3)) 8192
    { s with
      certLen := certLen
      serverCert :=
        if listOff + 6 + certLen ≤ msg.length then put s.serverCert 0 (piece msg (listOff + 6) certLen)
        else s.serverCert }
  else s

def onServerKeyExchange (s : Handshake) (msg : List UInt8) : Handshake :=
  let body := msg.drop 4
  if 69 ≤ body.length ∧ byte body 0 = 3 ∧ be16At body 1 = 0x0017 ∧ byte body 3 = 65 then
    { s with serverEcPub := piece body 4 65 }
  else s

/-- A message of a record in the clear. -/
def onPlain (cr : Crypto) (c : Client) (s : Handshake) (m : List (UInt8 × Bool)) : Option Handshake :=
  let msg := m.map Prod.fst
  let s := { s with transcript := s.transcript ++ msg }
  if byte msg 0 = HT_SERVER_HELLO then onServerHello cr c s msg
  else if byte msg 0 = HT_CERTIFICATE then some (if 10 < msg.length then onCertificate s msg else s)
  else if byte msg 0 = HT_SERVER_HELLO_DONE then some { s with gotShd := true }
  else if byte msg 0 = HT_SERVER_KEY_EXCHANGE then some (onServerKeyExchange s msg)
  else some s

/-- A message of a sealed record. Whatever a Finished carries, the client answers it and is
done. -/
def onSealed (cr : Crypto) (s : Handshake) (m : List (UInt8 × Bool)) : Handshake :=
  let msg := m.map Prod.fst
  let t := { s with transcript := s.transcript ++ msg }
  if byte msg 0 = HT_CERTIFICATE then onCertificate t msg
  else if byte msg 0 = HT_FINISHED then
    { t with
      tls13ServerSeq := 0
      finished13 := some
        ⟨.tls13,cr.deriveSecret s.hsSecret (label "s hs traffic") s.hashAfterSh,s.transcript,msg.drop 4,
          m.all Prod.snd⟩ }
  else t

def hsBufSize : Nat := 16384

/-- The buffer with a record behind it, if it fits. -/
def filled (s : Handshake) (data : List UInt8) (isSealed : Bool) : List (UInt8 × Bool) :=
  if s.hsBuf.length + data.length ≤ hsBufSize then s.hsBuf ++ data.map (·,isSealed) else s.hsBuf

def plainRecord (cr : Crypto) (c : Client) (s : Handshake) (payload : List UInt8) : Option Handshake :=
  let buf := filled s payload false
  let r := messages buf.length buf
  r.1.foldlM (onPlain cr c) { s with hsBuf := r.2 }

def nonce (iv : List UInt8) (seq : Nat) : List UInt8 :=
  iv.take 4 ++ List.zipWith (· ^^^ ·) (iv.drop 4) (be64Bytes seq)

def sealedRecord (cr : Crypto) (s : Handshake) (payload : List UInt8) : Handshake :=
  let aad := [RT_APP_DATA,0x03,0x03] ++ be16Bytes payload.length
  let opened := cr.aes128gcmOpen s.serverHsKey (nonce s.serverHsIv s.tls13ServerSeq) aad payload
  let s := { s with tls13ServerSeq := s.tls13ServerSeq + 1 }
  match opened with
  | some plain =>
    if plain.getLast? = some RT_HANDSHAKE then
      let buf := filled s plain.dropLast true
      let r := messages buf.length buf
      r.1.foldl (onSealed cr) { s with hsBuf := r.2 }
    else s
  | none => s

def computeMac (cr : Crypto) (macLen : Nat) (key data : List UInt8) : List UInt8 :=
  if macLen = 20 then cr.hmacSha1 (key.take 20) data else cr.hmacSha256 key data

def finishedVerify (cr : Crypto) (master name hash : List UInt8) : List UInt8 :=
  cr.prfSha256 master name hash 12

/-- `derive_keys` and `derive_keys_ecdhe`: the master secret and what comes from the server. -/
def deriveKeys (cr : Crypto) (c : Client) (s : Handshake) (premaster : List UInt8) :
    List UInt8 × List UInt8 × List UInt8 :=
  let master := cr.prfSha256 premaster (label "master secret") (c.random ++ s.serverRandom) 48
  let kb := cr.prfSha256 master (label "key expansion") (s.serverRandom ++ c.random) (s.macLen * 2 + 32)
  (master,piece kb s.macLen s.macLen,piece kb (s.macLen * 2 + 16) 16)

/-- The premaster secret and the ClientKeyExchange. -/
def keyExchange (cr : Crypto) (c : Client) (s : Handshake) : Option (List UInt8 × List UInt8) :=
  if s.useEcdhe then
    (cr.ecdhShared c.ecdhPriv s.serverEcPub).map fun shared => (shared,65 :: c.ecdhPub)
  else
    match cr.parseRsaPublicKey ((List.range s.certLen).map s.serverCert) with
    | some key =>
      let premaster := [0x03,0x03] ++ c.premaster
      let enc := cr.rsaPkcs1Encrypt key premaster
      if enc.isEmpty then none else some (premaster,be16Bytes enc.length ++ enc)
    | none => none

/-- The first loop has ended. -/
def leave (cr : Crypto) (c : Client) (s : Handshake) : Handshake :=
  if s.tls13Agreed then
    match s.finished13 with
    | some f => { s with phase := .succeeded f }
    | none => { s with phase := .failed }
  else if s.certLen = 0 then { s with phase := .failed }
  else
    match keyExchange cr c s with
    | none => { s with phase := .failed }
    | some (premaster,cke) =>
      let (master,macKey,key) := deriveKeys cr c s premaster
      let transcript := s.transcript ++ makeHandshake HT_CLIENT_KEY_EXCHANGE cke
      let vd := finishedVerify cr master (label "client finished") (cr.sha256 transcript)
      let transcript := transcript ++ makeHandshake HT_FINISHED vd
      let expected := finishedVerify cr master (label "server finished") (cr.sha256 transcript)
      { s with
        transcript := transcript
        phase := .awaiting ⟨key,macKey,0,master,expected,false,0⟩ }

/-- `decrypt_record`, as far as the plain text. -/
def openRecord12 (cr : Crypto) (macLen : Nat) (key macKey : List UInt8) (seq : Nat) (rtype : UInt8)
    (payload : List UInt8) : Option (List UInt8) :=
  if payload.length < 16 + macLen then none
  else
    match cr.tlsUnpad (cr.cbcDecrypt key (payload.take 16) (payload.drop 16)) with
    | none => none
    | some unpadded =>
      if unpadded.length < macLen then none
      else
        let data := unpadded.take (unpadded.length - macLen)
        let macInput := be64Bytes seq ++ [rtype,0x03,0x03] ++ be16Bytes data.length ++ data
        if unpadded.drop (unpadded.length - macLen) = (computeMac cr macLen macKey macInput).take macLen
        then some data
        else none

/-- What of it the empty receive buffer holds. -/
def decryptRecord (cr : Crypto) (macLen : Nat) (a : Await) (rtype : UInt8) (payload : List UInt8) :
    Option (List UInt8) :=
  (openRecord12 cr macLen a.serverKey a.serverMacKey a.serverSeq rtype payload).map (·.take 8192)

/-- A record of the second loop. -/
def awaitRecord (cr : Crypto) (s : Handshake) (a : Await) (rtype : UInt8) (payload : List UInt8) : Handshake :=
  let a := { a with rounds := a.rounds + 1 }
  if rtype = RT_ALERT then { s with phase := .failed }
  else if rtype = RT_CHANGE_CIPHER_SPEC then { s with phase := .awaiting { a with gotCcs := true } }
  else if rtype = RT_HANDSHAKE ∧ a.gotCcs then
    match decryptRecord cr s.macLen a rtype payload with
    | some plain =>
      if 16 ≤ plain.length ∧ byte plain 0 = HT_FINISHED then
        if piece plain 4 12 = a.sfExpected then
          { s with phase := .succeeded ⟨.tls12,a.masterSecret,s.transcript,piece plain 4 12,true⟩ }
        else { s with phase := .failed }
      else { s with phase := .awaiting { a with serverSeq := a.serverSeq + 1 } }
    | none => { s with phase := .awaiting a }
  else { s with phase := .awaiting a }

def await (cr : Crypto) (s : Handshake) (a : Await) (t : Turn) : Handshake :=
  if 50000 ≤ a.rounds then { s with phase := .failed }
  else
    match t with
    | .interrupted => { s with phase := .failed }
    | .closed => { s with phase := .failed }
    | .timeout => { s with phase := .awaiting { a with rounds := a.rounds + 1 } }
    | .record rtype payload => awaitRecord cr s a rtype payload

/-- A record of the first loop. -/
def receiveRecord (cr : Crypto) (c : Client) (s : Handshake) (rtype : UInt8)
    (payload : List UInt8) : Handshake :=
  if rtype = RT_ALERT then { s with phase := .failed }
  else if rtype = RT_HANDSHAKE then
    match plainRecord cr c s payload with
    | none => { s with phase := .failed }
    | some s => if !s.tls13Agreed && s.gotShd then leave cr c s else s
  else if rtype = RT_APP_DATA ∧ s.tls13Agreed then sealedRecord cr s payload
  else s

def receive (cr : Crypto) (c : Client) (s : Handshake) (t : Turn) : Handshake :=
  let s := { s with rounds := s.rounds + 1 }
  match t with
  | .interrupted => { s with phase := .failed }
  | .closed => leave cr c s
  | .timeout => if s.finished13.isSome then leave cr c s else s
  | .record rtype payload =>
    if s.finished13.isSome then leave cr c s else receiveRecord cr c s rtype payload

def step (cr : Crypto) (c : Client) (s : Handshake) (t : Turn) : Handshake :=
  match s.phase with
  | .receiving =>
    if s.rounds < 100000 then receive cr c s t
    else
      -- the turns of the first loop are used up, so this one is for the second
      let s := leave cr c s
      match s.phase with
      | .awaiting a => await cr s a t
      | _ => s
  | .awaiting a => await cr s a t
  | _ => s

/-- When nothing more comes the loops end. -/
def ended (cr : Crypto) (c : Client) (s : Handshake) : Handshake :=
  match s.phase with
  | .receiving => leave cr c s
  | _ => s

def result (s : Handshake) : Option ServerFinished :=
  match s.phase with
  | .succeeded f => some f
  | _ => none

/-- `do_handshake` against a server that answers with these turns: `none` if it fails, else
what it has taken for the server's Finished. -/
def doHandshake (cr : Crypto) (c : Client) (turns : List Turn) : Option ServerFinished :=
  result (ended cr c (turns.foldl (step cr c) (start c)))

/-! The data of a TLS connection once the handshake is over. -/

/-- What one call of `recv_one_into` brings: as much as the buffer of 4096 bytes takes, and
whether the peer has closed by then. -/
structure Poll where
  data : List UInt8
  closed : Bool
  fits : data.length ≤ 4096

/-- What the handshake has agreed on for the records of the server. -/
structure Session where
  tls13 : Bool
  macLen : Nat
  serverKey : List UInt8
  serverMacKey : List UInt8
  tls13ServerKey : List UInt8
  tls13ServerIv : List UInt8

/-- `raw` and `rx` are what is in use of the two buffers, `seq` is the sequence number of
the version in use, and `polls` all that the socket is going to bring. If Ctrl-C is pressed,
`ctrlC` looks at the flag still find it clear. -/
structure TlsStream where
  raw : List UInt8
  rx : List UInt8
  seq : Nat
  peerClosed : Bool
  polls : List Poll
  ctrlC : Option Nat

def rawSize : Nat := 17408
def rxSize : Nat := 8192

namespace TlsStream

/-- `CTRL_C.load`. -/
def look (s : TlsStream) : Bool × TlsStream :=
  match s.ctrlC with
  | none => (false,s)
  | some 0 => (true,s)
  | some (n + 1) => (false,{ s with ctrlC := some n })

/-- The bytes for which there is no room in `raw` are dropped. -/
def recvOneInto (s : TlsStream) : TlsStream :=
  match s.polls with
  | [] => s
  | p :: ps =>
    { s with
      raw := s.raw ++ p.data.take (rawSize - s.raw.length)
      peerClosed := s.peerClosed || p.closed
      polls := ps }

def tcpFill (need : Nat) : Nat → TlsStream → Bool × TlsStream
  | 0, s => (decide (need ≤ s.raw.length),s)
  | timeout + 1, s =>
    match s.look with
    | (true,s) => (false,s)
    | (false,s) =>
      if need ≤ s.raw.length then (true,s)
      else if s.peerClosed then (false,s)
      else
        let s := s.recvOneInto
        if need ≤ s.raw.length then (true,s) else tcpFill need timeout s

def consume (s : TlsStream) (n : Nat) : TlsStream := { s with raw := s.raw.drop n }

/-- Data for which there is no room in `rx_buf` is dropped. -/
def deliver (s : TlsStream) (plain : List UInt8) : TlsStream :=
  { s with rx := s.rx ++ plain.take (rxSize - s.rx.length) }

end TlsStream

section

variable (cr : Crypto) (k : Session)

def openRecord13 (seq : Nat) (payload : List UInt8) : Option (List UInt8) :=
  cr.aes128gcmOpen k.tls13ServerKey (nonce k.tls13ServerIv seq)
    ([RT_APP_DATA,0x03,0x03] ++ be16Bytes payload.length) payload

/-- A record of `recv_chunk`, and whether the call ends with it. -/
def chunkRecord (rtype : UInt8) (payload : List UInt8) (s : TlsStream) : Bool × TlsStream :=
  if k.tls13 then
    if rtype = RT_APP_DATA then
      match openRecord13 cr k s.seq payload with
      | some plain =>
        -- the last byte is the type of what is inside; zeroes behind it are not looked past
        if plain.getLast? = some RT_APP_DATA then
          (true,{ s with seq := s.seq + 1, rx := plain.dropLast.take rxSize })
        else (false,{ s with seq := s.seq + 1 })
      | none => (false,{ s with seq := s.seq + 1 })
    else (false,s)
  else if rtype = RT_APP_DATA then
    match openRecord12 cr k.macLen k.serverKey k.serverMacKey s.seq rtype payload with
    | some plain =>
      let s := { s.deliver plain with seq := s.seq + 1 }
      (!s.rx.isEmpty,s)
    | none => (false,s)
  else (decide (rtype = RT_ALERT),s)

/-- A record of `recv_all`, and whether the call ends with it. What an alert carries is
taken out of `rx_buf` again. -/
def allRecord (rtype : UInt8) (payload : List UInt8) (s : TlsStream) : Bool × TlsStream :=
  if k.tls13 then
    if rtype = RT_APP_DATA then
      match openRecord13 cr k s.seq payload with
      | some plain =>
        if plain.getLast? = some RT_ALERT then (true,{ s with seq := s.seq + 1 })
        else (false,{ s.deliver plain.dropLast with seq := s.seq + 1 })
      | none => (false,{ s with seq := s.seq + 1 })
    else (false,s)
  else if rtype = RT_APP_DATA ∨ rtype = RT_ALERT then
    match openRecord12 cr k.macLen k.serverKey k.serverMacKey s.seq rtype payload with
    | some plain =>
      if rtype = RT_ALERT then (true,{ s with seq := s.seq + 1 })
      else (false,{ s.deliver plain with seq := s.seq + 1 })
    | none => (true,s)
  else (false,s)

def chunkLoop : Nat → TlsStream → TlsStream
  | 0, s => s
  | timeout + 1, s =>
    match s.look with
    | (true,s) => s
    | (false,s) =>
      if s.peerClosed then s
      else
        match s.tcpFill 5 100 with
        | (false,s) => chunkLoop timeout s
        | (true,s) =>
          let rtype := byte s.raw 0
          let recLen := be16At s.raw 3
          match s.tcpFill (5 + recLen) 500 with
          | (false,s) => s
          | (true,s) =>
            match chunkRecord cr k rtype (piece s.raw 5 recLen) s with
            | (true,s) => s.consume (5 + recLen)
            | (false,s) => chunkLoop timeout (s.consume (5 + recLen))

def recvChunk (timeout : Nat) (s : TlsStream) : TlsStream :=
  chunkLoop cr k timeout { s with rx := [] }

/-- `n` calls of `recv_chunk` in turn, and all they return. -/
def recvChunks (timeout : Nat) : Nat → TlsStream → List UInt8 × TlsStream
  | 0, s => ([],s)
  | n + 1, s =>
    let s := recvChunk cr k timeout s
    let r := recvChunks timeout n s
    (s.rx ++ r.1,r.2)

/-- No result if the loop has not ended after `fuel` turns. -/
def recvAllLoop (timeoutIters : Nat) : Nat → Nat → TlsStream → Option TlsStream
  | 0, _, _ => none
  | fuel + 1, idle, s =>
    match s.look with
    | (true,s) => some s
    | (false,s) =>
      match s.tcpFill 5 100 with
      | (false,s) =>
        if s.peerClosed ∨ timeoutIters < idle + 1 then some s
        else recvAllLoop timeoutIters fuel (idle + 1) s
      | (true,s) =>
        let rtype := byte s.raw 0
        let recLen := be16At s.raw 3
        match s.tcpFill (5 + recLen) 1000 with
        | (false,s) => some s
        | (true,s) =>
          match allRecord cr k rtype (piece s.raw 5 recLen) s with
          | (true,s) => some s
          | (false,s) => recvAllLoop timeoutIters fuel 0 (s.consume (5 + recLen))

def recvAll (timeoutIters fuel : Nat) (s : TlsStream) : Option TlsStream :=
  recvAllLoop cr k timeoutIters fuel 0 s

end

end Miku.Net.Tls
