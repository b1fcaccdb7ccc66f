import Miku.Lib.Run
import Miku.Net.Tls

namespace Miku.Net.Tls
open Lib

variable {cr : Crypto} {c : Client} {s : Handshake} {t : Turn}

/-- The MAC over the transcript that the server of this version sends. -/
def ServerFinished.expectedMac (cr : Crypto) (f : ServerFinished) : List UInt8 :=
  match f.version with
  | .tls12 => finishedVerify cr f.secret (label "server finished") (cr.sha256 f.transcript)
  | .tls13 => cr.hmacSha256 (cr.hkdfExpandLabel f.secret (label "finished") [] 32) (cr.sha256 f.transcript)

/-- The message came under the negotiated keys and carries the MAC of the transcript. -/
def ServerFinished.Authentic (cr : Crypto) (f : ServerFinished) : Prop :=
  f.isSealed = true ∧ f.verifyData = f.expectedMac cr

/-- Whoever is taken for the server has shown that it knows the keys and saw the same
messages. -/
def Authenticated (cr : Crypto) (c : Client) (turns : List Turn) : Prop :=
  ∀ f, doHandshake cr c turns = some f → f.Authentic cr

def choosesTls13 (msg : List UInt8) : Bool :=
  decide (byte msg 0 = HT_SERVER_HELLO) && helloReadable msg && (helloChoice msg (false,[])).1

/-- No message that the turn completes for the first loop chooses TLS 1.3. -/
def StaysAt12 (s : Handshake) : Turn → Prop
  | .record rtype payload =>
    s.phase = .receiving → rtype = RT_HANDSHAKE →
      ∀ m ∈ (messages (filled s payload false).length (filled s payload false)).1,
        choosesTls13 (m.map Prod.fst) = false
  | _ => True

instance : Decidable (StaysAt12 s t) :=
  match t with
  | .record _ _ => inferInstanceAs (Decidable (_ → _))
  | .timeout => inferInstanceAs (Decidable True)
  | .closed => inferInstanceAs (Decidable True)
  | .interrupted => inferInstanceAs (Decidable True)

theorem helloExtensions_fst (fuel ep : Nat) (r r' : Bool × List UInt8) (h : r.1 = r'.1) :
    (helloExtensions msg extEnd fuel ep r).1 = (helloExtensions msg extEnd fuel ep r').1 := by
  induction fuel generalizing ep r r' with
  | zero => exact h
  | succ fuel ih =>
    simp only [helloExtensions]
    split
    · apply ih
      repeat' split
      all_goals simp [h]
    · exact h

theorem helloChoice_fst (r r' : Bool × List UInt8) (h : r.1 = r'.1) :
    (helloChoice msg r).1 = (helloChoice msg r').1 := by
  simp only [helloChoice]
  split
  · exact helloExtensions_fst _ _ r r' h
  · exact h

/-- The first loop runs, and TLS 1.3 has not been agreed on. -/
structure Receiving (s : Handshake) : Prop where
  phase : s.phase = .receiving
  agreed : s.tls13Agreed = false
  finished : s.finished13 = none

section

variable (h : Receiving s)
include h

theorem Receiving.onServerHello
    (hm : helloReadable msg = true → (helloChoice msg (false,[])).1 = false)
    (hs : onServerHello cr c s msg = some s') : Receiving s' := by
  have hb : Receiving (if 42 ≤ msg.length then { s with serverRandom := piece msg 6 32 } else s) := by
    split
    · exact ⟨h.phase,h.agreed,h.finished⟩
    · exact h
  rw [Tls.onServerHello] at hs
  generalize (if 42 ≤ msg.length then { s with serverRandom := piece msg 6 32 } else s) = b at hs hb
  split at hs
  · next hread =>
    have hr : (helloChoice msg (b.tls13Agreed,b.serverEcPub)).1 = false := by
      rw [helloChoice_fst _ (false,[]) hb.agreed]
      exact hm hread
    rw [if_neg (by simp [hr])] at hs
    cases hs
    exact ⟨hb.phase,hr,hb.finished⟩
  · cases hs
    exact hb

theorem Receiving.onCertificate : Receiving (onCertificate s msg) := by
  simp only [Tls.onCertificate]
  split
  · exact ⟨h.phase,h.agreed,h.finished⟩
  · exact h

theorem Receiving.onServerKeyExchange : Receiving (onServerKeyExchange s msg) := by
  simp only [Tls.onServerKeyExchange]
  split
  · exact ⟨h.phase,h.agreed,h.finished⟩
  · exact h

theorem Receiving.onPlain {m : List (UInt8 × Bool)}
    (hm : choosesTls13 (m.map Prod.fst) = false) (hs : onPlain cr c s m = some s') : Receiving s' := by
  have ht : Receiving { s with transcript := s.transcript ++ m.map Prod.fst } := ⟨h.phase,h.agreed,h.finished⟩
  simp only [Tls.onPlain] at hs
  split at hs
  · next hhello =>
    refine ht.onServerHello (fun hread => ?_) hs
    simpa [choosesTls13,hhello,hread] using hm
  split at hs
  · split at hs <;> cases hs
    · exact ht.onCertificate
    · exact ht
  split at hs
  · cases hs
    exact ⟨h.phase,h.agreed,h.finished⟩
  split at hs <;> cases hs
  · exact ht.onServerKeyExchange
  · exact ht

theorem Receiving.foldlM_onPlain {ms : List (List (UInt8 × Bool))}
    (hm : ∀ m ∈ ms, choosesTls13 (m.map Prod.fst) = false)
    (hs : ms.foldlM (Tls.onPlain cr c) s = some s') : Receiving s' := by
  induction ms generalizing s with
  | nil =>
    cases hs
    exact h
  | cons m ms ih =>
    rw [List.foldlM_cons] at hs
    obtain ⟨t,ht,hs⟩ := Option.bind_eq_some_iff.mp hs
    exact ih (h.onPlain (hm m List.mem_cons_self) ht) (fun m' hm' => hm m' (List.mem_cons_of_mem m hm')) hs

end

/-- TLS 1.3 has not been agreed on; the MAC that the second loop waits for is the right one,
and so was the one that has ended it. -/
structure Inv (cr : Crypto) (s : Handshake) : Prop where
  agreed : s.tls13Agreed = false
  finished : s.finished13 = none
  awaiting : ∀ a, s.phase = .awaiting a →
    a.sfExpected = finishedVerify cr a.masterSecret (label "server finished") (cr.sha256 s.transcript)
  succeeded : ∀ f, s.phase = .succeeded f → f.Authentic cr

theorem Receiving.inv (h : Receiving s) : Inv cr s :=
  ⟨h.agreed,h.finished,fun a ha => by simp [h.phase] at ha,fun f hf => by simp [h.phase] at hf⟩

theorem Inv.fail (h : Inv cr s) : Inv cr { s with phase := .failed } := ⟨h.agreed,h.finished,by simp,by simp⟩

variable {a : Await}

theorem Inv.await (h : Inv cr s)
    (ha : a.sfExpected = finishedVerify cr a.masterSecret (label "server finished") (cr.sha256 s.transcript)) :
    Inv cr { s with phase := .awaiting a } := by
  refine ⟨h.agreed,h.finished,fun b hb => ?_,by simp⟩
  cases hb
  exact ha

theorem Inv.leave (h : Inv cr s) : Inv cr (leave cr c s) := by
  rw [Tls.leave,if_neg (by simp [h.agreed])]
  split
  · exact h.fail
  split
  · exact h.fail
  · refine ⟨h.agreed,h.finished,fun a ha => ?_,by simp⟩
    cases ha
    rfl

/-- The only way out of the second loop with success is past the comparison. -/
theorem Inv.awaitRecord (h : Inv cr s)
    (hp : s.phase = .awaiting a) : Inv cr (awaitRecord cr s a rtype payload) := by
  have ha := h.awaiting a hp
  simp only [Tls.awaitRecord]
  split
  · exact h.fail
  split
  · exact h.await ha
  split
  · split
    · split
      · split
        · next heq =>
          refine ⟨h.agreed,h.finished,by simp,fun f hf => ?_⟩
          cases hf
          exact ⟨rfl,heq.trans ha⟩
        · exact h.fail
      · exact h.await ha
    · exact h.await ha
  · exact h.await ha

theorem Inv.awaitTurn (h : Inv cr s) (hp : s.phase = .awaiting a) :
    Inv cr (Tls.await cr s a t) := by
  simp only [Tls.await]
  split
  · exact h.fail
  cases t with
  | record rtype payload => exact h.awaitRecord hp
  | timeout => exact h.await (h.awaiting a hp)
  | closed => exact h.fail
  | interrupted => exact h.fail

theorem Receiving.receiveRecord (h : Receiving s)
    (ht : StaysAt12 s (.record rtype payload)) : Inv cr (receiveRecord cr c s rtype payload) := by
  simp only [Tls.receiveRecord]
  split
  · exact h.inv.fail
  split
  · next hrt =>
    split
    · exact h.inv.fail
    · next s' hs =>
      have hrest (buf : List (UInt8 × Bool)) : Receiving { s with hsBuf := buf } :=
        ⟨h.phase,h.agreed,h.finished⟩
      have hr : Receiving s' := (hrest _).foldlM_onPlain (ht h.phase hrt) hs
      split
      · exact hr.inv.leave
      · exact hr.inv
  · rw [h.agreed]
    simpa using h.inv

theorem Receiving.receive (h : Receiving s) (ht : StaysAt12 s t) : Inv cr (receive cr c s t) := by
  have hr : Receiving { s with rounds := s.rounds + 1 } := ⟨h.phase,h.agreed,h.finished⟩
  cases t with
  | record rtype payload =>
    dsimp only [Tls.receive]
    rw [if_neg (by simp [h.finished])]
    exact hr.receiveRecord ht
  | timeout =>
    dsimp only [Tls.receive]
    rw [if_neg (by simp [h.finished])]
    exact hr.inv
  | closed => exact hr.inv.leave
  | interrupted => exact hr.inv.fail

theorem step_inv (h : Inv cr s) (ht : StaysAt12 s t) : Inv cr (step cr c s t) := by
  simp only [step]
  split
  · next hp =>
    have hr : Receiving s := ⟨hp,h.agreed,h.finished⟩
    split
    · exact hr.receive ht
    · have hl : Inv cr (leave cr c s) := h.leave
      split
      · next a ha => exact hl.awaitTurn ha
      · exact hl
  · next a ha => exact h.awaitTurn ha
  · exact h

theorem Inv.ended (h : Inv cr s) : Inv cr (ended cr c s) := by
  simp only [Tls.ended]
  split
  · exact h.leave
  · exact h

theorem Inv.result (h : Inv cr s) (hf : result s = some f) : f.Authentic cr := by
  simp only [Tls.result] at hf
  split at hf
  · next g hg =>
    cases hf
    exact h.succeeded _ hg
  · cases hf

theorem receiving_start : Receiving (start c) := ⟨rfl,rfl,rfl⟩

/-- A server that never chooses TLS 1.3 is not believed without the MAC. -/
theorem server_authenticated (cr : Crypto) (c : Client) (turns : List Turn)
    (h : Along (step cr c) StaysAt12 (start c) turns) : Authenticated cr c turns := by
  intro f hf
  have hinv : Inv cr (turns.foldl (step cr c) (start c)) :=
    h.invariant (fun _ _ => step_inv) receiving_start.inv
  exact hinv.ended.result hf

/-- Primitives that are enough to run the handshake on. -/
def plainCrypto : Crypto where
  sha256 := fun data => [UInt8.ofNat data.length]
  hmacSha1 := fun _ data => List.replicate 20 (byte data 7)
  hmacSha256 := fun _ data => List.replicate 32 (byte data 0)
  prfSha256 := fun _ _ seed n => List.replicate n (byte seed 0)
  hkdfExtract := fun salt _ => salt
  hkdfExpandLabel := fun secret _ _ n => secret.take n
  deriveSecret := fun secret _ _ => secret
  ecdhShared := fun _ pub => some (pub.take 32)
  aes128gcmOpen := fun _ _ _ cipher => some cipher
  cbcDecrypt := fun _ _ cipher => cipher
  tlsUnpad := some
  parseRsaPublicKey := some
  rsaPkcs1Encrypt := fun _ msg => msg

def caller : Client where
  random := List.replicate 32 1
  sessionId := List.replicate 32 2
  ecdhPriv := List.replicate 32 3
  ecdhPub := List.replicate 65 4
  premaster := List.replicate 46 5
  host := [104]

/-- A server of TLS 1.2 with the key exchange of RSA. -/
def flight12 : List UInt8 :=
  makeHandshake HT_SERVER_HELLO ([3,3] ++ List.replicate 32 9 ++ [0] ++ [0x00,0x2F] ++ [0]) ++
  makeHandshake HT_CERTIFICATE [0,0,0,0,0,0,1,7] ++
  makeHandshake HT_SERVER_HELLO_DONE []

/-- The record with its Finished: an initial vector, the message and a MAC. -/
def finished12 (verifyData : List UInt8) : List UInt8 :=
  List.replicate 16 0 ++ makeHandshake HT_FINISHED verifyData ++ List.replicate 20 0

def turns12 : List Turn :=
  [.record RT_HANDSHAKE flight12,.record RT_CHANGE_CIPHER_SPEC [1],
    .record RT_HANDSHAKE (finished12 (List.replicate 12 105))]

theorem server_authenticated_turns12 :
    (doHandshake plainCrypto caller turns12).isSome = true ∧ Authenticated plainCrypto caller turns12 :=
  ⟨by decide +kernel,server_authenticated plainCrypto caller turns12 (by decide +kernel)⟩

/-- A ServerHello that chooses TLS 1.3, and after it a Finished with zeros for its MAC. -/
def turns13 : List Turn :=
  [.record RT_HANDSHAKE (makeHandshake HT_SERVER_HELLO
      ([3,3] ++ List.replicate 32 9 ++ [0] ++ [0x13,0x01] ++ [0] ++ [0,6] ++ [0x00,0x2B,0,2,0x03,0x04])),
    .record RT_APP_DATA (makeHandshake HT_FINISHED (List.replicate 32 0) ++ [RT_HANDSHAKE])]

theorem finished_unchecked : ¬Authenticated plainCrypto caller turns13 := by
  intro h
  have hrun : (doHandshake plainCrypto caller turns13).map
      (fun f => decide (f.verifyData = f.expectedMac plainCrypto)) = some false := by decide +kernel
  obtain ⟨f,hf,hne⟩ := Option.map_eq_some_iff.mp hrun
  exact of_decide_eq_false hne (h f hf).2

end Miku.Net.Tls
