import Mathlib.Data.List.Basic
import Miku.Proofs.TlsFinished

namespace Miku.Net.Tls
open Lib List TlsStream

/-- A record of application data: what is in it and the bytes that carry it. -/
structure DataRecord where
  plain : List UInt8
  payload : List UInt8

def wire (r : DataRecord) : List UInt8 :=
  [RT_APP_DATA,0x03,0x03] ++ be16Bytes r.payload.length ++ r.payload

/-- The primitives open the record, as the one with number `seq`. In TLS 1.3 the type stands
behind the data, with no padding. -/
def Opens (cr : Crypto) (k : Session) (seq : Nat) (r : DataRecord) : Prop :=
  if k.tls13 then openRecord13 cr k seq r.payload = some (r.plain ++ [RT_APP_DATA])
  else openRecord12 cr k.macLen k.serverKey k.serverMacKey seq RT_APP_DATA r.payload = some r.plain

/-- Records numbered from `seq` on. None is so long that a read for its end could overrun
the buffer for raw bytes. -/
def Numbered (cr : Crypto) (k : Session) : Nat → List DataRecord → Prop
  | _, [] => True
  | seq, r :: rs => Opens cr k seq r ∧ r.payload.length ≤ 13308 ∧ Numbered cr k (seq + 1) rs

def arriving (ps : List Poll) : List UInt8 := ps.flatMap Poll.data

/-- The peer closes after it has sent everything. -/
def ClosesLast : List Poll → Prop
  | [] => True
  | p :: ps => (p.closed = true → arriving ps = []) ∧ ClosesLast ps

variable {k : Session} {s s' : TlsStream} {rs : List DataRecord} {r : DataRecord}
    {t : Nat}

/-- The bytes there and those to come are those of `rs`, in whatever pieces. -/
structure Pending (cr : Crypto) (k : Session) (s : TlsStream) (rs : List DataRecord) : Prop where
  bytes : s.raw ++ arriving s.polls = rs.flatMap wire
  numbered : Numbered cr k s.seq rs
  closed : s.peerClosed = true → arriving s.polls = []
  closesLast : ClosesLast s.polls
  calm : s.ctrlC = none

/-- With `n` bytes there, the peer closes at the earliest with a read in which no record ends but
the last one. -/
def ClosesWithLast (rs : List DataRecord) : Nat → List Poll → Prop
  | _, [] => True
  | n, p :: ps => (p.closed = true → (rs.dropLast.flatMap wire).length ≤ n) ∧
      ClosesWithLast rs (n + p.data.length) ps

/-- When the peer has closed, at most one record is left. -/
structure Timely (s : TlsStream) (rs : List DataRecord) : Prop where
  last : s.peerClosed = true → rs.dropLast = []
  later : ClosesWithLast rs s.raw.length s.polls

/-- No record is left when a call finds that the peer has closed. -/
structure Open (s : TlsStream) (rs : List DataRecord) : Prop where
  ended : s.peerClosed = true → rs = []
  later : ClosesWithLast rs s.raw.length s.polls

theorem arriving_cons : arriving (p :: ps) = p.data ++ arriving ps := rfl

theorem length_wire : (wire r).length = 5 + r.payload.length := by
  simp [wire,be16Bytes]
  omega

/-- The stream after bytes have been waited for: nothing is lost, and if there are too few,
no more come or the time is up. -/
structure Filled (need t : Nat) (s s' : TlsStream) (ok : Bool) : Prop where
  bytes : s'.raw ++ arriving s'.polls = s.raw ++ arriving s.polls
  rx : s'.rx = s.rx
  seq : s'.seq = s.seq
  enough : ok = decide (need ≤ s'.raw.length)
  fewer : s'.polls.length ≤ s.polls.length
  late : ok = false →
    s'.peerClosed = true ∨ s'.polls = [] ∨ s'.polls.length + t ≤ s.polls.length
  closed : s'.peerClosed = true → arriving s'.polls = []
  closesLast : ClosesLast s'.polls
  calm : s'.ctrlC = none
  stays : ∀ rs : List DataRecord, (∀ r ∈ rs.head?, need ≤ (wire r).length) → Timely s rs →
    Timely s' rs

theorem recvOneInto_ctrlC : s.recvOneInto.ctrlC = s.ctrlC := by
  unfold recvOneInto
  split <;> rfl

theorem look_calm (h : s.ctrlC = none) : s.look = (false,s) := by rw [look,h]

/-- Without Ctrl-C it is the same whether the bytes are counted before or behind a read. -/
theorem tcpFill_calm (h : s.ctrlC = none) : s.tcpFill need (t + 1) =
    if need ≤ s.raw.length then (true,s)
    else if s.peerClosed then (false,s) else s.recvOneInto.tcpFill need t := by
  have hone := recvOneInto_ctrlC.trans h
  rw [tcpFill,look_calm h]
  dsimp only
  split
  · rfl
  · split
    · rfl
    · split
      · rename_i hn
        cases t with
        | zero => rw [tcpFill,decide_eq_true hn]
        | succ t =>
          rw [tcpFill,look_calm hone]
          exact (if_pos hn).symm
      · rfl

theorem recvOneInto_cons (hp : s.polls = p :: ps) (hroom : s.raw.length + 4096 ≤ rawSize) :
    s.recvOneInto = { s with
      raw := s.raw ++ p.data, peerClosed := s.peerClosed || p.closed, polls := ps } := by
  have := p.fits
  unfold recvOneInto
  rw [hp]
  dsimp only
  rw [take_of_length_le (by omega)]

/-- The read that brings the close is made for the record in front, which it must complete. -/
theorem Timely.read (h : Timely s rs) (hp : s.polls = p :: ps)
    (hfront : ∀ r ∈ rs.head?, s.raw.length < (wire r).length) :
    Timely { s with raw := s.raw ++ p.data, peerClosed := s.peerClosed || p.closed, polls := ps } rs := by
  obtain ⟨hlast,hlater⟩ := h
  rw [hp] at hlater
  refine ⟨fun hc => ?_,?_⟩
  · rcases Bool.or_eq_true_iff.1 hc with hc | hc
    · exact hlast hc
    · cases rs with
      | nil => rfl
      | cons r rs =>
        have hle := hlater.1 hc
        have hlt := hfront r rfl
        cases rs with
        | nil => rfl
        | cons r' rs =>
          rw [dropLast_cons_cons,flatMap_cons,length_append] at hle
          omega
  · rw [length_append]
    exact hlater.2

theorem tcpFill_spec (hneed : need ≤ 13313) (hc : s.peerClosed = true → arriving s.polls = [])
    (hl : ClosesLast s.polls) (hz : s.ctrlC = none) :
    Filled need t s (s.tcpFill need t).2 (s.tcpFill need t).1 := by
  induction t generalizing s with
  | zero =>
    exact ⟨rfl,rfl,rfl,rfl,.refl,fun _ => .inr (.inr .refl),hc,hl,hz,fun _ _ => id⟩
  | succ t ih =>
    rw [tcpFill_calm hz]
    by_cases hn : need ≤ s.raw.length
    · rw [if_pos hn]
      exact ⟨rfl,rfl,rfl,(decide_eq_true hn).symm,.refl,fun h => absurd h (by simp),hc,hl,hz,
        fun _ _ => id⟩
    · rw [if_neg hn]
      by_cases hclosed : s.peerClosed = true
      · rw [if_pos hclosed]
        exact ⟨rfl,rfl,rfl,(decide_eq_false hn).symm,.refl,fun _ => .inl hclosed,hc,hl,hz,
          fun _ _ => id⟩
      · rw [if_neg hclosed]
        cases hp : s.polls with
        | nil =>
          have hone : s.recvOneInto = s := by
            unfold recvOneInto
            rw [hp]
          have h := ih hc hl hz
          rw [hone]
          refine ⟨h.bytes,h.rx,h.seq,h.enough,h.fewer,fun hf => ?_,h.closed,h.closesLast,h.calm,
            h.stays⟩
          have hfew := h.fewer
          rw [hp,length_nil,Nat.le_zero,length_eq_zero_iff] at hfew
          exact .inr (.inl hfew)
        | cons p ps =>
          rw [hp] at hc hl
          have hone := recvOneInto_cons hp (by unfold rawSize; omega)
          have h := ih (s := s.recvOneInto) (by
            rw [hone]
            intro hpc
            exact hl.1 (by simpa [hclosed] using hpc)) (by rw [hone]; exact hl.2)
            (recvOneInto_ctrlC.trans hz)
          have hbytes : s.recvOneInto.raw ++ arriving s.recvOneInto.polls =
              s.raw ++ arriving s.polls := by
            rw [hone,hp,arriving_cons,append_assoc]
          have hlen : s.recvOneInto.polls.length + 1 = s.polls.length := by rw [hone,hp]; rfl
          refine ⟨h.bytes.trans hbytes,?_,?_,h.enough,?_,fun hf => ?_,h.closed,h.closesLast,
            h.calm,fun rs hr ht => h.stays rs hr ?_⟩
          · rw [h.rx,hone]
          · rw [h.seq,hone]
          · have := h.fewer
            omega
          · rcases h.late hf with h' | h' | h'
            · exact .inl h'
            · exact .inr (.inl h')
            · exact .inr (by omega)
          · rw [hone]
            exact ht.read hp fun r hm => Nat.lt_of_lt_of_le (Nat.not_le.1 hn) (hr r hm)

theorem tcpFill_filled (need t : Nat) (hneed : need ≤ 13313) (hp : Pending cr k s rs) :
    ∃ ok s', s.tcpFill need t = (ok,s') ∧ Filled need t s s' ok :=
  ⟨_,_,rfl,tcpFill_spec hneed hp.closed hp.closesLast hp.calm⟩

theorem Filled.pending (h : Filled need t s s' ok) (hp : Pending cr k s rs) : Pending cr k s' rs :=
  ⟨h.bytes.trans hp.bytes,h.seq.symm ▸ hp.numbered,h.closed,h.closesLast,h.calm⟩

/-- While a record is missing, more bytes are to come. -/
theorem Pending.more (h : Pending cr k s (r :: rs)) (hn : s.raw.length < 5 + r.payload.length) :
    arriving s.polls ≠ [] := by
  intro h0
  have hb := congrArg List.length h.bytes
  rw [h0,append_nil,flatMap_cons,length_append,length_wire] at hb
  omega

theorem Pending.front (h : Pending cr k s (r :: rs)) (hn : 5 + r.payload.length ≤ s.raw.length) :
    ∃ rest, s.raw = wire r ++ rest ∧ rest ++ arriving s.polls = rs.flatMap wire := by
  have hb := h.bytes
  rw [flatMap_cons] at hb
  rcases append_eq_append_iff.1 hb with ⟨a,ha,hr⟩ | ⟨c,hc,hr⟩
  · have hlen := congrArg List.length ha
    rw [length_wire,length_append] at hlen
    obtain rfl : a = [] := length_eq_zero_iff.1 (by omega)
    exact ⟨[],by rw [append_nil] at ha ⊢; exact ha.symm,by simpa using hr⟩
  · exact ⟨c,hc,hr.symm⟩

variable {l : List UInt8}

theorem byte_append (h : i < l.length) : byte (l ++ m) i = byte l i := by
  rw [byte,byte,getElem?_append_left h]

theorem Pending.header (h : Pending cr k s (r :: rs)) (hn : 5 ≤ s.raw.length)
    (hlen : r.payload.length ≤ 13308) :
    byte s.raw 0 = RT_APP_DATA ∧ be16At s.raw 3 = r.payload.length := by
  have hbyte : ∀ i < 5, byte s.raw i = byte (wire r) i := by
    intro i hi
    have hw := length_wire (r := r)
    rw [← byte_append (m := arriving s.polls) (by omega),h.bytes,flatMap_cons,
      byte_append (by omega)]
  rw [be16At,hbyte 0 (by omega),hbyte 3 (by omega),hbyte 4 (by omega)]
  refine ⟨rfl,?_⟩
  simp only [wire,be16Bytes,byte,cons_append,nil_append,getElem?_cons_succ,
    getElem?_cons_zero,Option.getD_some,UInt8.toNat_ofNat']
  omega

variable {rest : List UInt8}

theorem drop_wire : (wire r ++ rest).drop (5 + r.payload.length) = rest := drop_left' length_wire

theorem piece_wire : piece (wire r ++ rest) 5 r.payload.length = r.payload := by
  rw [piece,wire,append_assoc,drop_left' (by simp [be16Bytes]),take_left' rfl]

section

variable (h : Pending cr k s (r :: rs)) (hn : 5 + r.payload.length ≤ s.raw.length)
include h hn

theorem Pending.piece : piece s.raw 5 r.payload.length = r.payload := by
  obtain ⟨rest,hrest,-⟩ := h.front hn
  rw [hrest,piece_wire]

theorem Pending.next
    (hraw : s'.raw = s.raw) (hseq : s'.seq = s.seq + 1) (hclosed : s'.peerClosed = s.peerClosed)
    (hpolls : s'.polls = s.polls) (hcalm : s'.ctrlC = s.ctrlC) :
    Pending cr k (s'.consume (5 + r.payload.length)) rs := by
  obtain ⟨rest,hrest,hb⟩ := h.front hn
  refine ⟨?_,?_,?_,?_,hcalm.trans h.calm⟩
  · simp [consume,hraw,hrest,drop_wire,hpolls,hb]
  · simp only [consume,hseq]
    exact h.numbered.2.2
  · simp only [consume,hclosed,hpolls]
    exact h.closed
  · simp only [consume,hpolls]
    exact h.closesLast

end

def kept (r : DataRecord) : List UInt8 := r.plain.take rxSize

theorem chunkRecord_data (ho : Opens cr k s.seq r) (hrx : s.rx = []) :
    ∃ stop, chunkRecord cr k RT_APP_DATA r.payload s =
      (stop,{ s with seq := s.seq + 1, rx := kept r }) ∧ (stop = false → kept r = []) := by
  unfold Opens at ho
  unfold chunkRecord
  cases hv : k.tls13 with
  | true =>
    rw [hv,if_pos rfl] at ho
    refine ⟨true,?_,fun h => by cases h⟩
    simp [ho,kept]
  | false =>
    rw [hv,if_neg (by decide)] at ho
    refine ⟨!(kept r).isEmpty,?_,fun h => by simpa using h⟩
    simp [ho,deliver,hrx,kept]

/-- A call of `recv_chunk` returns the data of the first records, `done`, and leaves the
others pending. -/
structure Took (cr : Crypto) (k : Session) (s s' : TlsStream) (done rest : List DataRecord) :
    Prop where
  rx : s'.rx = done.flatMap kept
  pending : Pending cr k s' rest
  stays : Open s' rest
  fewer : s'.polls.length ≤ s.polls.length

theorem Took.later {done rest : List DataRecord} (h : Took cr k s' s'' done rest)
    (hf : s'.polls.length ≤ s.polls.length) : Took cr k s s'' done rest :=
  ⟨h.rx,h.pending,h.stays,Nat.le_trans h.fewer hf⟩

/-- If five bytes do not come in time, then there was nothing to come or polls were made. -/
theorem Pending.idle (hp : Pending cr k s rs) (hf : Filled 5 t s s' false) :
    rs = [] ∧ (s'.peerClosed = true ∨ s'.polls = []) ∨ s'.polls.length + t ≤ s.polls.length := by
  have hp' := hf.pending hp
  have hshort : s'.raw.length < 5 := by simpa using hf.enough
  have hnil : arriving s'.polls = [] → rs = [] := by
    intro h0
    cases rs with
    | nil => rfl
    | cons r rs => exact absurd h0 (hp'.more (by omega))
  rcases hf.late rfl with hc | h0 | hle
  · exact .inl ⟨hnil (hp'.closed hc),.inl hc⟩
  · exact .inl ⟨hnil (by rw [h0]; rfl),.inr h0⟩
  · exact .inr hle

/-- The rest of a record does not come in time only if polls were made. -/
theorem Pending.slow (hp : Pending cr k s (r :: rs))
    (hf : Filled (5 + r.payload.length) t s s' false) : s'.polls.length + t ≤ s.polls.length := by
  have hp' := hf.pending hp
  have hmore := hp'.more (by simpa using hf.enough)
  rcases hf.late rfl with hc | h0 | hle
  · exact absurd (hp'.closed hc) hmore
  · exact absurd (by rw [h0]; rfl) hmore
  · exact hle

theorem Pending.cons_of_header (hp : Pending cr k s rs) (hn : 5 ≤ s.raw.length) :
    ∃ r rs', rs = r :: rs' := by
  cases rs with
  | nil =>
    have hb := congrArg List.length hp.bytes
    rw [length_append,flatMap_nil,length_nil] at hb
    omega
  | cons r rs' => exact ⟨r,rs',rfl⟩

/-- A stream from which nothing has been taken out. -/
structure Reached (cr : Crypto) (k : Session) (s s' : TlsStream) (rs : List DataRecord) : Prop where
  pending : Pending cr k s' rs
  rx : s'.rx = s.rx
  fewer : s'.polls.length ≤ s.polls.length
  stays : Timely s rs → Timely s' rs

/-- What the two waits of a turn come to: no header in time, a header and no more, or a
record. -/
inductive Waits (cr : Crypto) (k : Session) (s : TlsStream) (t : Nat) : List DataRecord → Prop
  | idle {rs : List DataRecord} {s1 : TlsStream} (he : s.tcpFill 5 100 = (false,s1))
      (hreach : Reached cr k s s1 rs) (hshort : s1.raw.length < 5)
      (hidle : rs = [] ∧ (s1.peerClosed = true ∨ s1.polls = []) ∨
        s1.polls.length + 100 ≤ s.polls.length) : Waits cr k s t rs
  | slow {r : DataRecord} {rs : List DataRecord} {s1 s2 : TlsStream}
      (he : s.tcpFill 5 100 = (true,s1)) (hrec : be16At s1.raw 3 = r.payload.length)
      (he2 : s1.tcpFill (5 + r.payload.length) t = (false,s2))
      (hreach : Reached cr k s s2 (r :: rs)) (hshort : s2.raw.length < 5 + r.payload.length)
      (hslow : s2.polls.length + t ≤ s.polls.length) : Waits cr k s t (r :: rs)
  | record {r : DataRecord} {rs : List DataRecord} {s1 s2 : TlsStream}
      (he : s.tcpFill 5 100 = (true,s1)) (htype : byte s1.raw 0 = RT_APP_DATA)
      (hrec : be16At s1.raw 3 = r.payload.length)
      (he2 : s1.tcpFill (5 + r.payload.length) t = (true,s2))
      (hreach : Reached cr k s s2 (r :: rs)) (hall : 5 + r.payload.length ≤ s2.raw.length) :
      Waits cr k s t (r :: rs)

theorem Pending.waits (hp : Pending cr k s rs) (t : Nat) : Waits cr k s t rs := by
  obtain ⟨ok,s1,he,h5⟩ := tcpFill_filled 5 100 (by omega) hp
  have hp1 := h5.pending hp
  have h5' : ∀ r ∈ rs.head?, 5 ≤ (wire r).length := fun r _ => by rw [length_wire]; omega
  cases ok with
  | false => exact .idle he ⟨hp1,h5.rx,h5.fewer,h5.stays rs h5'⟩ (by simpa using h5.enough) (hp.idle h5)
  | true =>
    have hn : 5 ≤ s1.raw.length := by simpa using h5.enough
    obtain ⟨r,rs,rfl⟩ := hp1.cons_of_header hn
    have hlen := hp1.numbered.2.1
    obtain ⟨htype,hrec⟩ := hp1.header hn hlen
    obtain ⟨ok,s2,he2,hr⟩ := tcpFill_filled (5 + r.payload.length) t (by omega) hp1
    have hfront : ∀ r' ∈ (r :: rs).head?, 5 + r.payload.length ≤ (wire r').length := by
      rintro r' ⟨⟩
      exact Nat.le_of_eq length_wire.symm
    have hreach : Reached cr k s s2 (r :: rs) := ⟨hr.pending hp1,hr.rx.trans h5.rx,
      Nat.le_trans hr.fewer h5.fewer,fun ho => hr.stays _ hfront (h5.stays _ h5' ho)⟩
    cases ok with
    | false =>
      exact .slow he hrec he2 hreach (by simpa using hr.enough)
        (Nat.le_trans (hp1.slow hr) h5.fewer)
    | true => exact .record he htype hrec he2 hreach (by simpa using hr.enough)

theorem ClosesWithLast.tail (h : ClosesWithLast (r :: rs) n ps) (hn : 5 + r.payload.length ≤ n) :
    ClosesWithLast rs (n - (5 + r.payload.length)) ps := by
  induction ps generalizing n with
  | nil => trivial
  | cons p ps ih =>
    refine ⟨fun hc => ?_,?_⟩
    · have hle := h.1 hc
      cases rs with
      | nil => exact Nat.zero_le _
      | cons r' rs =>
        rw [dropLast_cons_cons,flatMap_cons,length_append,length_wire] at hle
        omega
    · have := ih h.2 (by omega)
      rwa [show n + p.data.length - (5 + r.payload.length) =
        n - (5 + r.payload.length) + p.data.length by omega] at this

theorem chunkLoop_spec (hp : Pending cr k s rs) (ho : Open s rs) (hrx : s.rx = []) :
    ∃ done rest, rs = done ++ rest ∧ Took cr k s (chunkLoop cr k t s) done rest ∧
      (0 < t → rs = [] ∨
        rest.length + (chunkLoop cr k t s).polls.length < rs.length + s.polls.length) := by
  induction t generalizing s rs with
  | zero => exact ⟨[],rs,rfl,⟨hrx,hp,ho,.refl⟩,fun h => absurd h (by omega)⟩
  | succ t ih =>
    rw [chunkLoop,look_calm hp.calm]
    dsimp only
    by_cases hclosed : s.peerClosed = true
    · rw [if_pos hclosed]
      exact ⟨[],rs,rfl,⟨hrx,hp,ho,.refl⟩,fun _ => .inl (ho.ended hclosed)⟩
    rw [if_neg hclosed]
    have htime : Timely s rs := ⟨fun h => absurd h hclosed,ho.later⟩
    cases hp.waits 500 with
    | idle he hreach hshort hidle =>
      rename_i s1
      have ho1 : Open s1 rs := by
        refine ⟨fun hc => ?_,(hreach.stays htime).later⟩
        cases rs with
        | nil => rfl
        | cons r rs => exact absurd (hreach.pending.closed hc) (hreach.pending.more (by omega))
      obtain ⟨done,rest,hrs,htook,-⟩ := ih hreach.pending ho1 (hreach.rx.trans hrx)
      have hfew := htook.fewer
      have hlen := congrArg List.length hrs
      rw [length_append] at hlen
      rw [he]
      refine ⟨done,rest,hrs,htook.later hreach.fewer,fun _ => ?_⟩
      rcases hidle with ⟨h0,-⟩ | hle
      · exact .inl h0
      · exact .inr (by dsimp only; omega)
    | slow he hrec he2 hreach hshort hslow =>
      rename_i r rs s1 s2
      have ho2 : Open s2 (r :: rs) := by
        refine ⟨fun hc => ?_,(hreach.stays htime).later⟩
        exact absurd (hreach.pending.closed hc) (hreach.pending.more hshort)
      simp only [he,hrec,he2]
      refine ⟨[],r :: rs,rfl,⟨hreach.rx.trans hrx,hreach.pending,ho2,hreach.fewer⟩,
        fun _ => .inr ?_⟩
      omega
    | record he htype hrec he2 hreach hall =>
      rename_i r rs s1 s2
      have hfew2 := hreach.fewer
      have htime2 := hreach.stays htime
      obtain ⟨stop,hstep,hstop⟩ := chunkRecord_data hreach.pending.numbered.1 (hreach.rx.trans hrx)
      have hnext : Pending cr k (consume { s2 with seq := s2.seq + 1, rx := kept r }
        (5 + r.payload.length)) rs := hreach.pending.next hall rfl rfl rfl rfl rfl
      have ho2 : Open (consume { s2 with seq := s2.seq + 1, rx := kept r }
          (5 + r.payload.length)) rs := by
        refine ⟨fun hc => ?_,?_⟩
        · have h0 := htime2.last hc
          cases rs with
          | nil => rfl
          | cons r' rs => cases h0
        · simp only [consume,length_drop]
          exact htime2.later.tail hall
      simp only [he,htype,hrec,he2,hreach.pending.piece hall,hstep]
      cases stop with
      | true =>
        refine ⟨[r],rs,rfl,⟨?_,hnext,ho2,hfew2⟩,fun _ => .inr ?_⟩
        · simp [consume]
        · simp only [consume,length_cons]
          omega
      | false =>
        obtain ⟨done,rest,rfl,htook,-⟩ := ih hnext ho2 (hstop rfl)
        have hfew : _ ≤ s2.polls.length := htook.fewer
        dsimp only
        refine ⟨r :: done,rest,rfl,⟨?_,htook.pending,htook.stays,by omega⟩,fun _ => .inr ?_⟩
        · rw [htook.rx,flatMap_cons,hstop rfl,nil_append]
        · simp only [length_cons,length_append]
          omega

variable {n : Nat}

/-- Any number of calls return the data of the first records, cut off at the size of the
receive buffer, and leave the others pending. -/
theorem recvChunks_took (hp : Pending cr k s rs) (ho : Open s rs) :
    ∃ done rest, rs = done ++ rest ∧ (recvChunks cr k t n s).1 = done.flatMap kept ∧
      (0 < t → rs.length + s.polls.length ≤ n → rest = []) := by
  induction n generalizing s rs with
  | zero =>
    refine ⟨[],rs,rfl,rfl,fun _ h => length_eq_zero_iff.1 (by omega)⟩
  | succ n ih =>
    have hp0 : Pending cr k { s with rx := [] } rs :=
      ⟨hp.bytes,hp.numbered,hp.closed,hp.closesLast,hp.calm⟩
    obtain ⟨done,rest,rfl,htook,hless⟩ := chunkLoop_spec (t := t) hp0 ⟨ho.ended,ho.later⟩ rfl
    obtain ⟨done',rest',rfl,hdata,hall⟩ := ih htook.pending htook.stays
    refine ⟨done ++ done',rest',by simp,?_,fun ht hn => ?_⟩
    · rw [flatMap_append,← htook.rx,← hdata]
      rfl
    · rcases hless ht with h0 | hlt
      · simp only [append_eq_nil_iff] at h0
        exact h0.2.2
      · refine hall ht ?_
        dsimp only at hlt
        omega

theorem take_append_take : (l.take n ++ m).take n = (l ++ m).take n := by
  rw [take_append,take_append,take_take,Nat.min_self,length_take]
  by_cases h : n ≤ l.length
  · rw [Nat.min_eq_left h,Nat.sub_self,Nat.sub_eq_zero_of_le h]
  · rw [Nat.min_eq_right (by omega)]

theorem deliver_rx (h : s.rx.length ≤ rxSize) :
    (s.deliver plain).rx = (s.rx ++ plain).take rxSize := by
  rw [take_append,take_of_length_le h]
  rfl

theorem allRecord_data (ho : Opens cr k s.seq r) : allRecord cr k RT_APP_DATA r.payload s =
      (false,{ s.deliver r.plain with seq := s.seq + 1 }) := by
  have hne : ¬ RT_APP_DATA = RT_ALERT := by decide
  unfold Opens at ho
  unfold allRecord
  cases hv : k.tls13 with
  | true =>
    rw [hv,if_pos rfl] at ho
    simp [ho,hne]
  | false =>
    rw [hv,if_neg (by decide)] at ho
    simp [ho,hne]

variable {fuel : Nat}

theorem recvAllLoop_idle (hp : Pending cr k s []) (hf : T < fuel + idle)
    (h0 : 0 < fuel) : ∃ s', recvAllLoop cr k T fuel idle s = some s' ∧ s'.rx = s.rx := by
  induction fuel generalizing s idle with
  | zero => exact absurd h0 (by omega)
  | succ fuel ih =>
    cases hp.waits 1000 with
    | idle he hreach hshort hidle =>
      rename_i s1
      rw [recvAllLoop,look_calm hp.calm]
      dsimp only
      rw [he]
      dsimp only
      split
      · exact ⟨s1,rfl,hreach.rx⟩
      · rename_i hgo
        obtain ⟨s',hs',hrx⟩ := ih hreach.pending (show T < fuel + (idle + 1) by omega) (by omega)
        exact ⟨s',hs',hrx.trans hreach.rx⟩

/-- In at most 1000 polls none of the two waits runs out before all has come. -/
theorem recvAllLoop_spec (hp : Pending cr k s rs) (hrx : s.rx.length ≤ rxSize)
    (hpolls : s.polls.length + 100 * idle ≤ 1000) (hT : 10 ≤ T)
    (hf : rs.length + s.polls.length + T + 1 ≤ fuel) :
    ∃ s', recvAllLoop cr k T fuel idle s = some s' ∧
      s'.rx = (s.rx ++ rs.flatMap DataRecord.plain).take rxSize := by
  induction fuel generalizing s rs idle with
  | zero => exact absurd hf (by omega)
  | succ fuel ih =>
    cases rs with
    | nil =>
      rw [length_nil] at hf
      have hfuel : T < fuel + 1 + idle := by omega
      obtain ⟨s',hs',h⟩ := recvAllLoop_idle hp hfuel (by omega)
      exact ⟨s',hs',by rw [h,flatMap_nil,append_nil,take_of_length_le hrx]⟩
    | cons r rs =>
      rw [length_cons] at hf
      rw [recvAllLoop,look_calm hp.calm]
      dsimp only
      cases hp.waits 1000 with
      | idle he hreach hshort hidle =>
        rename_i s1
        have hle : s1.polls.length + 100 ≤ s.polls.length := hidle.resolve_left (by simp)
        have hgo : ¬ (s1.peerClosed = true ∨ T < idle + 1) := by
          rintro (hc | hi)
          · exact hreach.pending.more (by omega) (hreach.pending.closed hc)
          · omega
        rw [he]
        dsimp only
        rw [if_neg hgo,← hreach.rx]
        exact ih hreach.pending (hreach.rx ▸ hrx) (by omega) (by rw [length_cons]; omega)
      | slow he hrec he2 hreach hshort hslow =>
        -- all polls have been made, so the record is there
        rename_i s1 s2
        have hnil : s2.polls = [] := length_eq_zero_iff.1 (by omega)
        exact absurd (by rw [hnil]; rfl) (hreach.pending.more hshort)
      | record he htype hrec he2 hreach hall =>
        rename_i s1 s2
        have hfew := hreach.fewer
        have hstep := allRecord_data hreach.pending.numbered.1
        have hnext : Pending cr k (consume { s2.deliver r.plain with seq := s2.seq + 1 }
          (5 + r.payload.length)) rs := hreach.pending.next hall rfl rfl rfl rfl rfl
        have hdeliver : (s2.deliver r.plain).rx = (s.rx ++ r.plain).take rxSize := by
          rw [deliver_rx (hreach.rx ▸ hrx),hreach.rx]
        have hpolls' : (s2.deliver r.plain).polls = s2.polls := rfl
        simp only [he,htype,hrec,he2,hreach.pending.piece hall,hstep]
        obtain ⟨s',hs',h⟩ := ih hnext (by
          simp only [consume,hdeliver,length_take]
          omega) (show s2.polls.length + 100 * 0 ≤ 1000 by omega) (by
          simp only [consume,hpolls']
          omega)
        refine ⟨s',hs',h.trans ?_⟩
        simp only [consume,hdeliver]
        rw [take_append_take,flatMap_cons,append_assoc]

theorem flatMap_kept (h : ∀ r ∈ rs, r.plain.length ≤ rxSize) :
    rs.flatMap kept = rs.flatMap DataRecord.plain :=
  flatMap_congr fun r hr => take_of_length_le (h r hr)

/-- `l` in `n` reads of the largest size. -/
def inReads : Nat → List UInt8 → List Poll
  | 0, _ => []
  | n + 1, l => ⟨l.take 4096,false,List.length_take_le _ _⟩ :: inReads n (l.drop 4096)

theorem arriving_inReads (h : l.length ≤ 4096 * n) : arriving (inReads n l) = l := by
  induction n generalizing l with
  | zero => exact (length_eq_zero_iff.1 (Nat.le_zero.1 h)).symm
  | succ n ih =>
    rw [inReads,arriving_cons,ih (by rw [length_drop]; omega),take_append_drop]

theorem closes_inReads : ClosesLast (inReads n l) ∧ ∀ m, ClosesWithLast rs m (inReads n l) := by
  induction n generalizing l with
  | zero => exact ⟨trivial,fun _ => trivial⟩
  | succ n ih => exact ⟨⟨nofun,ih.1⟩,fun _ => ⟨nofun,ih.2 _⟩⟩

/-- A connection of TLS 1.3 on which the server sends one record. -/
def session13 : Session := ⟨true,20,[],[],[],[]⟩

def sends (n : Nat) (r : DataRecord) : TlsStream := ⟨[],[],0,false,inReads n (wire r),none⟩

theorem open_sends : Open (sends n r) rs := ⟨nofun,closes_inReads.2 _⟩

/-- `l` as a record that carries it in the clear. -/
def plainRecordOf (l : List UInt8) : DataRecord := ⟨l,l ++ [RT_APP_DATA]⟩

theorem pending_sends (hn : l.length + 6 ≤ 4096 * n) (hl : l.length ≤ 13307) :
    Pending plainCrypto session13 (sends n (plainRecordOf l)) [plainRecordOf l] := by
  have hlen : (plainRecordOf l).payload.length = l.length + 1 := by simp [plainRecordOf]
  refine ⟨?_,⟨rfl,by omega,trivial⟩,fun h => absurd h (by simp [sends]),
    (closes_inReads : _ ∧ ∀ m, ClosesWithLast [] m _).1,rfl⟩
  simp only [sends,nil_append,flatMap_cons,flatMap_nil,append_nil]
  exact arriving_inReads (by rw [length_wire]; omega)

/-- The contents of a record that the protocol allows and the receive buffer does not take. -/
def longData : List UInt8 := List.replicate 8193 7

theorem length_longData : longData.length = 8193 := length_replicate

end Miku.Net.Tls
