import Mathlib.Data.Option.Basic
import Miku.Net.TlsRsa
import Miku.Proofs.TlsFinished

namespace Miku.Net.Tls
open Lib List
open Option hiding ext

theorem beAt_eq (h : p + n ≤ d.length) : beAt d p n = .ok (beNat ((d.drop p).take n)) := by
  induction n with
  | zero => rfl
  | succ n ih =>
    have hn : n < (d.drop p).length := by simp; omega
    have := ih (by omega)
    unfold beAt at this ⊢
    rw [range_succ,foldlM_append,this,take_succ_eq_append_getElem hn]
    simp [idx_eq (show p + n < d.length by omega),beNat]

theorem beNat_lt (h : l.length ≤ 4) : beNat l < 4294967296 := by
  have hb : ∀ b : UInt8, b.toNat < 256 := UInt8.toNat_lt
  match l, h with
  | [], _ => decide
  | [a], _ => simp [beNat]; grind
  | [a,b], _ => simp [beNat]; grind
  | [a,b,c], _ => simp [beNat]; grind
  | [a,b,c,d], _ => simp [beNat]; grind

theorem readLen_parses :
    Parses (readLen d p) fun r => r.1 < 4294967296 ∧ r.2 ≤ d.length := by
  refine .check fun hp => .lift (.idx hp ?_)
  have hb := d[p].toNat_lt
  by_cases hs : d[p] &&& 0x80 = 0
  · rw [if_pos hs]
    exact .pure ⟨by simp only; omega,hp⟩
  · rw [if_neg hs]
    refine .check fun ⟨hn,hl⟩ => .lift ⟨_,beAt_eq hl,.pure ⟨beNat_lt ?_,hl⟩⟩
    exact Nat.le_trans (length_take_le ..) hn

theorem expect_parses : Parses (expect d p tag) fun q => q ≤ d.length :=
  .check fun hp => .lift (.idx hp (.check fun _ => .pure hp))

theorem skipTo_ends (h : p + n ≤ cert.length) : Ends (skipTo cert n p) fun _ => True := by
  induction n generalizing p with
  | zero => exact .pure trivial
  | succ n ih =>
    refine .bind (.idx (by omega) ?_)
    split
    · exact .pure trivial
    · exact ih (by omega)

theorem findModulus_parses :
    Parses (findModulus cert) fun r => r.1 < 4294967296 ∧ r.2 ≤ cert.length := by
  refine Parses.bind ⟨oidOffset cert,rfl,fun _ ho => ho⟩ fun oidOff ho => ?_
  have hoid := mem_range.mp (mem_of_find?_eq_some ho)
  refine .lift ((skipTo_ends (by omega)).imp fun p _ => .check fun _ => ?_)
  refine (readLen_parses).bind fun _ _ => (expect_parses).bind fun _ _ =>
    (expect_parses).bind fun _ _ => (readLen_parses).bind fun _ _ =>
    (expect_parses).bind fun _ _ => readLen_parses

/-- The field of a length, as DER writes it in at most five bytes. -/
inductive LenField : List UInt8 → Nat → Prop
  | short (b : UInt8) : b < 0x80 → LenField [b] b.toNat
  | long (bs : List UInt8) : bs.length ≤ 4 →
      LenField (UInt8.ofNat (128 + bs.length) :: bs) (beNat bs)

theorem short_form : ∀ b : UInt8, b &&& 0x80 = 0 ↔ b < 0x80 := by
  intro b
  have : ∀ n < 256, (UInt8.ofNat n &&& 0x80 = 0 ↔ UInt8.ofNat n < 0x80) := by decide +kernel
  simpa using this b.toNat b.toNat_lt

theorem long_form (b : UInt8) (h : ¬b < 0x80) : b = UInt8.ofNat (128 + (b &&& 0x7f).toNat) := by
  have : ∀ n < 256, ¬UInt8.ofNat n < 0x80 →
      UInt8.ofNat n = UInt8.ofNat (128 + (UInt8.ofNat n &&& 0x7f).toNat) := by decide +kernel
  simpa [h] using this b.toNat b.toNat_lt

theorem long_count (h : n ≤ 4) : (UInt8.ofNat (128 + n) &&& 0x7f).toNat = n ∧
    ¬UInt8.ofNat (128 + n) < 0x80 := by
  have : ∀ n < 5, (UInt8.ofNat (128 + n) &&& 0x7f).toNat = n ∧ ¬UInt8.ofNat (128 + n) < 0x80 := by
    decide
  exact this n (by omega)

section Drop
variable {d s : List α}

theorem drop_add (h : d.drop p = f ++ s) : d.drop (p + f.length) = s := by
  rw [← drop_drop,h,drop_left]

theorem drop_succ (h : d.drop p = a :: s) : d.drop (p + 1) = s := drop_add (f := [a]) h

theorem getElem?_of_drop (h : d.drop p = a :: s) : d[p]? = some a := by
  rw [← head?_drop,h]
  rfl

theorem drop_of_getElem? (h : d[p]? = some a) : d.drop p = a :: d.drop (p + 1) := by
  obtain ⟨hp,rfl⟩ := List.getElem?_eq_some_iff.mp h
  exact drop_eq_getElem_cons hp

theorem length_of_drop (h : d.drop p = f ++ s) (hf : f ≠ []) : p + f.length ≤ d.length := by
  have := congrArg List.length h
  have := length_pos_iff.mpr hf
  simp at this ⊢
  grind

end Drop

theorem readLen_iff : (readLen d p).run = .ok (some (l,q)) ↔
    ∃ f, LenField f l ∧ q = p + f.length ∧ d.drop p = f ++ d.drop q := by
  unfold readLen
  rw [parse_check_iff,parse_lift_iff]
  constructor
  · rintro ⟨hp,b,hb,h⟩
    have hd := drop_of_getElem? (idx_iff.mp hb)
    by_cases hs : b &&& 0x80 = 0
    · rw [if_pos hs,parse_pure_iff] at h
      cases h
      exact ⟨[b],.short b ((short_form b).mp hs),rfl,hd⟩
    · rw [if_neg hs,parse_check_iff] at h
      obtain ⟨⟨hn,hl⟩,h⟩ := h
      rw [parse_lift_iff] at h
      obtain ⟨v,hv,h⟩ := h
      rw [beAt_eq hl] at hv
      obtain rfl := Except.ok.inj hv
      rw [parse_pure_iff] at h
      cases h
      have hlen : ((d.drop (p + 1)).take (b &&& 0x7f).toNat).length = (b &&& 0x7f).toNat := by
        simp only [length_take,length_drop]
        omega
      refine ⟨b :: (d.drop (p + 1)).take (b &&& 0x7f).toNat,?_,by rw [length_cons,hlen]; omega,?_⟩
      · have := LenField.long ((d.drop (p + 1)).take (b &&& 0x7f).toNat) (by omega)
        rwa [hlen,← long_form b fun h => hs ((short_form b).mpr h)] at this
      · rw [hd,cons_append,← drop_drop (j := p + 1),take_append_drop]
  · rintro ⟨f,hf,rfl,h⟩
    cases hf with
    | short b hb =>
      have hp := length_of_drop h (by simp)
      refine ⟨hp,b,idx_iff.mpr (getElem?_of_drop h),?_⟩
      rw [if_pos ((short_form b).mpr hb),parse_pure_iff]
      rfl
    | long bs hbs =>
      obtain ⟨hc,hn⟩ := long_count hbs
      have hp := length_of_drop h (by simp)
      rw [length_cons] at hp
      refine ⟨by omega,_,idx_iff.mpr (getElem?_of_drop h),?_⟩
      rw [if_neg fun h => hn ((short_form _).mp h),parse_check_iff]
      refine ⟨by omega,?_⟩
      rw [hc,parse_lift_iff]
      refine ⟨_,beAt_eq (by omega),?_⟩
      rw [cons_append] at h
      rw [parse_pure_iff,drop_succ h,take_left,length_cons]
      congr 1
      omega

theorem expect_iff : (expect d p tag).run = .ok (some q) ↔ q = p + 1 ∧ d.drop p = tag :: d.drop q := by
  unfold expect
  rw [parse_check_iff,parse_lift_iff]
  simp only [parse_check_iff,parse_pure_iff]
  constructor
  · rintro ⟨hp,b,hb,rfl,rfl⟩
    exact ⟨rfl,drop_of_getElem? (idx_iff.mp hb)⟩
  · rintro ⟨rfl,h⟩
    exact ⟨length_of_drop (f := [tag]) h (by simp),tag,idx_iff.mpr (getElem?_of_drop h),rfl,rfl⟩

/-- The bytes up to the next 3, or all `n` of them. -/
theorem skipTo_iff (h : p + n ≤ cert.length) : skipTo cert n p = .ok q ↔
    ∃ gap, 3 ∉ gap ∧ q = p + gap.length ∧ cert.drop p = gap ++ cert.drop q ∧
      (gap.length = n ∨ gap.length < n ∧ cert[q]? = some 3) := by
  induction n generalizing p with
  | zero =>
    refine ⟨fun hq => ⟨[],by simp,(Except.ok.inj hq).symm,by rw [← Except.ok.inj hq]; rfl,.inl rfl⟩,?_⟩
    rintro ⟨gap,-,rfl,-,hg | ⟨hg,-⟩⟩
    · rw [hg]
      rfl
    · omega
  | succ n ih =>
    have hp : p < cert.length := by omega
    have hd := drop_eq_getElem_cons hp
    rw [skipTo,idx_eq hp,ok_bind]
    by_cases h3 : cert[p] = 3
    · rw [if_pos h3]
      constructor
      · rintro hq
        obtain rfl := Except.ok.inj hq
        exact ⟨[],by simp,rfl,rfl,.inr ⟨by simp,by rw [getElem?_eq_getElem hp,h3]⟩⟩
      · rintro ⟨_ | ⟨b,gap⟩,hn,rfl,hg,-⟩
        · rfl
        · rw [hd] at hg
          exact absurd ((List.cons.inj hg).1.symm.trans h3) (by simp at hn; exact fun h => hn.1 h.symm)
    · rw [if_neg h3,ih (by omega)]
      constructor
      · rintro ⟨gap,hn,rfl,hg,hl⟩
        refine ⟨cert[p] :: gap,by simp [hn,Ne.symm h3],by simp; omega,?_,?_⟩
        · rw [hd,hg]
          rfl
        · simpa using hl
      · rintro ⟨_ | ⟨b,gap⟩,hn,rfl,hg,hl⟩
        · simp at hl
          exact absurd (some.inj ((getElem?_eq_getElem hp).symm.trans hl)) h3
        · rw [hd] at hg
          obtain ⟨rfl,hg⟩ := List.cons.inj hg
          exact ⟨gap,fun h => hn (mem_cons_of_mem _ h),by simp; omega,hg,by simpa using hl⟩

theorem oidOffset_iff : oidOffset cert = some i ↔
    cert.drop i = rsaOid ++ cert.drop (i + 9) ∧ ∀ j < i, (cert.drop j).take 9 ≠ rsaOid := by
  unfold oidOffset
  rw [find?_range_eq_some]
  simp only [decide_eq_true_eq,decide_eq_false_iff_not,mem_range,Bool.not_eq_true']
  constructor
  · rintro ⟨h,-,hj⟩
    refine ⟨?_,hj⟩
    rw [← h,← drop_drop,take_append_drop]
  · rintro ⟨h,hj⟩
    have := length_of_drop h (by simp [rsaOid])
    refine ⟨?_,?_,hj⟩
    · rw [h]
      exact take_left' rfl
    · have : rsaOid.length = 9 := rfl
      omega

/-- The headers in front of the modulus: after the first rsaEncryption OID a bit string among the
next 55 bytes, or what stands behind these, then a sequence and an integer of `nLen` bytes. -/
def ModulusAt (cert : List UInt8) (nLen : Nat) (rest : List UInt8) : Prop :=
  ∃ start gap c f l g m h, cert = start ++ (rsaOid ++ (gap ++ (c :: (f ++
      (0x00 :: 0x30 :: (g ++ (0x02 :: (h ++ rest)))))))) ∧
    (∀ j < start.length, (cert.drop j).take 9 ≠ rsaOid) ∧
    0x03 ∉ gap ∧ (gap.length = 55 ∨ gap.length < 55 ∧ c = 0x03) ∧
    LenField f l ∧ LenField g m ∧ LenField h nLen

theorem findModulus_iff : (findModulus cert).run = .ok (some (n,q)) ↔
    q ≤ cert.length ∧ ModulusAt cert n (cert.drop q) := by
  have h9 : rsaOid.length = 9 := rfl
  unfold findModulus
  rw [parse_bind_iff]
  constructor
  · rintro ⟨i,hi,h⟩
    obtain ⟨hoid,hj⟩ := oidOffset_iff.mp (Except.ok.inj hi)
    have hlen := length_of_drop hoid (by simp [rsaOid])
    rw [parse_lift_iff] at h
    obtain ⟨p,hp,h⟩ := h
    rw [parse_check_iff] at h
    obtain ⟨hpl,h⟩ := h
    obtain ⟨gap,h3,rfl,hgap,hc⟩ := (skipTo_iff (by omega)).mp hp
    simp only [parse_bind_iff,expect_iff,readLen_iff,Prod.exists] at h
    obtain ⟨l,_,⟨f,hf,rfl,hdf⟩,_,⟨rfl,hd0⟩,_,⟨rfl,hd30⟩,m,_,⟨g,hg,rfl,hdg⟩,_,⟨rfl,hd2⟩,
      h,hh,rfl,hdh⟩ := h
    have hi' : i ≤ cert.length := by omega
    refine ⟨length_of_drop hdh (by cases hh <;> simp),cert.take i,gap,cert[i + 9 + gap.length],f,l,
      g,m,h,?_,?_,h3,?_,hf,hg,hh⟩
    · rw [← hdh,← hd2,← hdg,← hd30,← hd0,← hdf,← drop_eq_getElem_cons hpl,← hgap,← hoid,
        take_append_drop]
    · rwa [length_take_of_le hi']
    · rcases hc with hc | ⟨hc,h3⟩
      · exact .inl (by omega)
      · by_cases h55 : gap.length = 55
        · exact .inl h55
        · exact .inr ⟨by omega,some.inj ((getElem?_eq_getElem hpl).symm.trans h3)⟩
  · rintro ⟨hq,start,gap,c,f,l,g,m,h,hcert,hj,h3,hc,hf,hg,hh⟩
    have h₀ := drop_add (p := 0) hcert
    rw [Nat.zero_add] at h₀
    have h₁ : cert.drop (start.length + 9) = _ := drop_add h₀
    have h₂ := drop_add h₁
    have h₃ := drop_succ h₂
    have h₄ := drop_add h₃
    have h₅ := drop_succ h₄
    have h₆ := drop_succ h₅
    have h₇ := drop_add h₆
    have h₈ := drop_succ h₇
    have h₉ := drop_add h₈
    have hlen := length_of_drop h₈ (by cases hh <;> simp)
    have hend := congrArg List.length h₉
    simp only [length_drop] at hend
    have hskip : skipTo cert (min cert.length (start.length + 64) - (start.length + 9))
        (start.length + 9) = .ok (start.length + 9 + gap.length) := by
      refine (skipTo_iff (by omega)).mpr ⟨gap,h3,rfl,by rw [h₂]; exact h₁,?_⟩
      rcases hc with hc | ⟨hc,rfl⟩
      · exact .inl (by omega)
      · exact .inr ⟨by omega,getElem?_of_drop h₂⟩
    refine ⟨start.length,congrArg Except.ok (oidOffset_iff.mpr ⟨h₀.trans (by rw [← h₁]),hj⟩),?_⟩
    rw [parse_lift_iff]
    refine ⟨_,hskip,?_⟩
    rw [parse_check_iff]
    refine ⟨by omega,?_⟩
    simp only [parse_bind_iff,expect_iff,readLen_iff,Prod.exists]
    exact ⟨l,_,⟨f,hf,rfl,by rw [h₄]; exact h₃⟩,_,⟨rfl,by rw [h₅]; exact h₄⟩,_,⟨rfl,by rw [h₆]; exact h₅⟩,m,_,
      ⟨g,hg,rfl,by rw [h₇]; exact h₆⟩,_,⟨rfl,by rw [h₈]; exact h₇⟩,h,hh,by omega,h₈⟩

/-- What a key has is in the bytes of the certificate. -/
def KeyOf (cert : List UInt8) (k : RsaPublicKey) : Prop :=
  ∃ i j p n, i ≤ j ∧ j ≤ cert.length ∧ p + n ≤ cert.length ∧
    k.n = bnFromBytesBe ((cert.take j).drop i) ∧ k.nLen = j - i ∧ k.e = beNat ((cert.drop p).take n)

theorem key_parsed_of {r : Nat × Nat} (hs : Sized cert) (hr : r.1 < 4294967296) (hle : r.2 ≤ cert.length)
    (hz : r.1 = 0 → ∃ b ∈ cert[r.2]?, b ≠ 0) (hm : (findModulus cert).run = .ok (some r)) :
    Parses (parseRsaPublicKey cert) (KeyOf cert) := by
  unfold Sized at hs
  have hp : Parses (findModulus cert) (· = r) := ⟨_,hm,fun _ h => (some.inj h).symm⟩
  refine hp.bind fun _ h => h ▸ .lift (.fit (.check fun hstop => ?_))
  have hlt : r.2 < cert.length := by
    by_contra hge
    obtain ⟨b,hb,-⟩ := hz (by omega)
    exact hge (List.getElem?_eq_some_iff.mp hb).1
  have hz' : cert[r.2] = 0 → r.1 ≠ 0 := by
    intro hb h0
    obtain ⟨b,hb',hne⟩ := hz h0
    exact hne (some.inj ((getElem?_eq_getElem hlt).symm.trans hb') ▸ hb)
  refine .lift (.idx hlt ?_)
  obtain ⟨start,hstart,hi⟩ : ∃ start, (if cert[r.2] = 0x00 then r.2 + 1 else r.2) = start ∧
      start ≤ r.2 + r.1 := ⟨_,rfl,by split <;> grind⟩
  rw [hstart]
  refine .lift (.slice hi hstop ((expect_parses).bind fun p _ =>
    (readLen_parses).bind fun l ⟨hl,hp⟩ => .lift (.fit (.check fun he => ?_))))
  have hend : l.2 + min l.1 4 ≤ cert.length := by omega
  refine .lift ⟨_,beAt_eq hend,.pure ?_⟩
  refine ⟨start,r.2 + r.1,l.2,min l.1 4,hi,hstop,hend,?_,?_,?_⟩ <;> dsimp only

theorem ModulusAt.suffix (h : ModulusAt cert n rest) : ∃ q ≤ cert.length, cert.drop q = rest := by
  obtain ⟨start,gap,c,f,l,g,m,h,hcert,-⟩ := h
  have hlen := congrArg List.length hcert
  simp only [length_append,length_cons] at hlen
  refine ⟨cert.length - rest.length,by omega,?_⟩
  refine (suffix_iff_eq_drop.mp ⟨start ++ (rsaOid ++ (gap ++ (c :: (f ++
    (0x00 :: 0x30 :: (g ++ (0x02 :: h))))))),?_⟩).symm
  simp [hcert]

/-- An empty modulus at the end, or in front of a zero byte, is what makes the parser fault. -/
theorem not_parses_of_empty (h : ModulusAt cert 0 rest) (hb : ∀ b ∈ rest.head?, b = 0) :
    ¬Parses (parseRsaPublicKey cert) P := by
  obtain ⟨q,hq,rfl⟩ := h.suffix
  intro hp
  obtain ⟨stop,hstop,hp⟩ := (Parses.next hp (findModulus_iff.mpr ⟨hq,h⟩)).lift_next
  obtain ⟨b,hi,hp⟩ := (hp.check_next (by rw [of_fit hstop]; exact hq)).lift_next
  obtain rfl := hb b (by rw [head?_drop]; exact idx_iff.mp hi)
  obtain ⟨n,hn,-⟩ := hp.lift_next
  obtain rfl := of_fit hstop
  rw [if_pos rfl,slice,if_neg (by omega)] at hn
  cases hn

/-- Only an empty modulus at the end or in front of a zero byte makes the parser fault; a key is
made of two ranges of the certificate. -/
theorem key_parsed (cert : List UInt8) (hs : Sized cert) :
    Parses (parseRsaPublicKey cert) (KeyOf cert) ↔ ∀ rest, ModulusAt cert 0 rest →
      ∃ b ∈ rest.head?, b ≠ 0 := by
  constructor
  · intro h rest hm
    by_contra hb
    exact not_parses_of_empty hm (by simpa using hb) h
  · intro h
    obtain ⟨r,hr,hq⟩ : Parses (findModulus cert) _ := findModulus_parses
    cases r with
    | none =>
      refine ⟨none,?_,nofun⟩
      unfold parseRsaPublicKey
      rw [OptionT.run_bind,hr]
      rfl
    | some r =>
      obtain ⟨hlt,hle⟩ := hq r rfl
      refine key_parsed_of hs hlt hle (fun hz => ?_) hr
      rw [← head?_drop]
      exact h _ (hz ▸ (findModulus_iff.mp hr).2)

/-- A modulus of one byte and an exponent of one byte. -/
def smallCert : List UInt8 := rsaOid ++ [3,0,0,0x30,0,2,1,7,2,1,3]

theorem key_parsed_small : Parses (parseRsaPublicKey smallCert) (KeyOf smallCert) :=
  (key_parsed smallCert (by decide)).mpr fun rest h => by
    have hrun : (findModulus smallCert).run = .ok (some (1,16)) := by decide +kernel
    obtain ⟨q,hq,rfl⟩ := h.suffix
    have := (findModulus_iff.mpr ⟨hq,h⟩).symm.trans hrun
    simp at this

/-- The first byte of an empty modulus is read behind the end. -/
theorem empty_modulus_faults : (parseRsaPublicKey (rsaOid ++ [3,0,0,0x30,0,2,0])).run.toOption = none := by
  decide +kernel

/-- A vector with a length of three bytes. -/
def vec24 (l : List UInt8) : List UInt8 := UInt8.ofNat (l.length / 65536) :: be16Bytes l.length ++ l

def certificate12 (certs : List (List UInt8)) : List UInt8 :=
  makeHandshake HT_CERTIFICATE (vec24 (certs.flatMap vec24))

/-- Each certificate has its extensions behind it. -/
def certificate13 (ctx : List UInt8) (entries : List (List UInt8 × List UInt8)) : List UInt8 :=
  makeHandshake HT_CERTIFICATE (UInt8.ofNat ctx.length :: ctx ++
    vec24 (entries.flatMap fun e => vec24 e.1 ++ (be16Bytes e.2.length ++ e.2)))

/-- What the handshake has for the certificate of the server. -/
def taken (s : Handshake) : List UInt8 := (range s.certLen).map s.serverCert

/-- The record opens to data that make `stream` behind what is in the buffer. -/
def Streams (cr : Crypto) (s : Handshake) (payload stream : List UInt8) : Prop :=
  ∃ data, cr.aes128gcmOpen s.serverHsKey (nonce s.serverHsIv s.tls13ServerSeq)
      ([RT_APP_DATA,0x03,0x03] ++ be16Bytes payload.length) payload = some (data ++ [RT_HANDSHAKE]) ∧
    s.hsBuf.map Prod.fst ++ data = stream

theorem be24At_vec24 (pre post : List UInt8) (h : l.length < 16777216) :
    be24At (pre ++ (vec24 l ++ post)) pre.length = l.length := by
  simp [be24At,be16At,byte,vec24,be16Bytes]
  omega

theorem messages_flatten (hms : ∀ m ∈ ms, ∃ t body, m = makeHandshake t body)
    (hrest : rest.length < 4 + be24At rest 1) (hbuf : buf.map Prod.fst = ms.flatten ++ rest)
    (hlen : buf.length < 16777216) (hfuel : buf.length ≤ fuel) :
    (messages fuel buf).1.map (map Prod.fst) = ms := by
  induction ms generalizing buf fuel with
  | nil =>
    cases fuel with
    | zero => rfl
    | succ fuel =>
      have hl : buf.length = rest.length := by simpa using congrArg length hbuf
      rw [messages,hbuf,if_neg (by simp; omega)]
      rfl
  | cons m ms ih =>
    obtain ⟨t,body,rfl⟩ := hms m mem_cons_self
    have hm : (makeHandshake t body).length = 4 + body.length := by
      simp [makeHandshake,be16Bytes]
      omega
    have hl : buf.length = 4 + body.length + (ms.flatten ++ rest).length := by
      rw [← length_map Prod.fst,hbuf,flatten_cons,append_assoc,length_append,hm]
    have hn : be24At (buf.map Prod.fst) 1 = body.length := by
      rw [hbuf,flatten_cons,append_assoc]
      exact be24At_vec24 [t] (ms.flatten ++ rest) (by omega)
    cases fuel with
    | zero => omega
    | succ fuel =>
      rw [messages,hn,if_pos (by omega)]
      refine congrArg₂ cons ?_ (ih (fun m h => hms m (mem_cons_of_mem _ h)) ?_ ?_ ?_)
      · rw [map_take,hbuf,flatten_cons,append_assoc,← hm,take_left]
      · rw [map_drop,hbuf,flatten_cons,append_assoc,← hm,drop_left]
      · rw [length_drop]
        omega
      · rw [length_drop]
        omega

theorem vec24_eq (l : List UInt8) : ∃ x y z, vec24 l = x :: y :: z :: l := ⟨_,_,_,rfl⟩

theorem map_put_self : (range src.length).map (put b 0 src) = src := by
  apply ext_getElem
  · simp
  · intro i _ hi
    simpa using (put_at i hi : put b 0 src (0 + i) = _)

theorem certificate13_parts (hctx : ctx.length < 256) : ∃ pre post,
    certificate13 ctx ((cert,ext) :: es) = pre ++ (vec24 cert ++ post) ∧
      pre.length = 8 + ctx.length ∧ (byte (certificate13 ctx ((cert,ext) :: es)) 4).toNat = ctx.length := by
  obtain ⟨post,hp⟩ : ∃ post, certificate13 ctx ((cert,ext) :: es) =
      HT_CERTIFICATE :: vec24 (UInt8.ofNat ctx.length :: ctx ++ vec24 (vec24 cert ++ post)) :=
    ⟨_,by rw [certificate13,flatMap_cons,append_assoc]; rfl⟩
  obtain ⟨x,y,z,hlist⟩ := vec24_eq (vec24 cert ++ post)
  obtain ⟨u,v,w,hbody⟩ := vec24_eq (UInt8.ofNat ctx.length :: ctx ++ x :: y :: z :: (vec24 cert ++ post))
  rw [hp,hlist,hbody]
  refine ⟨HT_CERTIFICATE :: u :: v :: w :: UInt8.ofNat ctx.length :: ctx ++ [x,y,z],post,by simp,?_,?_⟩
  · simp
    omega
  · simp [byte]
    omega

theorem certLen_onCertificate (h : s.certLen ≤ 8192) : (onCertificate s msg).certLen ≤ 8192 := by
  unfold onCertificate
  dsimp only
  split
  · exact Nat.min_le_right ..
  · exact h

theorem onCertificate_taken (hctx : ctx.length < 256) (hcert : cert.length ≤ 8192) :
    taken (onCertificate s (certificate13 ctx ((cert,ext) :: es))) = cert := by
  obtain ⟨pre,post,hmsg,hpre,hbyte⟩ := @certificate13_parts ctx cert ext es hctx
  rw [hmsg] at hbyte ⊢
  have hlen : be24At (pre ++ (vec24 cert ++ post)) (5 + ctx.length + 3) = cert.length := by
    rw [show 5 + ctx.length + 3 = pre.length by omega]
    exact be24At_vec24 pre post (by omega)
  obtain ⟨x,y,z,he⟩ := vec24_eq cert
  have hpiece : piece (pre ++ (vec24 cert ++ post)) (5 + ctx.length + 6) cert.length = cert := by
    rw [he,show 5 + ctx.length + 6 = pre.length + 3 by omega,piece,drop_append,drop_of_length_le (by omega)]
    simp
  unfold onCertificate
  simp only [hbyte,hlen,Nat.min_eq_left hcert,hpiece]
  rw [if_pos (by simp [he]; omega),if_pos (by simp [he]; omega)]
  exact map_put_self

/-- Of two handshakes both have the same certificate. -/
def SameCert (s t : Handshake) : Prop := t.certLen = s.certLen ∧ t.serverCert = s.serverCert

theorem SameCert.taken_eq (h : SameCert s t) : taken t = taken s := by
  rw [taken,taken,h.1,h.2]

theorem onSealed_sameCert (h : byte (m.map Prod.fst) 0 ≠ HT_CERTIFICATE) :
    SameCert s (onSealed cr s m) := by
  simp only [onSealed,if_neg h]
  split <;> exact ⟨rfl,rfl⟩

theorem onServerHello_sameCert (h : onServerHello cr c s msg = some t) : SameCert s t := by
  obtain ⟨u,hu,hsame⟩ : ∃ u,
      (if 42 ≤ msg.length then { s with serverRandom := piece msg 6 32 } else s) = u ∧ SameCert s u :=
    ⟨_,rfl,by split <;> exact ⟨rfl,rfl⟩⟩
  simp only [onServerHello,hu] at h
  split at h
  · split at h
    · obtain ⟨_,-,rfl⟩ := map_eq_some_iff.mp h
      exact hsame
    · obtain rfl := some.inj h
      exact hsame
  · obtain rfl := some.inj h
    exact hsame

theorem onPlain_sameCert (hm : byte (m.map Prod.fst) 0 ≠ HT_CERTIFICATE)
    (h : onPlain cr c s m = some t) : SameCert s t := by
  simp only [onPlain,if_neg hm] at h
  split at h
  · obtain ⟨hl,hc⟩ := onServerHello_sameCert h
    exact ⟨hl,hc⟩
  · split at h
    · obtain rfl := some.inj h
      exact ⟨rfl,rfl⟩
    · split at h <;> obtain rfl := some.inj h
      · unfold onServerKeyExchange
        dsimp only
        split <;> exact ⟨rfl,rfl⟩
      · exact ⟨rfl,rfl⟩

section Others
variable {ms : List (List (UInt8 × Bool))}
  (h : ∀ m ∈ ms, byte (m.map Prod.fst) 0 ≠ HT_CERTIFICATE)
include h

theorem foldl_onSealed_sameCert : SameCert s (ms.foldl (onSealed cr) s) := by
  induction ms generalizing s with
  | nil => exact ⟨rfl,rfl⟩
  | cons m ms ih =>
    obtain ⟨h₁,h₂⟩ : SameCert s (onSealed cr s m) := onSealed_sameCert (h m mem_cons_self)
    obtain ⟨h₃,h₄⟩ := ih fun m hm => h m (mem_cons_of_mem _ hm)
    exact ⟨h₃.trans h₁,h₄.trans h₂⟩

theorem foldlM_onPlain_sameCert (hf : ms.foldlM (onPlain cr c) s = some t) : SameCert s t := by
  induction ms generalizing s with
  | nil =>
    obtain rfl := some.inj hf
    exact ⟨rfl,rfl⟩
  | cons m ms ih =>
    obtain ⟨u,hu,hf⟩ := bind_eq_some_iff.mp hf
    obtain ⟨h₁,h₂⟩ := onPlain_sameCert (h m mem_cons_self) hu
    obtain ⟨h₃,h₄⟩ := ih (fun m hm => h m (mem_cons_of_mem _ hm)) hf
    exact ⟨h₃.trans h₁,h₄.trans h₂⟩

end Others

/-- The messages of a record, with one Certificate among them. -/
structure OneCertificate (msg : List UInt8) (stream : List UInt8) where
  before : List (List UInt8)
  later : List (List UInt8)
  rest : List UInt8
  eq : stream = (before ++ msg :: later).flatten ++ rest
  framed : ∃ body, msg = makeHandshake HT_CERTIFICATE body
  others : ∀ m ∈ before ++ later, ∃ t body, m = makeHandshake t body ∧ t ≠ HT_CERTIFICATE
  cut : rest.length < 4 + be24At rest 1

theorem OneCertificate.split (o : OneCertificate msg stream) {buf : List (UInt8 × Bool)}
    (hbuf : buf.map Prod.fst = stream) (hlen : buf.length ≤ hsBufSize) : ∃ ms m ns,
      (messages buf.length buf).1 = ms ++ m :: ns ∧ m.map Prod.fst = msg ∧
      ∀ n ∈ ms ++ ns, byte (n.map Prod.fst) 0 ≠ HT_CERTIFICATE := by
  have hframed : ∀ m ∈ o.before ++ msg :: o.later, ∃ t body, m = makeHandshake t body := by
    intro m hm
    rcases mem_append.mp hm with hm | hm
    · obtain ⟨t,body,h,-⟩ := o.others m (mem_append_left _ hm)
      exact ⟨t,body,h⟩
    rcases mem_cons.mp hm with rfl | hm
    · exact ⟨_,o.framed⟩
    · obtain ⟨t,body,h,-⟩ := o.others m (mem_append_right _ hm)
      exact ⟨t,body,h⟩
  unfold hsBufSize at hlen
  have hms := messages_flatten hframed o.cut (hbuf.trans o.eq) (by omega) .refl
  obtain ⟨ms,ns,hsplit,hms,hns⟩ := map_eq_append_iff.mp hms
  obtain ⟨m,ns,rfl,hm,hns⟩ := map_eq_cons_iff.mp hns
  refine ⟨ms,m,ns,hsplit,hm,fun n hn => ?_⟩
  have hmem : n.map Prod.fst ∈ o.before ++ o.later := by
    rw [← hms,← hns,← map_append]
    exact mem_map_of_mem hn
  obtain ⟨t,body,h,ht⟩ := o.others _ hmem
  rw [h]
  exact ht

theorem messages_of_cut (h : buf.length < 4 + be24At (buf.map Prod.fst) 1) :
    messages fuel buf = ([],buf) := by
  cases fuel with
  | zero => rfl
  | succ fuel => rw [messages,if_neg (by omega)]

/-- No certificate has come yet, and the buffer has no whole message. -/
structure Waiting (s : Handshake) : Prop where
  certLen : s.certLen = 0
  serverCert : s.serverCert = zeroBytes
  cut : s.hsBuf.length < 4 + be24At (s.hsBuf.map Prod.fst) 1

theorem Waiting.taken (h : Waiting s) : taken s = [] := by
  rw [Tls.taken,h.certLen]
  rfl

/-- Of a TLS 1.3 Certificate the first certificate is taken, if the stream fits in the buffer and
the certificate in its place. -/
theorem certificate13_taken_iff (hs : Waiting s) (hctx : ctx.length < 256) (hcert : cert ≠ [])
    (o : OneCertificate (certificate13 ctx ((cert,ext) :: es)) stream)
    (h : Streams cr s payload stream) : taken (sealedRecord cr s payload) = cert ↔
      stream.length ≤ hsBufSize ∧ cert.length ≤ 8192 := by
  obtain ⟨data,hopen,hstream⟩ := h
  have hbuf : (s.hsBuf ++ data.map (·,true)).map Prod.fst = stream := by
    simpa [Function.comp_def] using hstream
  have hlen : stream.length = s.hsBuf.length + data.length := by
    rw [← hbuf]
    simp
  simp only [sealedRecord,hopen,getLast?_concat,if_true,dropLast_concat,filled,hlen]
  by_cases hfit : s.hsBuf.length + data.length ≤ hsBufSize
  · obtain ⟨ms,m,ns,hsplit,hm,hns⟩ := o.split hbuf (by simpa using hfit)
    rw [if_pos hfit,hsplit,foldl_append,foldl_cons,
      (foldl_onSealed_sameCert fun n hn => hns n (mem_append_right _ hn)).taken_eq]
    have hbyte : byte (certificate13 ctx ((cert,ext) :: es)) 0 = HT_CERTIFICATE := rfl
    simp only [onSealed,hm,if_pos hbyte]
    refine ⟨fun h => ⟨hfit,?_⟩,fun h => onCertificate_taken hctx h.2⟩
    rw [← h,taken,length_map,length_range]
    refine certLen_onCertificate ?_
    refine Nat.le_trans (Nat.le_of_eq (Eq.trans ?_ hs.certLen)) (by decide)
    exact (foldl_onSealed_sameCert fun n hn => hns n (mem_append_left _ hn)).1
  · rw [if_neg hfit,messages_of_cut hs.cut]
    refine ⟨fun h => absurd (h.symm.trans ?_) hcert,fun h => absurd h.1 hfit⟩
    exact hs.taken

theorem certificate12_parts (h : (certificate12 ((a :: b :: tl) :: certs)).length ≤ hsBufSize) :
    ∃ pre post, certificate12 ((a :: b :: tl) :: certs) = pre ++ b :: (tl ++ post) ∧
      pre.length = 11 ∧ byte (certificate12 ((a :: b :: tl) :: certs)) 4 = 0 := by
  obtain ⟨post,hp⟩ : ∃ post, certificate12 ((a :: b :: tl) :: certs) =
      HT_CERTIFICATE :: vec24 (vec24 (vec24 (a :: b :: tl) ++ post)) :=
    ⟨_,by rw [certificate12,flatMap_cons]; rfl⟩
  rw [hp] at h ⊢
  have hl : (vec24 (a :: b :: tl) ++ post).length / 65536 = 0 := by
    simp only [vec24,be16Bytes,length_append,length_cons,hsBufSize] at h ⊢
    omega
  obtain ⟨x,y,z,hbody⟩ := vec24_eq (vec24 (vec24 (a :: b :: tl) ++ post))
  obtain ⟨u,v,w,hcert⟩ := vec24_eq (a :: b :: tl)
  rw [hbody]
  refine ⟨HT_CERTIFICATE :: x :: y :: z :: (vec24 (vec24 (a :: b :: tl) ++ post)).take 7,post,?_,?_,?_⟩
  · simp [vec24,be16Bytes]
  · simp [vec24,be16Bytes]
  · rw [vec24,hl]
    rfl

/-- What is stored begins with the second byte of the certificate; what is not stored is 0. -/
theorem taken_certificate12 (hu : u.serverCert = zeroBytes) (hne : a ≠ b)
    (h : (certificate12 ((a :: b :: tl) :: certs)).length ≤ hsBufSize) :
    taken (onCertificate u (certificate12 ((a :: b :: tl) :: certs))) ≠ a :: b :: tl := by
  obtain ⟨pre,post,hmsg,hpre,hbyte⟩ := certificate12_parts h
  have hlong : 11 ≤ (certificate12 ((a :: b :: tl) :: certs)).length := by
    rw [hmsg,length_append]
    omega
  have hdrop : (certificate12 ((a :: b :: tl) :: certs)).drop 11 = b :: (tl ++ post) := by
    rw [hmsg,← hpre,drop_left]
  generalize certificate12 ((a :: b :: tl) :: certs) = msg at *
  simp only [onCertificate,hbyte,UInt8.toNat_zero,Nat.add_zero,Nat.reduceAdd,if_pos hlong]
  generalize min (be24At msg 8) 8192 = n
  intro heq
  split at heq
  · have hlen : (piece msg 11 n).length = n := by
      simp only [piece,length_take,length_drop]
      omega
    have hstored : (range _).map (put u.serverCert 0 (piece msg 11 n)) = _ := map_put_self
    rw [hlen] at hstored
    have heq : piece msg 11 n = a :: b :: tl := hstored.symm.trans heq
    cases n with
    | zero => cases heq
    | succ n =>
      rw [piece,hdrop] at heq
      exact hne (cons.inj heq).1.symm
  · have hz : ∀ x ∈ a :: b :: tl, x = 0 := by
      rw [← heq,hu]
      intro x hx
      obtain ⟨_,-,rfl⟩ := mem_map.mp hx
      rfl
    exact hne ((hz a (by simp)).trans (hz b (by simp)).symm)

/-- No TLS 1.2 Certificate gives the first certificate. -/
theorem certificate12_not_taken (hs : Waiting s) (hne : a ≠ b)
    (o : OneCertificate (certificate12 ((a :: b :: tl) :: certs)) stream)
    (hstream : s.hsBuf.map Prod.fst ++ payload = stream)
    (h : plainRecord cr c s payload = some s') : taken s' ≠ a :: b :: tl := by
  have hbuf : (s.hsBuf ++ payload.map (·,false)).map Prod.fst = stream := by
    simpa [Function.comp_def] using hstream
  simp only [plainRecord,filled] at h
  by_cases hfit : s.hsBuf.length + payload.length ≤ hsBufSize
  · obtain ⟨ms,m,ns,hsplit,hm,hns⟩ := o.split hbuf (by simpa using hfit)
    rw [if_pos hfit,hsplit,foldlM_append] at h
    obtain ⟨u,hu,h⟩ := bind_eq_some_iff.mp h
    obtain ⟨v,hv,h⟩ := bind_eq_some_iff.mp h
    rw [(foldlM_onPlain_sameCert (fun n hn => hns n (mem_append_right _ hn)) h).taken_eq]
    have hsame := foldlM_onPlain_sameCert (fun n hn => hns n (mem_append_left _ hn)) hu
    have hlen : (certificate12 ((a :: b :: tl) :: certs)).length ≤ hsBufSize := by
      have : stream.length = s.hsBuf.length + payload.length := by simp [← hstream]
      simp only [o.eq,length_append,flatten_append,flatten_cons] at this
      omega
    obtain ⟨pre,post,hmsg,hpre,-⟩ := certificate12_parts hlen
    have hlong : 10 < (certificate12 ((a :: b :: tl) :: certs)).length := by
      rw [hmsg,length_append]
      omega
    simp only [onPlain,hm] at hv
    have hbyte : byte (certificate12 ((a :: b :: tl) :: certs)) 0 = HT_CERTIFICATE := rfl
    rw [hbyte,if_neg (by decide),if_pos rfl,if_pos hlong] at hv
    obtain rfl := some.inj hv
    exact taken_certificate12 (hsame.2.trans hs.serverCert) hne hlen
  · rw [if_neg hfit,messages_of_cut hs.cut] at h
    obtain rfl := some.inj h
    exact fun h => cons_ne_nil _ _ (h.symm.trans hs.taken)

/-- Of the certificates that come in a record the first is taken in TLS 1.3, exactly if there is
room for it; in TLS 1.2 it is never taken, if its first two bytes differ. -/
theorem certificate_taken (cr : Crypto) (c : Client) (s : Handshake) (hs : Waiting s)
    (payload stream cert : List UInt8) :
    (∀ ctx ext es, ctx.length < 256 → cert ≠ [] →
      OneCertificate (certificate13 ctx ((cert,ext) :: es)) stream → Streams cr s payload stream →
      (taken (sealedRecord cr s payload) = cert ↔
        stream.length ≤ hsBufSize ∧ cert.length ≤ 8192)) ∧
    (∀ a b tl certs s', cert = a :: b :: tl → a ≠ b →
      OneCertificate (certificate12 (cert :: certs)) stream →
      s.hsBuf.map Prod.fst ++ payload = stream →
      plainRecord cr c s payload = some s' → taken s' ≠ cert) := by
  refine ⟨fun ctx ext es hctx hcert o h => certificate13_taken_iff hs hctx hcert o h,?_⟩
  rintro a b tl certs s' rfl hne o hstream h
  exact certificate12_not_taken hs hne o hstream h

/-- A record with EncryptedExtensions and a Certificate. -/
theorem certificate_taken_coalesced : taken (sealedRecord plainCrypto (start caller)
    (makeHandshake 8 [0,0] ++ certificate13 [7] [([0x30,1,2],[]),([0x30],[5])] ++ [RT_HANDSHAKE])) =
      [0x30,1,2] :=
  ((certificate_taken plainCrypto caller (start caller) ⟨rfl,rfl,by decide⟩ _ _ [0x30,1,2]).1 [7] []
    [([0x30],[5])] (by decide) (by decide)
    ⟨[makeHandshake 8 [0,0]],[],[],rfl,⟨_,rfl⟩,by
      rintro m hm
      obtain rfl := mem_singleton.mp hm
      exact ⟨8,[0,0],rfl,by decide⟩,by decide⟩
    ⟨_,rfl,rfl⟩).mpr ⟨by decide,by decide⟩

/-- For TLS 1.2 the length is read one byte too far on. -/
theorem certificate12_misread : (plainRecord plainCrypto caller (start caller)
    (certificate12 [[0x30,0]])).map (fun s => (taken s).length) = some 560 := by
  decide +kernel

end Miku.Net.Tls
