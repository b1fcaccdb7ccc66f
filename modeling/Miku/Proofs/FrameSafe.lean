import Miku.Net.Rx

namespace Miku.Net
open Lib Option
open List hiding sum

variable {buf payload : List UInt8}

theorem u16At_ends (h : i + 1 < buf.length) : Ends (u16At buf i) fun w => w < 65536 := by
  refine .bind (.idx (by omega) (.bind (.idx h (.pure ?_))))
  have ha := buf[i].toNat_lt
  have hb := buf[i + 1].toNat_lt
  omega

theorem slice_ends (hab : a ≤ b) (hb : b ≤ buf.length) :
    Ends (slice buf a b) fun s => s.length = b - a := by
  refine .slice hab hb ?_
  rw [length_drop,length_take]
  omega

theorem EthFrame.parse_ends (buf : List UInt8) :
    Ends (EthFrame.parse buf) fun r => ∀ f, r = some f →
      f.src.length = 6 ∧ f.payload.length + 14 ≤ buf.length := by
  unfold EthFrame.parse
  split
  · exact .pure fun f h => by cases h
  · refine .seq (slice_ends (by omega) (by omega)) fun dst _ => ?_
    refine .seq (slice_ends (by omega) (by omega)) fun src hsrc => ?_
    refine .seq (u16At_ends (by omega)) fun et _ => ?_
    refine .seq (slice_ends (by omega) .refl) fun pl hpl => .pure fun f hf => ?_
    cases hf
    exact ⟨hsrc,by simp only; omega⟩

theorem EthFrame.build_ends {dst src : Mac} (hd : dst.length = 6) (hs : src.length = 6)
    (hp : Sized payload) :
    Ends (EthFrame.build dst src et payload out) fun r => r.1 ≤ r.2.length := by
  have hp' : payload.length < 9223372036854775808 := hp
  refine .bind (.fit ?_)
  split
  · exact .pure (Nat.zero_le _)
  · refine .bind (.store (by omega) fun o1 h1 => .bind (.store (by omega) fun o2 h2 => ?_))
    refine .bind (.store (by simp [u16Bytes]; omega) fun o3 h3 => ?_)
    exact .bind (.store (by omega) fun o4 h4 => .pure (by simp only; omega))

/-- The table has its sixteen entries and the next one to use is one of them. -/
structure ArpTable.Formed (t : ArpTable) : Prop where
  size : t.entries.length = 16
  next : t.next < 16

theorem ArpTable.insert_ends {t : ArpTable} (ht : t.Formed) :
    Ends (t.insert ip mac) fun t' => t'.Formed := by
  have hsize := ht.size
  have hnext := ht.next
  unfold ArpTable.insert
  split
  · exact .pure ⟨by simpa using hsize,hnext⟩
  · refine .bind (.store (by simp [arpTableSize]; omega) fun es hes => ?_)
    exact .bind (.fit (.pure ⟨hes.trans hsize,Nat.mod_lt _ (by decide)⟩))

theorem arpParse_ends : Ends (arpParse buf) fun r => ∀ p, r = some p →
      28 ≤ buf.length ∧ p.senderMac.length = 6 ∧ p.senderIp.length = 4 := by
  unfold arpParse
  split
  · exact .pure fun p h => by cases h
  · refine .seq (u16At_ends (by omega)) fun hw _ => ?_
    refine .seq (u16At_ends (by omega)) fun pt _ => ?_
    split
    · exact .pure fun p h => by cases h
    · refine .bind (.idx (by omega) (.bind (.idx (by omega) ?_)))
      split
      · exact .pure fun p h => by cases h
      · refine .seq (u16At_ends (by omega)) fun op _ => ?_
        refine .seq (slice_ends (by omega) (by omega)) fun mac hmac => ?_
        refine .seq (slice_ends (by omega) (by omega)) fun ip hip => .pure fun p hp => ?_
        cases hp
        exact ⟨by omega,hmac,hip⟩

variable {ourIp : Ip}

theorem arpBuildReply_ends {ourMac targetMac : Mac} {targetIp : Ip}
    (h1 : ourMac.length = 6) (h2 : ourIp.length = 4) (h3 : targetMac.length = 6)
    (h4 : targetIp.length = 4) :
    Ends (arpBuildReply ourMac ourIp targetMac targetIp) fun r => r.length = 28 := by
  have h28 : (replicate 28 (0 : UInt8)).length = 28 := length_replicate
  refine .bind (.store (by simp [u16Bytes]) fun o1 e1 => .bind (.store (by omega) fun o2 e2 => ?_))
  refine .bind (.store (by omega) fun o3 e3 => .bind (.store (by omega) fun o4 e4 => ?_))
  exact .store (by omega) fun o5 e5 => by omega

theorem Ipv4Header.parse_ends (buf : List UInt8) :
    Ends (Ipv4Header.parse buf) fun r => ∀ h, r = some h →
      h.src.length = 4 ∧ h.dst.length = 4 ∧ h.ihl ≤ buf.length := by
  unfold Ipv4Header.parse
  split
  · exact .pure fun p h => by cases h
  · refine .bind (.idx (by omega) ?_)
    split
    · exact .pure fun p h => by cases h
    · refine .bind (.fit ?_)
      split
      · exact .pure fun p h => by cases h
      · rename_i hihl
        refine .seq (u16At_ends (by omega)) fun tl _ => ?_
        refine .bind (.idx (by omega) (.bind (.idx (by omega) ?_)))
        refine .seq (slice_ends (by omega) (by omega)) fun src hsrc => ?_
        refine .seq (slice_ends (by omega) (by omega)) fun dst hdst => .pure fun h hh => ?_
        cases hh
        exact ⟨hsrc,hdst,by simp only; omega⟩

theorem Ipv4Header.payload_ends (h : Ipv4Header) (buf : List UInt8) :
    Ends (h.payload buf) fun p => p.length ≤ buf.length := by
  unfold Ipv4Header.payload
  simp only
  split
  · exact .pure (Nat.zero_le _)
  · exact (slice_ends (by omega) (by omega)).imp fun p hp => by omega

variable {data : List UInt8} {n : Nat}

/-- Up to byte `i` the sum is at most `65535 * i`. -/
theorem sumLoop_ends (hd : data.length ≤ 1500)
    (hs : sum ≤ 65535 * i) (hi : i ≤ data.length) (hn : data.length < n + i) :
    Ends (sumLoop data n i sum) fun r => r < 4294967296 := by
  induction n generalizing i sum with
  | zero => omega
  | succ n ih =>
    refine .bind (.fit ?_)
    split
    · rename_i hlt
      refine .seq (u16At_ends hlt) fun w hw => ?_
      refine .bind (.fit (.bind (.fit ?_)))
      exact ih (by omega) (by omega) (by omega)
    · split
      · rename_i hlt
        have hb := data[i].toNat_lt
        exact .bind (.idx hlt (.fit (by omega)))
      · exact .pure (by omega)

theorem foldSum_ends (hs : sum < 4294967296) (hn : sum < n) :
    Ends (foldSum n sum) fun _ => True := by
  induction n generalizing sum with
  | zero => omega
  | succ n ih =>
    unfold foldSum
    split
    · exact .bind (.fit (ih (by omega) (by omega)))
    · exact .pure trivial

theorem ipChecksum_ends (hd : data.length ≤ 1500) : Ends (ipChecksum data) fun _ => True := by
  refine .seq (sumLoop_ends hd (Nat.zero_le _) (Nat.zero_le _) (by omega)) fun sum hsum => ?_
  exact .seq (foldSum_ends hsum (Nat.lt_succ_self _)) fun _ _ => .pure trivial

theorem ipBuild_ends {src dst : Ip} (hsrc : src.length = 4) (hdst : dst.length = 4)
    (hp : payload.length ≤ 1500) :
    Ends (ipBuild src dst proto payload out) fun r => r.1 ≤ r.2.length ∧ r.2.length = out.length := by
  refine .bind (.fit ?_)
  split
  · exact .pure ⟨Nat.zero_le _,rfl⟩
  · refine .bind (.store (by simp [u16Bytes]; omega) fun o1 h1 => ?_)
    refine .bind (.store (by omega) fun o2 h2 => .bind (.store (by omega) fun o3 h3 => ?_))
    refine .seq (slice_ends (by omega) (by omega)) fun head hhead => ?_
    refine .seq (ipChecksum_ends (by omega)) fun csum _ => ?_
    refine .bind (.store (by simp [u16Bytes]; omega) fun o4 h4 => ?_)
    exact .bind (.store (by omega) fun o5 h5 => .pure ⟨by simp only; omega,by simp only; omega⟩)

/-- An echo request to this address longer than the buffer for the reply. -/
structure TooLong (ip : Ipv4Header) (ourIp : Ip) (icmp : List UInt8) : Prop where
  dst : ip.dst = ourIp
  kind : icmp[0]? = some 8
  long : 1500 < icmp.length

variable {ip : Ipv4Header} {icmp : List UInt8}

theorem Ipv4Header.handleIcmp_ends
    (hsrc : ip.src.length = 4) (hdst : ip.dst.length = 4) (h : ¬ TooLong ip ourIp icmp) :
    Ends (ip.handleIcmp ourIp icmp reply) fun r => r.1 ≤ r.2.length ∧ r.2.length = reply.length := by
  unfold handleIcmp
  split
  · exact .pure ⟨Nat.zero_le _,rfl⟩
  · rename_i hours
    split
    · exact .pure ⟨Nat.zero_le _,rfl⟩
    · rename_i hlen
      refine .bind (.idx (by omega) ?_)
      split
      · exact .pure ⟨Nat.zero_le _,rfl⟩
      · rename_i hkind
        have hlong : icmp.length ≤ 1500 := by
          by_contra hl
          refine h ⟨not_not.1 hours,?_,Nat.not_le.1 hl⟩
          rw [getElem?_eq_getElem (by omega),not_not.1 hkind]
        have h1500 : (replicate 1500 (0 : UInt8)).length = 1500 := length_replicate
        refine .seq (slice_ends (by omega) (by omega)) fun ident hident => ?_
        refine .seq (slice_ends (by omega) .refl) fun data hdata => ?_
        refine .bind (.fit ?_)
        refine .bind (.store (by rw [length_append,h1500]; simp; omega) fun o1 h1 => ?_)
        refine .bind (.store (by omega) fun o2 h2 => ?_)
        refine .seq (slice_ends (by omega) (by omega)) fun whole hwhole => ?_
        refine .seq (ipChecksum_ends (by omega)) fun csum _ => ?_
        refine .bind (.store (by simp [u16Bytes]; omega) fun o3 h3 => ?_)
        refine .seq (slice_ends (by omega) (by omega)) fun whole hwhole => ?_
        exact ipBuild_ends hdst hsrc (by omega)

theorem Ipv4Header.handleIcmp_tooLong (hs : Sized icmp) (h : TooLong ip ourIp icmp) :
    ip.handleIcmp ourIp icmp reply = .error .slice := by
  have hlong := h.long
  have hs' : icmp.length < 9223372036854775808 := hs
  have hkind : icmp[0] = 8 := by
    have := h.kind
    rw [getElem?_eq_getElem (by omega)] at this
    exact some.inj this
  have h1500 : (replicate 1500 (0 : UInt8)).length = 1500 := length_replicate
  obtain ⟨ident,hident,hil⟩ := slice_ends (a := 4) (by omega) (show 8 ≤ icmp.length by omega)
  obtain ⟨data,hdata,hdl⟩ := slice_ends (a := 8) (by omega) (Nat.le_refl icmp.length)
  have hhead : 0 + ([0,0,0,0] ++ ident).length ≤ (replicate 1500 (0 : UInt8)).length := by
    rw [h1500,length_append,hil]
    decide
  have ho : 1500 < 8 + data.length := by omega
  rw [handleIcmp,if_neg (not_not.2 h.dst),if_neg (by omega),idx_eq (by omega),ok_bind,
    if_neg (not_not.2 hkind),hident,ok_bind,hdata,ok_bind,fit_eq (by unfold usize; omega),ok_bind,
    store_eq hhead,ok_bind,store,if_neg,error_bind]
  rw [length_store (store_eq hhead),h1500]
  omega

theorem UdpHeader.parse_ends :
    Ends (UdpHeader.parse buf) fun r => ∀ h, r = some h → 8 ≤ buf.length := by
  unfold UdpHeader.parse
  split
  · exact .pure fun p h => by cases h
  · refine .seq (u16At_ends (by omega)) fun sp _ => ?_
    refine .seq (u16At_ends (by omega)) fun dp _ => ?_
    exact .seq (u16At_ends (by omega)) fun l _ => .pure fun h _ => by omega

theorem UdpHeader.payload_ends {h : UdpHeader} (hl : 8 ≤ buf.length) :
    Ends (h.payload buf) fun _ => True :=
  (slice_ends (by omega) (by omega)).imp fun _ _ => trivial

theorem u16At_eq (h : i + 1 < buf.length) : u16At buf i = .ok (be16 buf i).toNat := by
  have ha := buf[i].toNat_lt
  have hb := buf[i + 1].toNat_lt
  rw [u16At,idx_eq (by omega),ok_bind,idx_eq h,ok_bind,be16,UInt16.toNat_ofNat']
  simp only [getD_eq_getElem?_getD,getElem?_eq_getElem h,
    getElem?_eq_getElem (show i < buf.length by omega),getD_some]
  rw [Nat.mod_eq_of_lt (by omega)]
  rfl

theorem u32At_eq (h : i + 3 < buf.length) : u32At buf i = .ok (be32 buf i).toNat := by
  have ha := (be16 buf i).toNat_lt
  have hb := (be16 buf (i + 2)).toNat_lt
  rw [u32At,u16At_eq (by omega),ok_bind,u16At_eq (by omega),ok_bind,be32,UInt32.toNat_ofNat',
    Nat.mod_eq_of_lt (by omega)]
  rfl

theorem TcpSegment.read_eq : TcpSegment.read buf = .ok (TcpSegment.parse buf) := by
  unfold TcpSegment.read TcpSegment.parse
  by_cases hlen : buf.length < 20
  · simp only [hlen,↓reduceIte,true_or]
    rfl
  · have h12 : buf.getD 12 0 = buf[12] := by
      simp [getElem?_eq_getElem (show 12 < buf.length by omega)]
    have h13 : buf.getD 13 0 = buf[13] := by
      simp [getElem?_eq_getElem (show 13 < buf.length by omega)]
    have hb := buf[12].toNat_lt
    simp only [hlen,↓reduceIte,false_or,h12,h13]
    rw [idx_eq (by omega),ok_bind,fit_eq (by omega),ok_bind]
    by_cases hoff : buf[12].toNat / 16 * 4 < 20
    · simp only [hoff,↓reduceIte]
      rfl
    · simp only [hoff,↓reduceIte]
      rw [u16At_eq (by omega),ok_bind,u16At_eq (by omega),ok_bind,u32At_eq (by omega),ok_bind,
        u32At_eq (by omega),ok_bind,idx_eq (by omega),ok_bind,u16At_eq (by omega),ok_bind]
      simp only [UInt16.ofNat_toNat,UInt32.ofNat_toNat]
      rfl

theorem TcpSegment.readPayload_eq (seg : TcpSegment) :
    seg.readPayload buf = .ok (seg.payload buf) := by
  unfold TcpSegment.readPayload TcpSegment.payload
  split
  · rename_i h
    rw [drop_eq_nil_of_le h]
    rfl
  · rename_i h
    rw [slice_eq (by omega) .refl,take_length]

section
variable {opts : List UInt8}

theorem getD_of_lt (h : i < opts.length) : opts.getD i 0 = opts[i] := by
  simp [getElem?_eq_getElem h]

variable {n : Nat}

theorem readMss_two (hi : i < opts.length) (ho : opts.length < 256)
    (h : opts[i] = 2) : readMss opts (n + 1) i = .ok (mssOption opts (n + 1) i) := by
  rw [readMss,mssOption,if_pos hi,if_neg (Nat.not_le.2 hi),idx_eq hi,ok_bind,getD_of_lt hi,h,
    if_neg (by decide),if_neg (by decide),if_pos rfl,fit_eq (by unfold usize; omega),ok_bind]
  by_cases hlen : opts.length < i + 4
  · rw [if_pos hlen]
    exact (congrArg Except.ok (if_neg fun hc => by omega)).symm
  · rw [if_neg hlen,idx_eq (by omega),ok_bind]
    by_cases h4 : opts[i + 1] = 4
    · rw [if_pos h4,u16At_eq (by omega),ok_bind,UInt16.ofNat_toNat]
      refine (congrArg Except.ok (if_pos ⟨by omega,?_⟩)).symm
      rw [getD_of_lt (by omega),h4]
    · rw [if_neg h4]
      refine (congrArg Except.ok (if_neg fun hc => h4 ?_)).symm
      rw [← hc.2,getD_of_lt (by omega)]

theorem mssOption_other (hi : i < opts.length) (h : 2 < opts[i].toNat) : mssOption opts (n + 1) i =
      if opts.length ≤ i + 1 ∨ opts.getD (i + 1) 0 < 2 then none
      else mssOption opts n (i + (opts.getD (i + 1) 0).toNat) := by
  obtain ⟨k,hk⟩ : ∃ k, opts[i].toNat = k + 3 := ⟨opts[i].toNat - 3,by omega⟩
  rw [mssOption,if_neg (Nat.not_le.2 hi),getD_of_lt hi,hk]
  rfl

end

/-- The option loop with its accesses checked comes to the same option. Every round goes
forward, so the rounds are enough. -/
theorem readMss_eq {opts : List UInt8} (ho : opts.length < 256)
    (hn : opts.length < n + min i opts.length) : readMss opts n i = .ok (mssOption opts n i) := by
  induction n generalizing i with
  | zero => omega
  | succ n ih =>
    by_cases hi : i < opts.length
    · by_cases h2 : opts[i] = 2
      · exact readMss_two hi ho h2
      by_cases h0 : opts[i] = 0
      · rw [readMss,mssOption,if_pos hi,if_neg (Nat.not_le.2 hi),idx_eq hi,ok_bind,getD_of_lt hi,
          if_pos h0,h0]
        rfl
      by_cases h1 : opts[i] = 1
      · rw [readMss,mssOption,if_pos hi,if_neg (Nat.not_le.2 hi),idx_eq hi,ok_bind,getD_of_lt hi,
          if_neg h0,if_pos h1,h1,ih (by omega)]
        rfl
      have hkind : 2 < opts[i].toNat := by
        have e0 : opts[i].toNat ≠ 0 := fun h => h0 (UInt8.toNat_inj.1 h)
        have e1 : opts[i].toNat ≠ 1 := fun h => h1 (UInt8.toNat_inj.1 h)
        have e2 : opts[i].toNat ≠ 2 := fun h => h2 (UInt8.toNat_inj.1 h)
        omega
      rw [mssOption_other hi hkind,readMss,if_pos hi,idx_eq hi,ok_bind,if_neg h0,if_neg h1,
        if_neg h2]
      by_cases hlast : opts.length ≤ i + 1
      · rw [if_pos hlast,if_pos (.inl hlast)]
        rfl
      · rw [if_neg hlast,idx_eq (by omega),ok_bind,getD_of_lt (by omega)]
        by_cases hl : opts[i + 1] < 2
        · rw [if_pos hl,if_pos (.inr hl)]
          rfl
        · have hpos : 2 ≤ opts[i + 1].toNat := UInt8.le_iff_toNat_le.1 (UInt8.not_lt.1 hl)
          have hlt := opts[i + 1].toNat_lt
          rw [if_neg hl,if_neg (not_or.2 ⟨hlast,hl⟩),fit_eq (by unfold usize; omega),ok_bind]
          exact ih (by omega)
    · rw [readMss,mssOption,if_neg hi,if_pos (Nat.not_lt.1 hi)]
      rfl

variable {seg : TcpSegment}

theorem readMssOption_eq (hs : seg.dataOffset < 256) :
    readMssOption buf seg = .ok (parseMssOption buf seg) := by
  unfold readMssOption parseMssOption
  simp only
  have hopts : (buf.take seg.dataOffset).drop 20 =
      (buf.take (min seg.dataOffset buf.length)).drop 20 := by
    rw [← take_eq_take_min]
  have hlen : ((buf.take seg.dataOffset).drop 20).length = min seg.dataOffset buf.length - 20 := by
    rw [length_drop,length_take]
  split
  · have hnil : (buf.take seg.dataOffset).drop 20 = [] := length_eq_zero_iff.1 (by omega)
    rw [hnil]
    rfl
  · rename_i hlong
    rw [slice_eq (by omega) (by omega),ok_bind,← hopts]
    exact readMss_eq (by omega) (by omega)

theorem TcpSegment.parse_offset (h : TcpSegment.parse buf = some seg) : seg.dataOffset < 256 := by
  simp only [TcpSegment.parse] at h
  split at h
  · cases h
  · have hb := (buf.getD 12 0).toNat_lt
    obtain rfl := some.inj h
    simp only
    omega

namespace Rx

/-- Addresses and the ARP table have their sizes. -/
structure Formed (s : Rx) : Prop where
  mac : s.mac.length = 6
  ip : s.ip.length = 4
  arp : s.arp.Formed

structure Kept (s t : Rx) : Prop where
  formed : t.Formed
  ip : t.ip = s.ip

variable {s : Rx} {frame : EthFrame} {ip : Ipv4Header}

theorem Formed.kept (h : s.Formed) : Kept s s := ⟨h,rfl⟩

theorem txSome_ends (h : Kept s t)
    (hb : built.1 ≤ built.2.length) : Ends (t.txSome built) (Kept s) := by
  have hsent : ∀ f, Kept s (t.tx f) := fun f => ⟨⟨h.formed.mac,h.formed.ip,h.formed.arp⟩,h.ip⟩
  unfold txSome
  split
  · exact .seq (slice_ends (Nat.zero_le _) hb) fun f _ => .pure (hsent f)
  · exact .pure h

theorem handleArp_ends (hs : s.Formed) : Ends (s.handleArp frame) (Kept s) := by
  refine .bind (arpParse_ends.imp fun r hr => ?_)
  cases r with
  | none => exact .pure hs.kept
  | some p =>
    obtain ⟨hlen,hmac,hip⟩ := hr p rfl
    refine .seq (ArpTable.insert_ends hs.arp) fun arp harp => ?_
    have hk : Kept s { s with arp := arp } := ⟨⟨hs.mac,hs.ip,harp⟩,rfl⟩
    simp only
    split
    · refine .seq (slice_ends (by omega) hlen) fun target _ => ?_
      split
      · refine .seq (arpBuildReply_ends hs.mac hs.ip hmac hip) fun reply hreply => ?_
        refine .seq (EthFrame.build_ends hmac hs.mac ?_) fun built hbuilt => ?_
        · unfold Sized
          omega
        · exact txSome_ends hk hbuilt
      · exact .pure hk
    · exact .pure hk

theorem handleIcmp_ends (hs : s.Formed) (hf : frame.src.length = 6) (hsrc : ip.src.length = 4)
    (hdst : ip.dst.length = 4) (h : ¬ TooLong ip s.ip icmp) :
    Ends (s.handleIcmp frame ip icmp) (Kept s) := by
  unfold handleIcmp
  split
  · exact .pure hs.kept
  · refine .bind (.idx (by omega) ?_)
    split
    · refine .seq (Ipv4Header.handleIcmp_ends hsrc hdst h) fun built hbuilt => ?_
      rw [length_replicate] at hbuilt
      split
      · refine .seq (slice_ends (Nat.zero_le _) hbuilt.1) fun packet hpacket => ?_
        refine .seq (EthFrame.build_ends hf hs.mac ?_) fun out hout => ?_
        · unfold Sized
          omega
        · exact txSome_ends hs.kept hout
      · exact .pure hs.kept
    · refine .seq (u16At_ends (by omega)) fun id _ => ?_
      refine .seq (u16At_ends (by omega)) fun seq _ => ?_
      exact .pure ⟨⟨hs.mac,hs.ip,hs.arp⟩,rfl⟩

theorem handleUdp_ends (hs : s.Formed) :
    Ends (s.handleUdp ip payload) (Kept s) := by
  refine .bind (UdpHeader.parse_ends.imp fun r hr => ?_)
  cases r with
  | none => exact .pure hs.kept
  | some hdr =>
    refine .seq (UdpHeader.payload_ends (hr hdr rfl)) fun data _ => ?_
    split
    · exact .pure hs.kept
    · exact .pure ⟨⟨hs.mac,hs.ip,hs.arp⟩,rfl⟩

theorem handleTcp_eq :
    s.handleTcp ip payload = .ok { s with stack := s.stack.handleTcp ip.src payload } := by
  rw [handleTcp,TcpSegment.read_eq,ok_bind,Stack.handleTcp]
  cases hseg : TcpSegment.parse payload with
  | none => rfl
  | some seg =>
    have hoff := TcpSegment.parse_offset hseg
    simp only
    cases hconn : s.stack.connOf seg ip.src with
    | some h =>
      have hmss : readSynMss seg payload =
          .ok (if seg.has flagSyn then parseMssOption payload seg else none) := by
        unfold readSynMss
        split
        · exact readMssOption_eq hoff
        · rfl
      simp only [readPacket,hmss,seg.readPayload_eq,ok_bind,packetOf]
      cases seg.has flagSyn with
      | true => rfl
      | false => rfl
    | none =>
      simp only
      split
      · rw [readMssOption_eq hoff,ok_bind]
        cases s.stack.listeners.findIdx? fun o => o.any fun l => l.port == seg.dstPort with
        | some i => rfl
        | none => rfl
      · rfl

/-- The frame is an echo request to this address of more than 1500 bytes. -/
def Oversize (ourIp : Ip) (raw : List UInt8) : Prop :=
  ∃ frame ip icmp, EthFrame.parse raw = .ok (some frame) ∧ frame.ethertype = ethertypeIp ∧
    Ipv4Header.parse frame.payload = .ok (some ip) ∧ ip.payload frame.payload = .ok icmp ∧
    ip.proto = protoIcmp ∧ TooLong ip ourIp icmp

variable {raw : List UInt8}

theorem dispatchFrame_ends (hs : s.Formed) (h : ¬ Oversize s.ip raw) :
    Ends (s.dispatchFrame raw) (Kept s) := by
  obtain ⟨r,hr,hframe⟩ := EthFrame.parse_ends raw
  rw [dispatchFrame,hr,ok_bind]
  cases r with
  | none => exact .pure hs.kept
  | some frame =>
    obtain ⟨hfsrc,-⟩ := hframe frame rfl
    simp only
    split
    · exact handleArp_ends hs
    · split
      · rename_i heth
        obtain ⟨r2,hr2,hip⟩ := Ipv4Header.parse_ends frame.payload
        rw [handleIp,hr2,ok_bind]
        cases r2 with
        | none => exact .pure hs.kept
        | some ip =>
          obtain ⟨hsrc,hdst,-⟩ := hip ip rfl
          obtain ⟨payload,hpayload,-⟩ := Ipv4Header.payload_ends ip frame.payload
          simp only
          rw [hpayload,ok_bind]
          split
          · rename_i hproto
            exact handleIcmp_ends hs hfsrc hsrc hdst fun hlong =>
              h ⟨frame,ip,payload,hr,heth,hr2,hpayload,hproto,hlong⟩
          · split
            · exact handleUdp_ends hs
            · split
              · exact ⟨_,handleTcp_eq,⟨hs.mac,hs.ip,hs.arp⟩,rfl⟩
              · exact .pure hs.kept
      · exact .pure hs.kept

theorem length_message
    (hframe : EthFrame.parse raw = .ok (some frame)) (hicmp : ip.payload frame.payload = .ok icmp) :
    icmp.length + 14 ≤ raw.length := by
  obtain ⟨_,e,hf⟩ := EthFrame.parse_ends raw
  obtain ⟨_,e2,hp⟩ := Ipv4Header.payload_ends ip frame.payload
  rw [hframe] at e
  rw [hicmp] at e2
  have h1 := (hf frame (Except.ok.inj e).symm).2
  rw [← Except.ok.inj e2] at hp
  omega

/-- A request not longer than an Ethernet frame may be is not oversize. -/
theorem not_oversize_of_length (h : raw.length ≤ 1514) : ¬ Oversize ourIp raw := by
  rintro ⟨frame,ip,icmp,hframe,-,-,hicmp,-,hlong⟩
  have hle := length_message hframe hicmp
  have hlen := hlong.long
  omega

theorem dispatchFrame_oversize (hr : Sized raw) (h : Oversize s.ip raw) :
    s.dispatchFrame raw = .error .slice := by
  obtain ⟨frame,ip,icmp,hframe,heth,hip,hicmp,hproto,hlong⟩ := h
  have hsized : Sized icmp := by
    have hle := length_message hframe hicmp
    unfold Sized at *
    omega
  have hlen := hlong.long
  have hkind : icmp[0] = 8 := by
    have := hlong.kind
    rw [getElem?_eq_getElem (by omega)] at this
    exact some.inj this
  rw [dispatchFrame,hframe,ok_bind]
  simp only [heth,show ¬ ethertypeIp = ethertypeArp by decide,↓reduceIte]
  rw [handleIp,hip,ok_bind]
  simp only
  rw [hicmp,ok_bind,if_pos hproto,handleIcmp,if_neg (by omega),idx_eq (by omega),ok_bind,
    if_pos hkind,Ipv4Header.handleIcmp_tooLong hsized hlong,error_bind]

/-- The frames are all handled, replies included, exactly if none of them is an echo
request to this address with more than 1500 bytes. -/
theorem frames_dispatched {s : Rx} (hs : s.Formed) (frames : List (List UInt8))
    (hf : ∀ raw ∈ frames, Sized raw) :
    Ends (s.dispatchFrames frames) (Kept s) ↔ ∀ raw ∈ frames, ¬ Oversize s.ip raw := by
  induction frames generalizing s with
  | nil => exact ⟨fun _ raw h => absurd h not_mem_nil,fun _ => .pure hs.kept⟩
  | cons raw frames ih =>
    have hrest : ∀ x ∈ frames, Sized x := fun x hx => hf x (mem_cons_of_mem _ hx)
    rw [dispatchFrames,foldlM_cons,forall_mem_cons]
    by_cases hover : Oversize s.ip raw
    · rw [dispatchFrame_oversize (hf raw mem_cons_self) hover,error_bind]
      refine ⟨fun h => ?_,fun h => absurd hover h.1⟩
      obtain ⟨_,he,-⟩ := h
      cases he
    · obtain ⟨t,ht,hk⟩ := dispatchFrame_ends hs hover
      have hiff := ih hk.formed hrest
      rw [hk.ip] at hiff
      rw [ht,ok_bind]
      constructor
      · rintro ⟨u,hu,hku⟩
        exact ⟨hover,hiff.1 ⟨u,hu,hku.formed,hku.ip.trans hk.ip.symm⟩⟩
      · rintro ⟨-,h⟩
        exact (hiff.2 h).imp fun u hu => ⟨hu.formed,hu.ip.trans hk.ip⟩

def sampleRx : Rx where
  mac := [2,0,0,0,0,1]
  ip := [10,0,0,2]
  arp := .new
  icmpWaiters := []
  udpBinds := []
  stack := ⟨[],[],fun _ => ⟨.closed,0,0,[],[],0,0,[],false,0,0,0,none⟩⟩
  sent := []

theorem sampleRx_formed : sampleRx.Formed := ⟨rfl,rfl,rfl,by decide⟩

/-- Someone asks for the address of this machine. -/
def arpFrame : List UInt8 :=
  replicate 6 0xFF ++ [2,0,0,0,0,9] ++ [8,6] ++ [0,1,8,0,6,4,0,1] ++ [2,0,0,0,0,9] ++
    [10,0,0,9] ++ replicate 6 0 ++ [10,0,0,2]

/-- An echo request with `n` bytes of data. -/
def echoFrame (n : Nat) : List UInt8 :=
  [2,0,0,0,0,1] ++ [2,0,0,0,0,9] ++ [8,0] ++ [0x45,0] ++ u16Bytes (28 + n) ++ [0,0,0,0,64,1,0,0] ++
    [10,0,0,9] ++ [10,0,0,2] ++ [8,0,0,0,0,7,0,1] ++ replicate n 0x61

/-- Both are answered. -/
theorem frames_dispatched_sample :
    Ends (sampleRx.dispatchFrames [arpFrame,echoFrame 40]) (Kept sampleRx) ∧
      (sampleRx.dispatchFrames [arpFrame,echoFrame 40]).map (fun t => t.sent.map List.length) =
        .ok [42,82] := by
  refine ⟨(frames_dispatched sampleRx_formed _ (by decide +kernel)).2 fun raw hraw => ?_,
    by decide +kernel⟩
  apply not_oversize_of_length
  obtain rfl | rfl : raw = arpFrame ∨ raw = echoFrame 40 := by simpa using hraw
  · decide +kernel
  · decide +kernel

/-- The data of the request is longer than the buffer for the reply. -/
theorem long_echo_faults :
    (sampleRx.dispatchFrame (echoFrame 1493)).map (fun t => t.sent) = .error .slice := by
  decide +kernel

end Rx

end Miku.Net
