import Mathlib.Algebra.Ring.Nat
import Miku.Net.Hpack

namespace Miku.Net.Hpack
open Lib List

variable {data block : List UInt8} {pos mask : Nat}

theorem huffmanTable_len (he : e ∈ huffmanTable) : 0 < e.len := by
  have hall : ∀ c ∈ huffmanCodes, 0 < c.2 := by decide +kernel
  obtain ⟨p,hp,rfl⟩ := List.mem_map.1 he
  exact hall p.1 (fst_mem_of_mem_zipIdx hp)

variable {s : Bits}

theorem Bits.next_some (h : s.next = some e) : (s.take e).nbits < s.nbits := by
  have hlen := huffmanTable_len (mem_of_find?_eq_some h)
  have hp := find?_some h
  simp only [Bool.and_eq_true,decide_eq_true_eq] at hp
  simp only [Bits.take]
  omega

theorem drainBits_ends (hn : s.nbits < n) : Ends (drainBits n s) fun t => t.nbits ≤ s.nbits := by
  induction n generalizing s with
  | zero => exact absurd hn (Nat.not_lt_zero _)
  | succ n ih =>
    rw [drainBits]
    cases h : s.next with
    | none => exact .pure .refl
    | some e =>
      have hlt := Bits.next_some h
      exact (ih (by omega)).imp fun t ht => by omega

variable {src : List UInt8}

/-- Eight bits come in with a byte. -/
theorem huffmanBytes_ends (h : s.nbits + 8 * src.length < 4294967296) :
    Ends (src.foldlM huffmanByte s) fun _ => True := by
  induction src generalizing s with
  | nil => exact .pure trivial
  | cons b src ih =>
    rw [length_cons] at h
    rw [foldlM_cons]
    refine .bind (.bind (.fit ?_))
    exact (drainBits_ends (Nat.lt_succ_self _)).imp fun t ht => ih (by simp only at ht; omega)

theorem huffmanDecode_ends (h : src.length < 536870912) : Ends (huffmanDecode src) fun _ => True :=
  .seq (huffmanBytes_ends (by simp only; omega)) fun _ _ => .pure trivial

/-- The continuation bytes of an integer: up to the first that says it is the last. -/
def continuation : List UInt8 → List UInt8
  | [] => []
  | b :: bs => if b < 128 then [b] else b :: continuation bs

/-- What continuation bytes add, from place `k` on. What a shift moves out of the word is lost. -/
def weigh (k : Nat) : List UInt8 → Nat
  | [] => 0
  | b :: bs => (b.toNat % 128) <<< (7 * k) % usize + weigh (k + 1) bs

/-- The integer with its prefix at `pos`, of any size, and the position behind it. -/
def intAt (data : List UInt8) (pos mask : Nat) : Nat × Nat :=
  match data[pos]? with
  | none => (0,pos)
  | some b =>
    if b.toNat % (mask + 1) < mask then (b.toNat % (mask + 1),pos + 1)
    else
      let c := continuation (data.drop (pos + 1))
      (mask + weigh 0 c,pos + 1 + c.length)

/-- It is a number of 64 bits with at most ten continuation bytes. -/
def IntFits (data : List UInt8) (pos mask : Nat) : Prop :=
  (intAt data pos mask).1 < usize ∧ (intAt data pos mask).2 ≤ pos + 11

theorem length_continuation : (continuation data).length ≤ data.length := by
  induction data with
  | nil => exact .refl
  | cons b data ih =>
    rw [continuation]
    split
    · exact Nat.succ_le_succ (Nat.zero_le _)
    · exact Nat.succ_le_succ ih

/-- A byte fits if its shift is below 64, and the sum so far is a number of 64 bits. -/
theorem decodeIntLoop_exact (hd : Sized data) (hk : k ≤ 10) (hv : value < usize)
    (hpos : pos ≤ data.length) (hn : data.length < n + pos)
    (hc : continuation (data.drop pos) = c) : Exact (decodeIntLoop data n pos value (7 * k))
      (k + c.length ≤ 10 ∧ value + weigh k c < usize)
      (· = (value + weigh k c,pos + c.length)) := by
  have hd' : data.length < 9223372036854775808 := hd
  induction n generalizing pos k value c with
  | zero => omega
  | succ n ih =>
    rw [decodeIntLoop]
    split
    · rename_i hlt
      rw [drop_eq_getElem_cons hlt,continuation] at hc
      rw [idx_eq hlt,ok_bind,fit_eq,ok_bind]
      by_cases h64 : 7 * k < 64
      · rw [fit_eq h64,ok_bind]
        by_cases hval : value + (data[pos].toNat % 128) <<< (7 * k) % usize < usize
        · rw [fit_eq hval,ok_bind,fit_eq,ok_bind]
          split at hc <;> subst hc
          · rename_i hb
            rw [if_pos hb]
            exact .of_ends (.pure rfl) ⟨by simp only [length_singleton]; omega,hval⟩
          · rename_i hb
            rw [if_neg hb,show 7 * k + 7 = 7 * (k + 1) by omega]
            have hlt' : pos + 1 ≤ data.length := hlt
            refine (ih (k := k + 1) (by omega) hval hlt' (by omega) rfl).congr ?_ fun r hr => ?_
            · simp only [weigh,length_cons]
              omega
            · simp only [hr,weigh,length_cons,Prod.mk.injEq]
              omega
        · rw [fit_error (Nat.not_lt.1 hval)]
          refine .of_error fun h => hval ?_
          split at hc <;> subst hc <;> simp only [weigh] at h <;> omega
      · rw [fit_error (Nat.not_lt.1 h64)]
        refine .of_error fun h => h64 ?_
        split at hc <;> subst hc <;> simp only [length_cons] at h <;> omega
    · rw [drop_of_length_le (by omega)] at hc
      subst hc
      exact .of_ends (.pure rfl) ⟨hk,hv⟩

theorem hpackDecodeInt_exact (hd : Sized data) (hmask : mask ≤ 127) (hpos : pos < data.length) :
    Exact (hpackDecodeInt data pos mask) (IntFits data pos mask) (· = intAt data pos mask) := by
  have hd' : data.length < 9223372036854775808 := hd
  rw [hpackDecodeInt,if_neg (Nat.not_le.2 hpos),idx_eq hpos,ok_bind,fit_eq,ok_bind]
  simp only [IntFits,intAt,getElem?_eq_getElem hpos]
  split
  · exact .of_ends (.pure rfl) (by simp only [usize]; omega)
  · have hmod : data[pos].toNat % (mask + 1) < mask + 1 := Nat.mod_lt _ (Nat.succ_pos _)
    rw [show data[pos].toNat % (mask + 1) = mask by omega]
    have hpos' : pos + 1 ≤ data.length := hpos
    refine (decodeIntLoop_exact (k := 0) hd (by decide) (by unfold usize; omega) hpos'
      (by omega) rfl).congr ?_ fun r hr => hr
    omega

theorem intAt_pos (hpos : pos < data.length) :
    pos < (intAt data pos mask).2 ∧ (intAt data pos mask).2 ≤ data.length := by
  have hlen := @length_continuation (data.drop (pos + 1))
  rw [length_drop] at hlen
  simp only [intAt,getElem?_eq_getElem hpos]
  split <;> simp only <;> omega

theorem stringBytes_ends {s : List UInt8} (h : s.length < 536870912) :
    Ends (stringBytes huffman s) fun _ => True := by
  cases huffman with
  | true => exact huffmanDecode_ends h
  | false => exact .pure trivial

/-- The position behind the string at `pos`; behind its length, if that is too long. -/
def stringEnd (data : List UInt8) (pos : Nat) : Nat :=
  if data.length ≤ pos then pos
  else
    let (len,p) := intAt data pos 127
    if data.length < p + len then p else p + len

/-- Its length and its end are numbers of 64 bits. -/
def StringFits (data : List UInt8) (pos : Nat) : Prop :=
  pos < data.length → IntFits data pos 127 ∧ (intAt data pos 127).2 + (intAt data pos 127).1 < usize

theorem hpackDecodeString_exact (hd : data.length < 536870912) :
    Exact (hpackDecodeString data pos) (StringFits data pos) (·.2 = stringEnd data pos) := by
  unfold hpackDecodeString StringFits stringEnd
  split
  · exact .of_ends (.pure rfl) fun h => by omega
  · rename_i hlt
    rw [idx_eq (Nat.not_le.1 hlt),ok_bind]
    refine ((hpackDecodeInt_exact (by unfold Sized; omega) .refl (Nat.not_le.1 hlt)).seq
      fun _ r hr => ?_).congr ⟨fun h _ => h,fun h => h (Nat.not_le.1 hlt)⟩ fun _ h => h
    subst hr
    by_cases hfit : (intAt data pos 127).2 + (intAt data pos 127).1 < usize
    · simp only [fit_eq hfit,ok_bind]
      split
      · exact .of_ends (.pure rfl) hfit
      · rename_i hafter
        rw [slice_eq (Nat.le_add_right _ _) (Nat.not_lt.1 hafter),ok_bind]
        refine .of_ends (.seq (stringBytes_ends ?_) fun _ _ => .pure rfl) hfit
        simp only [length_drop,length_take]
        omega
    · simp only [fit_error (Nat.not_lt.1 hfit)]
      exact .of_error hfit

theorem stringEnd_pos (hpos : pos ≤ data.length) :
    pos ≤ stringEnd data pos ∧ stringEnd data pos ≤ data.length := by
  unfold stringEnd
  split
  · exact ⟨.refl,hpos⟩
  · rename_i hlt
    have := @intAt_pos data pos 127 (Nat.not_le.1 hlt)
    simp only
    split <;> omega

variable {i : Nat}

/-- The position behind the name with index `i`. -/
def nameEnd (block : List UInt8) (i pos : Nat) : Nat :=
  if isStatic i then pos else stringEnd block pos

/-- The prefix of the representation that starts with `b`, and whether it is a literal. -/
def prefixOf (b : UInt8) : Nat × Bool :=
  if b &&& 0x80 ≠ 0 then (127,false)
  else if b &&& 0x40 ≠ 0 then (63,true)
  else if b &&& 0x20 ≠ 0 then (31,false)
  else (15,true)

/-- The strings of a literal behind its index. -/
def LiteralFits (block : List UInt8) (r : Nat × Nat) : Prop :=
  (isStatic r.1 = false → StringFits block r.2) ∧ StringFits block (nameEnd block r.1 r.2)

/-- The numbers of the representation at `pos` fit. -/
def HeaderFits (block : List UInt8) (pos : Nat) : Prop :=
  ∀ b, block[pos]? = some b → IntFits block pos (prefixOf b).1 ∧
    ((prefixOf b).2 = true → LiteralFits block (intAt block pos (prefixOf b).1))

def headerEnd (block : List UInt8) (pos : Nat) : Nat :=
  match block[pos]? with
  | none => pos
  | some b =>
    let (i,p) := intAt block pos (prefixOf b).1
    if (prefixOf b).2 then stringEnd block (nameEnd block i p) else p

theorem headerEnd_pos (hpos : pos < block.length) :
    pos < headerEnd block pos ∧ headerEnd block pos ≤ block.length := by
  simp only [headerEnd,getElem?_eq_getElem hpos,nameEnd]
  have hint := @intAt_pos block pos (prefixOf block[pos]).1 hpos
  have hstr := stringEnd_pos hint.2
  split
  · split
    · omega
    · have := stringEnd_pos hstr.2
      omega
  · exact hint

section

variable (hd : block.length < 536870912)
include hd

theorem nameAt_exact : Exact (nameAt block i pos) (isStatic i = false → StringFits block pos)
    (·.2 = nameEnd block i pos) := by
  unfold nameAt nameEnd
  cases h : isStatic i with
  | true =>
    simp only [isStatic,Bool.and_eq_true,decide_eq_true_eq] at h
    rw [if_pos rfl,idx_eq (by omega)]
    exact .of_ends (.pure rfl) nofun
  | false => exact (hpackDecodeString_exact hd).congr ⟨fun h _ => h,fun h => h rfl⟩ fun _ h => h

theorem literal_exact (hmask : mask ≤ 127) (hpos : pos < block.length) :
    Exact (literal block pos mask)
      (IntFits block pos mask ∧ LiteralFits block (intAt block pos mask))
      (·.2 = stringEnd block (nameEnd block (intAt block pos mask).1 (intAt block pos mask).2)) := by
  refine (hpackDecodeInt_exact (by unfold Sized; omega) hmask hpos).seq fun _ r hr => ?_
  subst hr
  refine (nameAt_exact hd).seq fun _ r hr => ?_
  obtain ⟨name,p⟩ := r
  subst hr
  refine ((hpackDecodeString_exact hd).seq (q := True) fun _ r hr => ?_).congr (and_iff_left trivial)
    fun _ h => h
  exact .of_ends (.pure hr) trivial

theorem header_exact (hpos : pos < block.length) :
    Exact (header block pos) (HeaderFits block pos) (·.2 = headerEnd block pos) := by
  have hsized : Sized block := by unfold Sized; omega
  -- an integer alone: what is done with it does not fail
  have hint : ∀ mask ≤ 127, ∀ f : Nat × Nat → Checked (Option (List UInt8 × List UInt8) × Nat),
      (∀ r, Ends (f r) (·.2 = r.2)) → Exact (hpackDecodeInt block pos mask >>= f)
        (IntFits block pos mask) (·.2 = (intAt block pos mask).2) := by
    intro mask hmask f hf
    refine ((hpackDecodeInt_exact hsized hmask hpos).seq (q := True) fun _ r hr => ?_).congr
      (and_iff_left trivial) fun _ h => h
    exact .of_ends (hr ▸ hf r) trivial
  unfold header HeaderFits headerEnd
  rw [idx_eq hpos,ok_bind]
  simp only [getElem?_eq_getElem hpos,Option.some.injEq,forall_eq',prefixOf]
  split
  · refine (hint 127 (by decide) _ fun r => ?_).congr ⟨fun h => ⟨h,nofun⟩,And.left⟩ fun _ h => h
    split
    · rename_i hst
      simp only [isStatic,Bool.and_eq_true,decide_eq_true_eq] at hst
      rw [idx_eq (by omega)]
      exact .pure rfl
    · exact .pure rfl
  · have hlit : ∀ mask ≤ 127, Exact (literal block pos mask)
        (IntFits block pos mask ∧ (true = true → LiteralFits block (intAt block pos mask))) _ :=
      fun mask hmask => (literal_exact hd hmask hpos).congr
        ⟨fun h => ⟨h.1,fun _ => h.2⟩,fun h => ⟨h.1,h.2 rfl⟩⟩ fun _ h => h
    split
    · exact hlit 63 (by decide)
    · split
      · exact (hint 31 (by decide) _ fun r => .pure rfl).congr ⟨fun h => ⟨h,nofun⟩,And.left⟩
          fun _ h => h
      · exact hlit 15 (by decide)

/-- From a representation at `pos` the loop comes to one at `p`. -/
inductive Reaches (block : List UInt8) : Nat → Nat → Prop
  | here (pos : Nat) : Reaches block pos pos
  | next {pos p : Nat} (hpos : pos < block.length) (h : Reaches block (headerEnd block pos) p) :
      Reaches block pos p

theorem headersLoop_exact (hpos : pos ≤ block.length) (hn : block.length < n + pos) :
    Exact (headersLoop block n pos f) (∀ p, Reaches block pos p → HeaderFits block p)
      fun _ => True := by
  induction n generalizing pos f with
  | zero => omega
  | succ n ih =>
    rw [headersLoop]
    split
    · rename_i hlt
      have hend := headerEnd_pos hlt
      refine ((header_exact hd hlt).seq
        (q := ∀ p, Reaches block (headerEnd block pos) p → HeaderFits block p)
        fun _ r hr => ?_).congr ?_ fun _ h => h
      · obtain ⟨h,p⟩ := r
        subst hr
        exact ih hend.2 (by omega)
      · constructor
        · rintro ⟨hhere,hnext⟩ p (_ | ⟨-,h⟩)
          · exact hhere
          · exact hnext p h
        · exact fun h => ⟨h pos (.here pos),fun p hp => h p (.next hlt hp)⟩
    · rename_i hge
      refine .of_ends (.pure trivial) ?_
      rintro p (_ | ⟨hlt,-⟩)
      · intro b hb
        rw [getElem?_eq_none (Nat.not_lt.1 hge)] at hb
        cases hb
      · exact absurd hlt hge

/-- A header block of less than half a gigabyte is decoded exactly if the integers that the
decoder comes to, and the ends of its strings, are numbers of 64 bits. -/
theorem hpack_total : Ends (decodeHeadersBlock block) (fun _ => True) ↔
    ∀ pos, Reaches block 0 pos → HeaderFits block pos :=
  (headersLoop_exact hd (Nat.zero_le _) (by omega)).iff

end

/-- `:status: 200` by index and a location with a name from the table and a Huffman code. -/
def sampleBlock : List UInt8 := [0x88,0x0F,0x1F,0x82,0x25,0x3F]

theorem hpack_total_sample : (∀ pos, Reaches sampleBlock 0 pos → HeaderFits sampleBlock pos) ∧
    decodeHeadersBlock sampleBlock = .ok (200,some [99,109]) := by
  have hdec : decodeHeadersBlock sampleBlock = .ok (200,some [99,109]) := by decide +kernel
  exact ⟨(hpack_total (by decide)).1 ⟨_,hdec,trivial⟩,hdec⟩

/-- A name of `2^64 - 1` bytes: its end is no number of 64 bits. -/
theorem length_overflows :
    decodeHeadersBlock ([0x00,0x7F,0x80] ++ List.replicate 8 0xFF ++ [0x01]) =
      .error .overflow := by
  decide +kernel

end Miku.Net.Hpack
