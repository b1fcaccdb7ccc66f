import Mathlib.Algebra.Ring.Nat
import Miku.Libmiku.Lz

/-! What the compressor has written is always decoded to the part of its input that it has
passed, so the whole is decoded to the whole. -/

namespace Miku.Libmiku.Lz
open Lib
open List hiding count

variable {data out bs d e : List UInt8} {max pos off m : Nat}

theorem matchLen_spec (data : List UInt8) (s pos ml n : Nat) : matchLen data s pos ml n ≤ ml + n ∧
    ∀ i, ml ≤ i → i < matchLen data s pos ml n → data[s + i]? = data[pos + i]? := by
  induction n generalizing ml with
  | zero => exact ⟨.refl,fun i h1 h2 => absurd h2 (Nat.not_lt.mpr h1)⟩
  | succ n ih =>
    unfold matchLen
    split
    · rename_i heq
      obtain ⟨hle,hsame⟩ := ih (ml + 1)
      refine ⟨by omega,fun i h1 h2 => ?_⟩
      by_cases hi : i = ml
      · rw [hi,heq]
      · exact hsame i (by omega) h2
    · exact ⟨by omega,fun i h1 h2 => by omega⟩

/-- The `m` bytes at `pos` are those `off` bytes before, and a token can say so. -/
structure Match (data : List UInt8) (pos off m : Nat) : Prop where
  near : 0 < off ∧ off ≤ pos ∧ off < 2048
  short : 0 < m ∧ m < 128
  fits : pos + m ≤ data.length
  same : ∀ i < m, data[pos - off + i]? = data[pos + i]?

theorem findLoop_spec (hs : s + n ≤ pos) (hw : pos ≤ s + windowSize)
    (hm : maxLen ≤ maxMatch) (hlen : pos + maxLen ≤ data.length)
    (hb : minMatch ≤ best.2 → Match data pos best.1 best.2)
    (h : minMatch ≤ (findLoop data pos maxLen s best n).2) :
    Match data pos (findLoop data pos maxLen s best n).1 (findLoop data pos maxLen s best n).2 := by
  induction n generalizing s best with
  | zero => exact hb h
  | succ n ih =>
    obtain ⟨hle,hsame⟩ := matchLen_spec data s pos 0 maxLen
    unfold findLoop at h ⊢
    unfold windowSize at hw ih
    unfold maxMatch at hm
    dsimp only at h ⊢
    by_cases hbest : matchLen data s pos 0 maxLen ≥ minMatch ∧ matchLen data s pos 0 maxLen > best.2
    · have hmatch : Match data pos (pos - s) (matchLen data s pos 0 maxLen) := by
        refine ⟨by omega,by omega,by omega,fun i hi => ?_⟩
        rw [show pos - (pos - s) + i = s + i by omega]
        exact hsame i (Nat.zero_le i) hi
      rw [if_pos hbest] at h ⊢
      split
      · exact hmatch
      · rename_i hfull
        rw [if_neg hfull] at h
        exact ih (by omega) (by omega) (fun _ => hmatch) h
    · rw [if_neg hbest] at h ⊢
      exact ih (by omega) (by omega) hb h

theorem findMatch_spec (hpos : pos ≤ data.length) (h : minMatch ≤ (findMatch data pos).2) :
    Match data pos (findMatch data pos).1 (findMatch data pos).2 := by
  unfold findMatch at h ⊢
  generalize hs : (if pos > windowSize then pos - windowSize else 0) = start at h ⊢
  generalize hl : (if data.length - pos > maxMatch then maxMatch else data.length - pos) = maxLen at h ⊢
  have hstart : start ≤ pos ∧ pos ≤ start + windowSize := by
    split at hs <;> omega
  have hlen : maxLen ≤ maxMatch ∧ pos + maxLen ≤ data.length := by
    split at hl <;> omega
  by_cases hshort : maxLen < minMatch
  · rw [if_pos hshort] at h
    cases h
  · rw [if_neg hshort] at h ⊢
    exact findLoop_spec (by omega) hstart.2 hlen.1 hlen.2 (fun h => nomatch h) h

theorem match_tag : ∀ m < 128, (0x80 ||| UInt8.ofNat m) &&& 0x80 ≠ 0 ∧
    ((0x80 ||| UInt8.ofNat m) &&& 0x7F).toNat = m := by decide +kernel

theorem literal_tag : ∀ m < 128, ¬ UInt8.ofNat m &&& 0x80 ≠ 0 ∧ (UInt8.ofNat m).toNat = m := by
  decide +kernel

theorem offset_bytes (h : off < 2048) :
    (UInt8.ofNat (off >>> 8 &&& 7)).toNat <<< 8 ||| (UInt8.ofNat (off &&& 0xFF)).toNat = off := by
  have hhi : off >>> 8 &&& 7 = off / 256 := by
    rw [Nat.shiftRight_eq_div_pow,Nat.and_two_pow_sub_one_eq_mod _ 3]
    omega
  have hlo : off &&& 0xFF = off % 256 := Nat.and_two_pow_sub_one_eq_mod _ 8
  rw [hhi,hlo,UInt8.toNat_ofNat',UInt8.toNat_ofNat',← Nat.shiftLeft_add_eq_or_of_lt (by omega),
    Nat.shiftLeft_eq]
  omega

theorem append_eq (h : d.length + e.length ≤ max) : append max d e = .ok (d ++ e) := if_pos h

/-- The bytes copied may be among those that the copy writes. -/
theorem copyMatch_eq (hs : s < d.length) (hc : ∀ i < e.length, (d ++ e)[s + i]? = e[i]?)
    (hmax : d.length + e.length ≤ max) : copyMatch max s d e.length = .ok (d ++ e) := by
  induction e generalizing d s with
  | nil => simp [copyMatch]
  | cons b e ih =>
    have hb : d[s]? = some b := by
      simpa [getElem?_append_left hs] using hc 0 (by simp)
    have hidx : idx d s = .ok b := by simp [idx,hb]
    simp only [length_cons] at hc hmax ⊢
    rw [copyMatch,hidx,ok_bind,append_eq (by simp; omega),ok_bind,ih]
    · simp
    · simp
      omega
    · intro i hi
      have := hc (i + 1) (by omega)
      simpa [add_assoc,add_comm 1 i] using this
    · simp
      omega

/-- After `bs` the decoder has written `d`, whatever follows. -/
def Decodes (max : Nat) (bs d : List UInt8) : Prop :=
  ∃ n ≤ bs.length, ∀ rest fuel, decompressLoop (bs ++ rest) max 0 [] (n + fuel) =
    decompressLoop (bs ++ rest) max bs.length d fuel

theorem Decodes.token {t : List UInt8} (h : Decodes max bs d) (ht : 0 < t.length)
    (hround : ∀ rest fuel, decompressLoop (bs ++ (t ++ rest)) max bs.length d (fuel + 1) =
      decompressLoop (bs ++ (t ++ rest)) max (bs.length + t.length) d' fuel) :
    Decodes max (bs ++ t) d' := by
  obtain ⟨n,hn,hrun⟩ := h
  refine ⟨n + 1,by simp; omega,fun rest fuel => ?_⟩
  rw [append_assoc,length_append,← hround,← hrun,add_assoc,add_comm 1]

theorem idx_at (bs l : List UInt8) (i : Nat) : idx (bs ++ l) (bs.length + i) = idx l i := by
  simp [idx,getElem?_append_right]

theorem Decodes.literals (h : Decodes max bs d) (run : List UInt8) (h0 : 0 < run.length)
    (h1 : run.length < 128) (hmax : d.length + run.length ≤ max) (hsize : d.length + run.length < usize) :
    Decodes max (bs ++ UInt8.ofNat run.length :: run) (d ++ run) := by
  refine h.token (by simp) fun rest fuel => ?_
  obtain ⟨htag,hcount⟩ := literal_tag run.length h1
  have hidx := idx_at bs (UInt8.ofNat run.length :: run ++ rest) 0
  have hslice : slice (bs ++ (UInt8.ofNat run.length :: run ++ rest)) (bs.length + 1)
      (bs.length + 1 + run.length) = .ok run := by
    rw [slice_eq (by omega) (by simp; omega)]
    simp [take_append,drop_append,add_assoc,add_comm 1]
  rw [decompressLoop,if_pos (by simp),← add_zero bs.length,hidx]
  simp only [idx,cons_append,getElem?_cons_zero,ok_bind]
  rw [if_neg htag,hcount,if_neg (by omega),fit_eq hsize,ok_bind,if_neg (by simp; omega)]
  simp only [cons_append,add_zero] at hslice ⊢
  rw [hslice,ok_bind,append_eq hmax,ok_bind,length_cons,add_assoc,add_comm 1]

theorem Decodes.copy (h : Decodes max bs (data.take pos)) (hm : Match data pos off m)
    (hmax : pos + m ≤ max) (hsize : pos + m < usize) :
    Decodes max (bs ++ encodeMatch off m) (data.take (pos + m)) := by
  obtain ⟨⟨hoff,hle,hfar⟩,⟨-,hshort⟩,hfits,hsame⟩ := hm
  refine h.token (by simp [encodeMatch]) fun rest fuel => ?_
  obtain ⟨htag,hlen⟩ := match_tag m hshort
  have hpos : (data.take pos).length = pos := by simp; omega
  have hpart : ((data.drop pos).take m).length = m := by simp; omega
  have hcopy : copyMatch max (pos - off) (data.take pos) m = .ok (data.take (pos + m)) := by
    have hroom : (data.take pos).length + ((data.drop pos).take m).length ≤ max := by omega
    have hback : pos - off < (data.take pos).length := by omega
    have hcopied : ∀ i < ((data.drop pos).take m).length,
        (data.take pos ++ (data.drop pos).take m)[pos - off + i]? = ((data.drop pos).take m)[i]? := by
      intro i hi
      rw [← take_add,getElem?_take_of_lt (by omega),hsame i (by omega),
        getElem?_take_of_lt (by omega),getElem?_drop]
    have heq := copyMatch_eq hback hcopied hroom
    rw [hpart] at heq
    rw [heq,take_add]
  have hidx := idx_at bs (encodeMatch off m ++ rest)
  have h0 : idx (bs ++ (encodeMatch off m ++ rest)) bs.length = .ok (0x80 ||| UInt8.ofNat m) := hidx 0
  have h1 : idx (bs ++ (encodeMatch off m ++ rest)) (bs.length + 1) = .ok (UInt8.ofNat (off >>> 8 &&& 7)) :=
    hidx 1
  have h2 : idx (bs ++ (encodeMatch off m ++ rest)) (bs.length + 1 + 1) = .ok (UInt8.ofNat (off &&& 0xFF)) :=
    hidx 2
  have hroom : bs.length + 3 ≤ (bs ++ (encodeMatch off m ++ rest)).length := by simp [encodeMatch]
  rw [decompressLoop,if_pos (by omega),h0,ok_bind]
  rw [if_pos htag,if_neg (by omega),h1,ok_bind,h2,ok_bind,offset_bytes hfar,hlen,hpos,fit_eq hsize,
    ok_bind,if_neg (by omega),hcopy,ok_bind]
  rfl

variable {r : List UInt8}

theorem flush_decodes (h : Decodes max out (data.take s))
    (hs : 0 < count → start = s) (hc : count ≤ maxLitRun) (hfits : s + count ≤ data.length)
    (hmax : data.length ≤ max) (hsize : data.length < usize)
    (hr : flushLiterals data lim start count out = some r) : Decodes max r (data.take (s + count)) := by
  unfold flushLiterals at hr
  split at hr
  · rename_i hpos
    obtain rfl := hs hpos
    obtain ⟨k,rfl⟩ := Nat.exists_eq_add_of_lt hpos
    simp only [zero_add] at *
    have hdone : ∀ start out n, flushLoop data lim start 0 out n = some out := by
      intro start out n
      cases n <;> simp [flushLoop]
    have hchunk : (if k + 1 > maxLitRun then maxLitRun else k + 1) = k + 1 := if_neg (by omega)
    rw [flushLoop,if_neg (by omega),hchunk] at hr
    dsimp only at hr
    split at hr
    · cases hr
    · rw [Nat.sub_self,hdone] at hr
      cases hr
      have hlen : ((data.drop start).take (k + 1)).length = k + 1 := by simp; omega
      have hd : (data.take start).length = start := by simp; omega
      have hrun := h.literals ((data.drop start).take (k + 1)) (by omega)
        (by unfold maxLitRun at hc; omega) (by omega) (by omega)
      rwa [hlen,← take_add] at hrun
  · rename_i hz
    cases hr
    obtain rfl : count = 0 := by omega
    exact h

/-- The input up to the literals not written yet is encoded. -/
structure Written (max : Nat) (data : List UInt8) (pos litStart litCount : Nat) (out : List UInt8) : Prop where
  le : pos ≤ data.length
  few : litCount < maxLitRun
  start : litCount ≤ pos ∧ (0 < litCount → litStart = pos - litCount)
  done : Decodes max out (data.take (pos - litCount))

theorem Written.flush (h : Written max data pos litStart litCount out)
    (hmax : data.length ≤ max) (hsize : data.length < usize)
    (hr : flushLiterals data lim litStart litCount out = some r) : Decodes max r (data.take pos) := by
  obtain ⟨hle,hfew,⟨hlit,hstart⟩,hdone⟩ := h
  have hd := flush_decodes hdone hstart (Nat.le_of_lt hfew) (by omega) hmax hsize hr
  rwa [Nat.sub_add_cancel hlit] at hd

theorem compressLoop_decodes (hmax : data.length ≤ max)
    (hsize : data.length < usize) (h : Written max data pos litStart litCount out)
    (hn : data.length ≤ pos + n) (hr : compressLoop data lim pos litStart litCount out n = some r) :
    Decodes max r data := by
  have hwhole : ∀ {pos litStart litCount out}, Written max data pos litStart litCount out →
      data.length ≤ pos → flushLiterals data lim litStart litCount out = some r → Decodes max r data := by
    intro pos litStart litCount out h hp hr
    have := h.flush hmax hsize hr
    rwa [take_of_length_le hp] at this
  induction n generalizing pos litStart litCount out with
  | zero => exact hwhole h hn hr
  | succ n ih =>
    unfold compressLoop at hr
    by_cases hp : pos < data.length
    · rw [if_pos hp] at hr
      dsimp only at hr
      split at hr
      · rename_i hlong
        have hmatch := findMatch_spec h.le hlong
        split at hr
        · cases hr
        rename_i out' hflush
        split at hr
        · cases hr
        have hfits := hmatch.fits
        have hpos := hmatch.short.1
        refine ih ⟨hfits,by decide,⟨Nat.zero_le _,nofun⟩,?_⟩ (by omega) hr
        exact (h.flush hmax hsize hflush).copy hmatch (by omega) (by omega)
      · have hfew := h.few
        have hstart : (if litCount = 0 then pos else litStart) = pos - litCount := by
          split
          · omega
          · exact h.start.2 (by omega)
        have hlit := h.start.1
        rw [hstart] at hr
        split at hr
        · split at hr
          · cases hr
          rename_i out' hflush
          have hd := flush_decodes h.done (fun _ => rfl) hfew (by omega) hmax hsize hflush
          rw [show pos - litCount + (litCount + 1) = pos + 1 by omega] at hd
          exact ih ⟨hp,by decide,⟨Nat.zero_le _,nofun⟩,hd⟩ (by omega) hr
        · rename_i hroom
          have hdone := h.done
          rw [← Nat.add_sub_add_right pos 1 litCount] at hdone
          exact ih ⟨hp,by omega,⟨by omega,fun _ => by omega⟩,hdone⟩ (by omega) hr
    · rw [if_neg hp] at hr
      exact hwhole h (by omega) hr

theorem decompress_of_decodes (h : Decodes max out data) (hd : data ≠ [])
    (hmax : data.length ≤ max) : decompress out max = .ok (some data) := by
  obtain ⟨n,hn,hrun⟩ := h
  have hpos := length_pos_iff.mpr hd
  have hend : decompressLoop out max 0 [] (out.length + 1) = .ok (some data) := by
    have hr := hrun [] (out.length - n + 1)
    rw [append_nil,show n + (out.length - n + 1) = out.length + 1 by omega] at hr
    rw [hr,decompressLoop,if_neg (Nat.lt_irrefl _)]
    rfl
  unfold decompress
  rw [if_neg,hend]
  rintro (rfl | hz)
  · exact hd (Option.some.inj (Except.ok.inj hend)).symm
  · omega

theorem append_ends (h : d.length + e.length ≤ max) :
    Ends (append max d e) fun o => o.length = d.length + e.length :=
  ⟨_,append_eq h,length_append⟩

theorem copyMatch_ends (hs : s < out.length) (h : out.length + n ≤ max) :
    Ends (copyMatch max s out n) fun o => o.length = out.length + n := by
  induction n generalizing out s with
  | zero => exact ⟨out,rfl,rfl⟩
  | succ n ih =>
    refine .bind (.idx hs (.bind ((append_ends (by simp; omega)).imp fun o ho => ?_)))
    simp only [length_singleton] at ho
    exact (ih (by omega) (by omega)).imp fun o' ho' => by omega

theorem decompressLoop_ends (hmax : max < 2 ^ 62) (hout : out.length ≤ max)
    (hrp : rp ≤ data.length) (hf : data.length < rp + fuel) :
    Ends (decompressLoop data max rp out fuel) fun r => ∀ o, r = some o → o.length ≤ max := by
  induction fuel generalizing rp out with
  | zero => omega
  | succ fuel ih =>
    have hdone : ∀ o, some out = some o → o.length ≤ max := by
      rintro _ ⟨⟩
      exact hout
    have hfit : ∀ b : UInt8, out.length + b.toNat < usize := by
      intro b
      have := b.toNat_lt
      unfold usize
      omega
    unfold decompressLoop
    split
    · refine .bind (.idx (by omega) ?_)
      dsimp only
      split
      · split
        · exact .pure nofun
        · refine .bind (.idx (by omega) (.bind (.idx (by omega) (.bind (.fit ?_ (hfit _))))))
          split
          · exact .pure nofun
          · refine .seq (copyMatch_ends (by omega) (by omega)) fun o ho => ?_
            exact ih (by omega) (by omega) (by omega)
      · split
        · exact .pure hdone
        · refine .bind (.fit ?_ (hfit _))
          split
          · exact .pure nofun
          · refine .bind (.slice (by omega) (by omega) (.bind ((append_ends ?_).imp fun o ho => ?_)))
            · simp
              omega
            · simp at ho
              exact ih (by omega) (by omega) (by omega)
    · exact .pure hdone

/-- Whatever the compressor returns is decompressed to what it was given, in any sufficient
room; and decompressing anything ends, stays in its buffers and writes no more than there
is room. -/
theorem lz_round_trip_safe :
    (∀ data out max, data ≠ [] → data.length < 2 ^ 62 → compress data = some out → data.length ≤ max →
      decompress out max = .ok (some data)) ∧
    ∀ data max, max < 2 ^ 62 →
      Ends (decompress data max) fun r => ∀ out, r = some out → out.length ≤ max := by
  constructor
  · intro data out max hd hsize hc hmax
    rw [compress,if_neg hd] at hc
    have hstart : Written max data 0 0 0 [] :=
      ⟨Nat.zero_le _,by decide,⟨.refl,nofun⟩,0,.refl,fun rest fuel => by simp⟩
    have hdec := compressLoop_decodes hmax (by unfold usize; omega) hstart (by omega) hc
    exact decompress_of_decodes hdec hd hmax
  · intro data max hmax
    unfold decompress
    split
    · exact .pure nofun
    · exact decompressLoop_ends hmax (Nat.zero_le _) (Nat.zero_le _) (by omega)

/-- Five equal bytes: one literal, and a match that copies its own bytes. -/
theorem lz_round_trip_safe_run : compress [7,7,7,7,7] = some [1,7,0x84,0,1] ∧
    decompress [1,7,0x84,0,1] 5 = .ok (some [7,7,7,7,7]) := by
  have hc : compress [7,7,7,7,7] = some [1,7,0x84,0,1] := by decide +kernel
  exact ⟨hc,lz_round_trip_safe.1 _ _ 5 (by decide) (by decide) hc .refl⟩

end Miku.Libmiku.Lz
