import Miku.Net.Http

namespace Miku.Net.Http
open Lib List Option

variable {data s : List UInt8} {stop : Nat → Bool}

theorem trimCrlfEnd_ends (he : e ≤ s.length) :
    Ends (trimCrlfEnd s e) fun e' => e' ≤ e ∧ ∀ k, e' ≤ k → (hk : k < e) → s[k] = 13 ∨ s[k] = 10 := by
  induction e with
  | zero => exact .pure ⟨.refl,fun k _ hk => absurd hk (Nat.not_lt_zero _)⟩
  | succ e ih =>
    refine .bind (.idx (by omega) ?_)
    split
    · rename_i hb
      refine (ih (by omega)).imp fun e' he' => ⟨by omega,fun k hk hk' => ?_⟩
      by_cases h : k = e
      · subst h
        exact hb
      · exact he'.2 k hk (by omega)
    · exact .pure ⟨.refl,fun k hk hk' => by omega⟩

theorem trimCrlf_ends : Ends (trimCrlf s) fun r => ∃ t, s = r ++ t ∧ ∀ b ∈ t, b = 13 ∨ b = 10 := by
  refine .seq (trimCrlfEnd_ends .refl) fun e he => ?_
  refine .slice (Nat.zero_le _) he.1 ⟨s.drop e,?_,?_⟩
  · simp
  · intro b hb
    obtain ⟨k,hk,rfl⟩ := mem_iff_getElem.1 hb
    rw [getElem_drop]
    exact he.2 _ (by omega) (by rw [length_drop] at hk; omega)

theorem trimWs_ends : Ends (trimWs s) fun _ => True := by
  unfold trimWs
  simp only
  split
  · rename_i h
    refine .slice (Nat.le_of_lt h) ?_ trivial
    cases s.reverse.findIdx? (!isBlank ·) with
    | none => exact Nat.zero_le _
    | some k => exact Nat.sub_le _ _
  · exact .pure trivial

/-- The first place from `i` on, in `n` places, where a line ends. -/
def firstCrlfFrom (data : List UInt8) : Nat → Nat → Option Nat
  | 0, _ => none
  | n + 1, i =>
    if data[i]? = some 13 ∧ data[i + 1]? = some 10 then some i else firstCrlfFrom data n (i + 1)

def firstCrlf (data : List UInt8) (start : Nat) : Option Nat :=
  firstCrlfFrom data (data.length - 1 - start) start

theorem findCrlfFrom_eq (hd : Sized data) (h : n = 0 ∨ n + i < data.length) :
    findCrlfFrom data n i = .ok (firstCrlfFrom data n i) := by
  induction n generalizing i with
  | zero => rfl
  | succ n ih =>
    have hlt : n + 1 + i < data.length := h.resolve_left (Nat.succ_ne_zero n)
    have hrest := ih (i := i + 1) (by omega)
    have hd : data.length < 9223372036854775808 := hd
    rw [findCrlfFrom,firstCrlfFrom,idx_eq,ok_bind,getElem?_eq_getElem (by omega),
      getElem?_eq_getElem (show i + 1 < data.length by omega)]
    by_cases ha : data[i] = 13
    · rw [if_pos ha,fit_eq,ok_bind,idx_eq,ok_bind]
      by_cases hb : data[i + 1] = 10
      · rw [if_pos hb,if_pos ⟨congrArg some ha,congrArg some hb⟩]
        rfl
      · rw [if_neg hb,if_neg fun h => hb (some.inj h.2),hrest]
    · rw [if_neg ha,if_neg fun h => ha (some.inj h.1),hrest]

theorem findCrlf_eq (hd : Sized data) :
    findCrlf data start = .ok (firstCrlf data start) :=
  findCrlfFrom_eq hd (by omega)

theorem firstCrlfFrom_some (h : firstCrlfFrom data n i = some c) : i ≤ c ∧ c < i + n := by
  induction n generalizing i with
  | zero => cases h
  | succ n ih =>
    rw [firstCrlfFrom] at h
    split at h
    · obtain rfl := some.inj h
      omega
    · have := ih h
      omega

theorem firstCrlf_some (h : firstCrlf data start = some c) : start ≤ c ∧ c + 2 ≤ data.length := by
  have := firstCrlfFrom_some h
  omega

/-- The number that the leading hexadecimal digits stand for. -/
def hexValueFrom : Nat → List UInt8 → Nat
  | v, [] => v
  | v, b :: s =>
    match hexDigit b with
    | some d => hexValueFrom (v * 16 + d) s
    | none => v

def hexValue (s : List UInt8) : Nat := hexValueFrom 0 s

theorem parseHexFrom_eq (v : Nat) (s : List UInt8) :
    parseHexFrom (v % usize) s = hexValueFrom v s % usize := by
  induction s generalizing v with
  | nil => rfl
  | cons b s ih =>
    rw [parseHexFrom,hexValueFrom]
    cases hexDigit b with
    | none => rfl
    | some d =>
      simp only
      rw [← ih,Nat.add_mod,Nat.mul_mod,Nat.mod_mod,← Nat.mul_mod,← Nat.add_mod]

theorem parseHex_eq {s : List UInt8} : parseHex s = hexValue s % usize := parseHexFrom_eq 0 s

/-- What is cut off the end of a line is no digit. -/
theorem hexValueFrom_append (ht : ∀ b ∈ t, b = 13 ∨ b = 10) (v : Nat)
    (s : List UInt8) : hexValueFrom v (s ++ t) = hexValueFrom v s := by
  induction s generalizing v with
  | nil =>
    cases t with
    | nil => rfl
    | cons b t =>
      obtain rfl | rfl := ht b mem_cons_self
      · rfl
      · rfl
  | cons b s ih =>
    rw [cons_append,hexValueFrom,hexValueFrom]
    cases hexDigit b with
    | none => rfl
    | some d => exact ih _

theorem trimCrlf_size : Ends (trimCrlf s) fun r => parseHex r = hexValue s % usize := by
  refine trimCrlf_ends.imp ?_
  rintro r ⟨t,rfl,ht⟩
  rw [parseHex_eq,hexValue,hexValue,hexValueFrom_append ht]

/-- The size in the line from `pos` to `c`. -/
def sizeAt (data : List UInt8) (pos c : Nat) : Nat := hexValue ((data.take c).drop pos) % usize

/-- The chunk of `size` bytes at `pos`, or what there is of it. -/
def chunkAt (data : List UInt8) (pos size : Nat) : List UInt8 := (data.drop pos).take size

theorem slice_chunk (hpos : pos ≤ data.length) :
    slice data pos (min (pos + size) data.length) = .ok (chunkAt data pos size) := by
  rw [slice_eq (by omega) (Nat.min_le_right _ _),chunkAt,drop_take]
  congr 1
  rw [take_eq_take_iff,length_drop]
  omega

theorem decodeLoop_succ (hd : Sized data)
    (hstop : stop k = false) (hc : firstCrlf data pos = some c) :
    decodeLoop stop data (n + 1) k pos out = if sizeAt data pos c = 0 then .ok out
      else if usize ≤ c + 2 + sizeAt data pos c then .error .overflow
      else if data.length ≤ c + 2 + sizeAt data pos c then
        .ok (out ++ chunkAt data (c + 2) (sizeAt data pos c))
      else decodeLoop stop data n (k + 1) (c + 2 + sizeAt data pos c + 2)
        (out ++ chunkAt data (c + 2) (sizeAt data pos c)) := by
  have hd' : data.length < 9223372036854775808 := hd
  obtain ⟨hpos,hlen⟩ := firstCrlf_some hc
  obtain ⟨line,hline,hsize⟩ := trimCrlf_size (s := (data.take c).drop pos)
  rw [decodeLoop,hstop,findCrlf_eq hd,hc]
  simp only [Bool.false_eq_true,↓reduceIte,ok_bind]
  rw [slice_eq hpos (by omega),ok_bind,hline,ok_bind,hsize,fit_eq,ok_bind,
    ← sizeAt]
  by_cases h0 : sizeAt data pos c = 0
  · rw [if_pos h0,if_pos h0]
    rfl
  · rw [if_neg h0,if_neg h0]
    by_cases hov : usize ≤ c + 2 + sizeAt data pos c
    · rw [if_pos hov,fit_error hov,error_bind]
    · rw [if_neg hov,fit_eq (Nat.not_le.1 hov),ok_bind,slice_chunk hlen,ok_bind]
      by_cases hend : data.length ≤ c + 2 + sizeAt data pos c
      · rw [if_pos hend,if_pos hend]
        rfl
      · rw [if_neg hend,if_neg hend,fit_eq,ok_bind]

/-- The places at which the loop looks for a line. -/
inductive Reaches (data : List UInt8) : Nat → Prop
  | start : Reaches data 0
  | next {pos c : Nat} (h : Reaches data pos) (hc : firstCrlf data pos = some c)
      (hsize : sizeAt data pos c ≠ 0) (hend : c + 2 + sizeAt data pos c < data.length) :
      Reaches data (c + 2 + sizeAt data pos c + 2)

/-- No size that the loop comes to leads past the end of the address space. -/
def SizesFit (data : List UInt8) : Prop :=
  ∀ pos c, Reaches data pos → firstCrlf data pos = some c → c + 2 + sizeAt data pos c < usize

theorem decodeLoop_none (hd : Sized data)
    (hc : firstCrlf data pos = none) : decodeLoop stop data (n + 1) k pos out = .ok out := by
  rw [decodeLoop]
  split
  · rfl
  · rw [findCrlf_eq hd,hc]
    rfl

theorem Reaches.le (h : Reaches data pos) : pos ≤ data.length + 1 := by
  cases h with
  | start => exact Nat.zero_le _
  | next h hc hsize hend => omega

/-- Every round goes forward by more than two bytes, so the rounds are enough. -/
theorem decodeLoop_ends (hd : Sized data) (hfit : SizesFit data) (hpos : Reaches data pos)
    (hn : data.length + 1 ≤ n + pos / 2) :
    Ends (decodeLoop stop data n k pos out) fun _ => True := by
  induction n generalizing k pos out with
  | zero =>
    have := hpos.le
    omega
  | succ n ih =>
    cases hstop : stop k with
    | true =>
      refine ⟨out,?_,trivial⟩
      rw [decodeLoop,hstop]
      rfl
    | false =>
      cases hc : firstCrlf data pos with
      | none => exact ⟨out,decodeLoop_none hd hc,trivial⟩
      | some c =>
        have hlt := hfit pos c hpos hc
        obtain ⟨hle,-⟩ := firstCrlf_some hc
        rw [decodeLoop_succ hd hstop hc]
        by_cases h0 : sizeAt data pos c = 0
        · rw [if_pos h0]
          exact ⟨_,rfl,trivial⟩
        · rw [if_neg h0,if_neg (Nat.not_le.2 hlt)]
          by_cases hend : data.length ≤ c + 2 + sizeAt data pos c
          · rw [if_pos hend]
            exact ⟨_,rfl,trivial⟩
          · rw [if_neg hend]
            exact ih (hpos.next hc h0 (Nat.not_le.1 hend)) (by omega)

/-- Undisturbed, the loop gets to every place that it reaches. -/
theorem decodeChunked_reaches (hd : Sized data) (hpos : Reaches data pos)
    (hok : Ends (decodeChunked (fun _ => false) data) fun _ => True) :
    ∃ n k out, Ends (decodeLoop (fun _ => false) data (n + 1) k pos out) fun _ => True := by
  induction hpos with
  | start => exact ⟨data.length,0,[],hok⟩
  | next h hc hsize hend ih =>
    obtain ⟨n,k,out,hloop⟩ := ih
    rw [decodeLoop_succ hd rfl hc,if_neg hsize] at hloop
    split at hloop
    · obtain ⟨_,he,-⟩ := hloop
      cases he
    · rw [if_neg (Nat.not_le.2 hend)] at hloop
      cases n with
      | zero =>
        obtain ⟨_,he,-⟩ := hloop
        cases he
      | succ n => exact ⟨n,_,_,hloop⟩

theorem decodeChunked_iff (hd : Sized data) :
    (∀ stop, Ends (decodeChunked stop data) fun _ => True) ↔ SizesFit data := by
  constructor
  · intro hok pos c hpos hc
    obtain ⟨n,k,out,hloop⟩ := decodeChunked_reaches hd hpos (hok _)
    have hu : c + 2 < usize := by
      have := (firstCrlf_some hc).2
      have hd' : data.length < 9223372036854775808 := hd
      unfold usize
      omega
    by_contra hlt
    rw [decodeLoop_succ hd rfl hc,if_neg (by omega),if_pos (Nat.not_lt.1 hlt)] at hloop
    obtain ⟨_,he,-⟩ := hloop
    cases he
  · exact fun hfit stop => decodeLoop_ends hd hfit .start (by omega)

theorem findHeaderEnd_ends (hd : Sized data) (hn : data.length < n + i) (hi : i ≤ data.length) :
    Ends (findHeaderEnd data n i) fun r => ∀ e, r = some e → e + 4 ≤ data.length := by
  have hd' : data.length < 9223372036854775808 := hd
  induction n generalizing i with
  | zero => omega
  | succ n ih =>
    refine .bind (.fit ?_)
    split
    · refine .bind (.fit (.bind (.slice (by omega) (by omega) ?_)))
      split
      · exact .pure fun e he => by cases he; omega
      · exact ih (by omega) (by omega)
    · exact .pure fun e he => by cases he

theorem headerLine_ends (hs : Sized s) (resp : HttpResponse) :
    Ends (headerLine resp s) fun _ => True := by
  refine .bind (trimCrlf_ends.imp ?_)
  rintro line ⟨t,rfl,-⟩
  split
  · exact .pure trivial
  · split
    · exact .pure trivial
    · rename_i colon hcolon
      have hlt : colon < line.length := (findIdx?_eq_some_iff_getElem.1 hcolon).1
      have hs' : (line ++ t).length < 9223372036854775808 := hs
      rw [length_append] at hs'
      refine .bind (.slice (Nat.zero_le _) (by omega) (.bind (trimWs_ends.imp fun key _ => ?_)))
      refine .bind (.fit (.bind (.slice (by omega) .refl ?_)))
      exact .bind (trimWs_ends.imp fun value _ => .pure trivial)

theorem length_le_of_mem_splitOn {text : List UInt8} (h : l ∈ text.splitOn a) :
    l.length ≤ text.length := by
  induction text generalizing l with
  | nil =>
    rw [splitOn_nil,mem_singleton] at h
    exact Nat.le_of_eq (congrArg List.length h)
  | cons b text ih =>
    rw [List.splitOn,splitOnP_cons_eq_if_modifyHead,← List.splitOn] at h
    rw [length_cons]
    split at h
    · obtain rfl | h := mem_cons.1 h
      · exact Nat.zero_le _
      · exact Nat.le_succ_of_le (ih h)
    · cases hsplit : text.splitOn a with
      | nil =>
        rw [hsplit] at h
        cases h
      | cons first rest =>
        rw [hsplit,modifyHead_cons,mem_cons] at h
        obtain rfl | h := h
        · exact Nat.succ_le_succ (ih (by rw [hsplit]; exact mem_cons_self))
        · exact Nat.le_succ_of_le (ih (by rw [hsplit]; exact mem_cons_of_mem _ h))

theorem headerLines_ends {lines : List (List UInt8)} (hl : ∀ l ∈ lines, Sized l)
    (resp : HttpResponse) : Ends (lines.foldlM headerLine resp) fun _ => True := by
  induction lines generalizing resp with
  | nil => exact .pure trivial
  | cons l lines ih =>
    rw [foldlM_cons]
    exact .bind ((headerLine_ends (hl l mem_cons_self) resp).imp fun resp' _ =>
      ih (fun x hx => hl x (mem_cons_of_mem _ hx)) resp')

/-- The head is always parsed, and the body is a piece of what was received. -/
theorem parseHead_ends (hd : Sized data) :
    Ends (parseHead data) fun r => ∀ resp raw, r = some (resp,raw) → Sized raw := by
  have hd' : data.length < 9223372036854775808 := hd
  refine .seq (findHeaderEnd_ends hd (by omega) (Nat.zero_le _)) fun r hr => ?_
  cases r with
  | none => exact .pure fun _ _ h => by cases h
  | some hdrEnd =>
    have hend := hr hdrEnd rfl
    refine .bind (.slice (Nat.zero_le _) (by omega) (.bind (trimCrlf_ends.imp fun sl _ => ?_)))
    cases statusLine sl with
    | none => exact .pure fun _ _ h => by cases h
    | some resp =>
      refine .seq (headerLines_ends (fun l hl => ?_) resp) fun resp' _ => ?_
      · have hle := length_le_of_mem_splitOn (mem_of_mem_tail hl)
        simp only [drop_zero,length_take] at hle
        simp only [Sized]
        omega
      · refine .bind (.fit ?_)
        rw [if_pos hend]
        refine .bind (.slice hend .refl (.pure fun resp'' raw h => ?_))
        cases h
        simp only [Sized,length_drop,length_take]
        omega

/-- A chunk as it is sent: the line with its size, which may have an extension, and its
bytes. -/
structure Chunk where
  line : List UInt8
  bytes : List UInt8
  noCr : 13 ∉ line
  size : hexValue line = bytes.length
  nonempty : bytes ≠ []

/-- Chunks one behind the other, then a line with size zero and whatever follows. -/
def encode (chunks : List Chunk) (last trailer : List UInt8) : List UInt8 :=
  chunks.flatMap (fun c => c.line ++ [13,10] ++ c.bytes ++ [13,10]) ++ last ++ [13,10] ++ trailer

theorem firstCrlfFrom_line (hline : 13 ∉ line) (hn : line.length < n) :
    firstCrlfFrom (pre ++ line ++ 13 :: 10 :: post) n pre.length =
      some (pre.length + line.length) := by
  induction line generalizing pre n with
  | nil =>
    obtain ⟨n,rfl⟩ := Nat.exists_eq_succ_of_ne_zero (Nat.ne_of_gt hn)
    simp [firstCrlfFrom]
  | cons b line ih =>
    obtain ⟨n,rfl⟩ := Nat.exists_eq_succ_of_ne_zero (Nat.ne_of_gt (Nat.zero_lt_of_lt hn))
    rw [mem_cons,not_or] at hline
    have hrest : firstCrlfFrom (pre ++ [b] ++ line ++ 13 :: 10 :: post) n (pre ++ [b]).length =
        some ((pre ++ [b]).length + line.length) := ih hline.2 (by simpa using hn)
    have htext : pre ++ b :: line ++ 13 :: 10 :: post = pre ++ [b] ++ line ++ 13 :: 10 :: post := by
      simp
    have hb : ¬ ((pre ++ [b] ++ line ++ 13 :: 10 :: post)[pre.length]? = some 13 ∧
        (pre ++ [b] ++ line ++ 13 :: 10 :: post)[pre.length + 1]? = some 10) := by
      intro h
      have h0 : (pre ++ [b] ++ line ++ 13 :: 10 :: post)[pre.length]? = some b := by simp
      rw [h0] at h
      exact hline.1 (some.inj h.1).symm
    rw [length_append,length_singleton] at hrest
    rw [htext,firstCrlfFrom,if_neg hb,hrest,length_cons]
    congr 1
    omega

theorem firstCrlf_line (hline : 13 ∉ line) :
    firstCrlf (pre ++ line ++ 13 :: 10 :: post) pre.length = some (pre.length + line.length) := by
  apply firstCrlfFrom_line hline
  simp
  omega

theorem sizeAt_line : sizeAt (pre ++ line ++ post) pre.length (pre.length + line.length) =
      hexValue line % usize := by
  rw [sizeAt,← length_append,take_left',drop_left']
  · rfl
  · rfl

theorem decodeLoop_encode (pre : List UInt8) {chunks : List Chunk}
    (hd : Sized (pre ++ encode chunks last trailer)) (hcr : 13 ∉ last) (hlast : hexValue last = 0)
    {n k : Nat} {out : List UInt8} (hn : chunks.length < n) :
    decodeLoop (fun _ => false) (pre ++ encode chunks last trailer) n k pre.length out =
      .ok (out ++ chunks.flatMap (·.bytes)) := by
  induction chunks generalizing pre n k out with
  | nil =>
    obtain ⟨n,rfl⟩ := Nat.exists_eq_succ_of_ne_zero (Nat.ne_of_gt hn)
    have htext : pre ++ encode [] last trailer = pre ++ last ++ 13 :: 10 :: trailer := by
      simp [encode]
    rw [htext] at hd ⊢
    rw [decodeLoop_succ hd rfl (firstCrlf_line hcr),sizeAt_line,hlast]
    simp
  | cons c chunks ih =>
    obtain ⟨n,rfl⟩ := Nat.exists_eq_succ_of_ne_zero (Nat.ne_of_gt (Nat.zero_lt_of_lt hn))
    have htext : pre ++ encode (c :: chunks) last trailer =
        pre ++ c.line ++ 13 :: 10 :: (c.bytes ++ 13 :: 10 :: encode chunks last trailer) := by
      simp [encode]
    have hnext : pre ++ encode (c :: chunks) last trailer =
        (pre ++ c.line ++ [13,10] ++ c.bytes ++ [13,10]) ++ encode chunks last trailer := by
      simp [encode]
    have hlen : (pre ++ encode (c :: chunks) last trailer).length =
        pre.length + c.line.length + 2 + c.bytes.length + 2 +
          (encode chunks last trailer).length := by
      rw [hnext]
      simp only [length_append,length_cons,length_nil]
    have hd' : (pre ++ encode (c :: chunks) last trailer).length < 9223372036854775808 := hd
    have hpos : 0 < c.bytes.length := length_pos_iff.2 c.nonempty
    have hcrlf : firstCrlf (pre ++ encode (c :: chunks) last trailer) pre.length =
        some (pre.length + c.line.length) := by
      rw [htext]
      exact firstCrlf_line c.noCr
    have hsize : sizeAt (pre ++ encode (c :: chunks) last trailer) pre.length
        (pre.length + c.line.length) = c.bytes.length := by
      rw [htext,sizeAt_line,c.size]
      exact Nat.mod_eq_of_lt (by unfold usize; omega)
    have hchunk : chunkAt (pre ++ encode (c :: chunks) last trailer)
        (pre.length + c.line.length + 2) c.bytes.length = c.bytes := by
      rw [hnext,chunkAt,show pre ++ c.line ++ [13,10] ++ c.bytes ++ [13,10] ++
        encode chunks last trailer = (pre ++ c.line ++ [13,10]) ++ (c.bytes ++ ([13,10] ++
        encode chunks last trailer)) by simp,drop_left' (by simp [Nat.add_assoc]),
        take_left' rfl]
    have hrest := @ih (pre ++ c.line ++ [13,10] ++ c.bytes ++ [13,10]) (hnext ▸ hd) n (k + 1)
      (out ++ c.bytes) (by simpa using hn)
    rw [decodeLoop_succ hd rfl hcrlf,hsize,if_neg (by omega),if_neg (by unfold usize; omega),
      if_neg (by omega),hchunk,hnext,flatMap_cons,← append_assoc,← hrest]
    simp only [length_append,length_cons,length_nil]

theorem length_le_encode {chunks : List Chunk} :
    chunks.length ≤ (encode chunks last trailer).length := by
  induction chunks with
  | nil => exact Nat.zero_le _
  | cons c chunks ih =>
    simp only [encode,flatMap_cons,length_append,length_cons,length_nil] at ih ⊢
    omega

theorem decodeChunked_encode
    (hd : Sized (encode chunks last trailer)) (hcr : 13 ∉ last) (hlast : hexValue last = 0) :
    decodeChunked (fun _ => false) (encode chunks last trailer) = .ok (chunks.flatMap (·.bytes)) :=
  decodeLoop_encode [] hd hcr hlast (Nat.lt_succ_of_le length_le_encode)

/-- A response with a chunked body in which some size leads past the end of the address
space stops the parser, every other text is parsed; and a body of well-formed chunks is
decoded to their bytes. -/
theorem http_parsed (data : List UInt8) (hd : Sized data) :
    ((∀ stop, Ends (parseResponse stop data) fun _ => True) ↔
      ∀ resp raw, parseHead data = .ok (some (resp,raw)) → resp.chunked = true → SizesFit raw) ∧
    ∀ resp chunks last trailer,
      parseHead data = .ok (some (resp,encode chunks last trailer)) → resp.chunked = true →
      13 ∉ last → hexValue last = 0 →
      parseResponse (fun _ => false) data =
        .ok (some { resp with body := chunks.flatMap (·.bytes) }) := by
  obtain ⟨r,hr,hraw⟩ := parseHead_ends hd
  refine ⟨⟨fun hok resp raw hhead hch => ?_,fun hfit stop => ?_⟩,
    fun resp chunks last trailer hhead hch hcr hlast => ?_⟩
  · rw [hr] at hhead
    obtain rfl := Except.ok.inj hhead
    rw [← decodeChunked_iff (hraw resp raw rfl)]
    intro stop
    obtain ⟨x,hx,-⟩ := hok stop
    rw [parseResponse,hr,ok_bind] at hx
    simp only [hch,↓reduceIte] at hx
    cases hdec : decodeChunked stop raw with
    | ok body => exact ⟨body,rfl,trivial⟩
    | error e =>
      rw [hdec,error_bind] at hx
      cases hx
  · rw [parseResponse,hr,ok_bind]
    cases r with
    | none => exact .pure trivial
    | some p =>
      obtain ⟨resp,raw⟩ := p
      cases hch : resp.chunked with
      | false =>
        simp only [hch,Bool.false_eq_true,↓reduceIte]
        exact .pure trivial
      | true =>
        simp only [hch,↓reduceIte]
        have hends := (decodeChunked_iff (hraw resp raw rfl)).2 (hfit resp raw hr hch) stop
        exact .bind (hends.imp fun body _ => .pure trivial)
  · rw [hhead] at hr
    have hs := hraw resp _ (Except.ok.inj hr).symm
    rw [parseResponse,hhead,ok_bind]
    simp only [hch,↓reduceIte]
    rw [decodeChunked_encode hs hcr hlast]
    rfl

def sampleHead : List UInt8 :=
  ascii "HTTP/1.1 200 OK\r\nTransfer-Encoding: Chunked\r\n\r\n"

def sampleResponse : HttpResponse := ⟨200,[79,75],none,[],none,true⟩

def sampleChunks : List Chunk :=
  [⟨ascii "3",ascii "abc",by decide +kernel,by decide +kernel,by decide +kernel⟩,
    ⟨ascii "02;x",ascii "de",by decide +kernel,by decide +kernel,by decide +kernel⟩]

theorem http_parsed_sample :
    parseResponse (fun _ => false) (sampleHead ++ encode sampleChunks (ascii "0") [13,10]) =
      .ok (some ⟨200,[79,75],none,ascii "abcde",none,true⟩) := by
  have hhead : parseHead (sampleHead ++ encode sampleChunks (ascii "0") [13,10]) =
      .ok (some (sampleResponse,encode sampleChunks (ascii "0") [13,10])) := by decide +kernel
  have h := (http_parsed _ (by decide +kernel)).2 sampleResponse sampleChunks (ascii "0") [13,10]
    hhead rfl (by decide +kernel) (by decide +kernel)
  rw [h]
  decide +kernel

/-- A chunk of `ffffffffffffffff` bytes: the end of it is no number of 64 bits. -/
theorem size_overflows :
    parseResponse (fun _ => false) (sampleHead ++ ascii "ffffffffffffffff\r\nabc") =
      .error .overflow := by
  decide +kernel

end Miku.Net.Http
