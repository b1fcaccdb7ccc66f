import Miku.Libmiku.BufWriter

/-! What the kernel has taken, followed by what is pending, is what was written. An unbuffered
write does not look at the buffer, and a full buffer is tried again until the kernel takes
something. -/

namespace Miku.Libmiku.BufWriter

variable (answers : Nat → Int) {w w' : Writer} {src : List UInt8} {fuel : Nat}

/-- All bytes so far, in order. -/
def Writer.stream (w : Writer) : List UInt8 := w.accepted ++ w.buf

/-- The buffer keeps its size, and what is pending fits. -/
structure Sized (w w' : Writer) : Prop where
  cap : w'.cap = w.cap
  fits : w'.buf.length ≤ w'.cap

theorem drain_stream : (drain answers w).2.stream = w.stream := by
  simp [drain,kernelWrite,Writer.stream]

theorem drain_sized (h : w.buf.length ≤ w.cap) : Sized w (drain answers w).2 := by
  refine ⟨rfl,?_⟩
  simp [drain,kernelWrite]
  omega

theorem round_stream :
    (round answers src w).2.stream ++ (round answers src w).1 = w.stream ++ src := by
  have hcopy : (copy (src.take (w.cap - w.buf.length)) w).stream ++
      src.drop (src.take (w.cap - w.buf.length)).length = w.stream ++ src := by
    rw [List.length_take,← List.drop_eq_drop_min]
    simp [copy,Writer.stream]
  unfold round
  dsimp only
  split <;> split <;> simpa only [drain_stream] using hcopy

theorem round_sized (src : List UInt8) (h : w.buf.length ≤ w.cap) : Sized w (round answers src w).2 := by
  have hcopy : Sized w (copy (src.take (w.cap - w.buf.length)) w) := by
    refine ⟨rfl,?_⟩
    simp [copy]
    omega
  have hdrain : ∀ {w'}, Sized w w' → Sized w (drain answers w').2 := fun hw' =>
    ⟨(drain_sized answers hw'.fits).cap.trans hw'.cap,(drain_sized answers hw'.fits).fits⟩
  unfold round
  dsimp only
  split <;> split
  · exact hdrain (hdrain hcopy)
  · exact hdrain hcopy
  · exact hdrain hcopy
  · exact hcopy

theorem loop_spec (hw : w.buf.length ≤ w.cap) (h : writeLoop answers fuel src w = some w') :
    w'.stream = w.stream ++ src ∧ Sized w w' := by
  induction fuel generalizing src w with
  | zero => cases h
  | succ fuel ih =>
    unfold writeLoop at h
    split at h
    · rename_i hsrc
      cases h
      exact ⟨by simp [hsrc],rfl,hw⟩
    · have hround := round_sized answers src hw
      obtain ⟨hs,hz⟩ := ih hround.fits h
      exact ⟨hs.trans (round_stream answers),hz.cap.trans hround.cap,hz.fits⟩

theorem round_copies (hsrc : src ≠ []) (h : w.buf.length < w.cap) :
    (round answers src w).1.length < src.length := by
  have := List.length_pos_iff.mpr hsrc
  simp [round]
  omega

theorem round_full (h : w.buf.length = w.cap) :
    round answers src w = (src,(drain answers w).2) := by
  simp [round,copy,h]

theorem full_returns (hcap : 0 < w.cap) (h : w.buf.length = w.cap) (hsrc : src ≠ [])
    (hroom : ∀ w : Writer, 0 < w.cap → w.buf.length < w.cap →
      ∃ fuel, (writeLoop answers fuel src w).isSome) (hj : w.calls ≤ j) (hpos : 0 < answers j) :
    ∃ fuel, (writeLoop answers fuel src w).isSome := by
  induction hd : j - w.calls generalizing w with
  | zero =>
    obtain rfl : j = w.calls := by omega
    obtain ⟨fuel,hf⟩ := hroom (drain answers w).2 hcap (by simp [drain,kernelWrite]; omega)
    exact ⟨fuel + 1,by simp [writeLoop,hsrc,round_full answers h,hf]⟩
  | succ d ih =>
    have hagain : ∃ fuel, (writeLoop answers fuel src (drain answers w).2).isSome := by
      by_cases hlt : (drain answers w).2.buf.length < w.cap
      · exact hroom _ hcap hlt
      · have hfits := (drain_sized answers (Nat.le_of_eq h)).fits
        exact ih hcap (Nat.le_antisymm hfits (Nat.le_of_not_lt hlt)) (show w.calls + 1 ≤ j by omega)
          (show j - (w.calls + 1) = d by omega)
    obtain ⟨fuel,hf⟩ := hagain
    exact ⟨fuel + 1,by simp [writeLoop,hsrc,round_full answers h,hf]⟩

theorem loop_returns (src : List UInt8) (hk : ∀ k, ∃ j ≥ k, 0 < answers j) (hcap : 0 < w.cap)
    (hw : w.buf.length ≤ w.cap) : ∃ fuel, (writeLoop answers fuel src w).isSome := by
  induction hn : src.length using Nat.strongRecOn generalizing src w with
  | _ n ih =>
    by_cases hsrc : src = []
    · exact ⟨1,by simp [writeLoop,hsrc]⟩
    have hroom : ∀ w : Writer, 0 < w.cap → w.buf.length < w.cap →
        ∃ fuel, (writeLoop answers fuel src w).isSome := by
      intro w hcap hlt
      have hround := round_sized answers src (Nat.le_of_lt hlt)
      obtain ⟨fuel,hf⟩ := ih _ (hn ▸ round_copies answers hsrc hlt) _ (hround.cap ▸ hcap) hround.fits rfl
      exact ⟨fuel + 1,by simp [writeLoop,hsrc,hf]⟩
    rcases Nat.lt_or_eq_of_le hw with hlt | hfull
    · exact hroom w hcap hlt
    · obtain ⟨j,hj,hpos⟩ := hk w.calls
      exact full_returns answers hcap hfull hsrc hroom hj hpos

variable {answers}

/-- An unbuffered write finds nothing pending, and the kernel takes all of it or nothing. -/
def Careful (answers : Nat → Int) (w : Writer) (c : Call) : Prop :=
  ∀ src, c.data = some src → w.mode = bufioNone →
    w.buf = [] ∧ (answers w.calls ≤ 0 ∨ src.length ≤ answers w.calls)

/-- Calls that all returned, with the unbuffered writes made with care. -/
inductive Run (answers : Nat → Int) : Log → List Call → Log → Prop
  | nil {l : Log} : Run answers l [] l
  | cons {l l' l'' : Log} {c : Call} {cs : List Call} (fuel : Nat) (careful : Careful answers l.writer c)
      (returned : step answers fuel l c = some l') (rest : Run answers l' cs l'') :
      Run answers l (c :: cs) l''

structure Kept (l : Log) : Prop where
  room : 0 < l.writer.cap
  fits : l.writer.buf.length ≤ l.writer.cap
  ordered : l.writer.stream = l.sent

variable {l : Log}

theorem Kept.pass (h : Kept l) (hc : l.writer.mode = bufioNone →
      l.writer.buf = [] ∧ (answers l.writer.calls ≤ 0 ∨ src.length ≤ answers l.writer.calls))
    (hp : pass answers fuel l src = some l') : Kept l' := by
  obtain ⟨⟨n,w⟩,hw,rfl⟩ := Option.map_eq_some_iff.mp hp
  unfold write at hw
  split at hw
  · cases hw
    exact h
  split at hw
  · rename_i hmode
    cases hw
    obtain ⟨hempty,hall⟩ := hc hmode
    have hord := h.ordered
    refine ⟨h.room,h.fits,?_⟩
    simp [Writer.stream,hempty] at hord
    rcases hall with hnone | hall
    · have hn : ¬ 0 < min (answers l.writer.calls) src.length := by omega
      have hz : (min (answers l.writer.calls) src.length).toNat = 0 := by omega
      simp [Writer.stream,hempty,hord,hn,hz]
    · by_cases hsrc : src = []
      · simp [Writer.stream,hempty,hord,hsrc]
      · have := List.length_pos_iff.mpr hsrc
        simp [Writer.stream,hempty,hord,Int.min_eq_right hall,this]
  · obtain ⟨w,hl,he⟩ := Option.map_eq_some_iff.mp hw
    cases he
    obtain ⟨hs,hz⟩ := loop_spec answers h.fits hl
    refine ⟨hz.cap ▸ h.room,hz.fits,hs.trans ?_⟩
    by_cases hsrc : src = []
    · simp [hsrc,h.ordered]
    · have := List.length_pos_iff.mpr hsrc
      simp [this,h.ordered]

theorem Kept.step (h : Kept l) (hc : Careful answers l.writer c)
    (hs : step answers fuel l c = some l') : Kept l' := by
  cases c with
  | write src => exact h.pass (hc src rfl) hs
  | putc c => exact h.pass (hc [c] rfl) hs
  | puts s => exact h.pass (hc _ rfl) hs
  | setMode mode =>
    cases hs
    exact ⟨h.room,h.fits,h.ordered⟩
  | flush =>
    cases hs
    unfold flush
    split
    · exact h
    · exact ⟨h.room,(drain_sized answers h.fits).fits,(drain_stream answers).trans h.ordered⟩

theorem Run.kept (hr : Run answers l cs l') (h : Kept l) : Kept l' := by
  induction hr with
  | nil => exact h
  | cons _ hc hs _ ih => exact ih (h.step hc hs)

theorem Kept.returns (h : Kept l) (hk : ∀ k, ∃ j ≥ k, 0 < answers j) (c : Call) :
    ∃ fuel l', BufWriter.step answers fuel l c = some l' := by
  have hpass : ∀ src, ∃ fuel l', BufWriter.pass answers fuel l src = some l' := by
    intro src
    obtain ⟨fuel,hf⟩ := loop_returns answers src hk h.room h.fits
    obtain ⟨w,hw⟩ := Option.isSome_iff_exists.mp hf
    unfold BufWriter.pass write
    split
    · exact ⟨0,_,rfl⟩
    split
    · exact ⟨0,_,rfl⟩
    · exact ⟨fuel,_,by rw [hw]; rfl⟩
  cases c with
  | write src => exact hpass src
  | putc c => exact hpass [c]
  | puts s => exact hpass _
  | setMode mode => exact ⟨0,_,rfl⟩
  | flush => exact ⟨0,_,rfl⟩

/-- If the kernel does not refuse for ever, then in every run with careful unbuffered writes
the kernel has a prefix of what was sent, and the next call returns. -/
theorem bufwriter_ordered {answers : Nat → Int} (hk : ∀ k, ∃ j ≥ k, 0 < answers j) (cap : Nat)
    (allocated : Bool) {calls : List Call} {l : Log}
    (h : Run answers ⟨withCapacity cap allocated,[]⟩ calls l) :
    l.writer.accepted <+: l.sent ∧ ∀ c, ∃ fuel l', step answers fuel l c = some l' := by
  have hstart : Kept ⟨withCapacity cap allocated,[]⟩ := by
    refine ⟨?_,Nat.zero_le _,rfl⟩
    show 0 < if cap = 0 then defaultBufSize else cap
    unfold defaultBufSize
    split <;> omega
  have hkept := h.kept hstart
  exact ⟨⟨l.writer.buf,hkept.ordered⟩,hkept.returns hk⟩

/-- A line of two bytes through a buffer of four, with a kernel that takes one byte a time. -/
theorem bufwriter_ordered_line : ∃ l,
    Run (fun _ => 1) ⟨withCapacity 4 true,[]⟩ [.setMode bufioLine,.puts [104,10,0]] l ∧
    l.writer.accepted = [104] ∧ l.writer.accepted <+: l.sent := by
  have hrun : Run (fun _ => 1) ⟨withCapacity 4 true,[]⟩ [.setMode bufioLine,.puts [104,10,0]]
      ⟨⟨true,4,[10],bufioLine,1,[104]⟩,[104,10]⟩ :=
    .cons 0 nofun rfl (.cons 2 (fun _ _ hm => absurd hm (by decide)) (by rfl) .nil)
  exact ⟨_,hrun,rfl,(bufwriter_ordered (fun k => ⟨k,Nat.le_refl k,by decide⟩) 4 true hrun).1⟩

/-- A byte is pending when the mode changes, and the next one overtakes it; and if every write
fails, the fifth byte for a buffer of four is never copied. -/
theorem bufwriter_reorders_and_hangs :
    ([Call.write [97],.setMode bufioNone,.write [98]].foldlM (step (fun _ => 100) 3)
      ⟨withCapacity 4 true,[]⟩).map (fun l => (l.writer.accepted,l.sent)) = some ([98],[97,98]) ∧
    ∀ fuel, (step (fun _ => -1) fuel ⟨withCapacity 4 true,[]⟩ (.write [1,2,3,4,5])).isNone = true := by
  refine ⟨by rfl,fun fuel => ?_⟩
  have hstuck : ∀ fuel calls, writeLoop (fun _ => -1) fuel [5]
      ⟨true,4,[1,2,3,4],bufioFull,calls,[]⟩ = none := by
    intro fuel
    induction fuel with
    | zero => exact fun _ => rfl
    | succ fuel ih => exact fun calls => ih (calls + 1)
  cases fuel with
  | zero => rfl
  | succ fuel =>
    have hloop := hstuck fuel 1
    show (pass _ _ _ _).isNone = true
    simp [pass,write,withCapacity,bufioFull,bufioNone]
    exact hloop

end Miku.Libmiku.BufWriter
