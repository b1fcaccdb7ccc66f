import Mathlib.Tactic.SplitIfs
import Miku.Io.UserStdin
import Miku.Lib.Run

namespace Miku.Io
open Lib List

namespace ReadRing

def bytes (r : ReadRing) : List UInt8 :=
  (range ((r.tail + readBufSize - r.head) % readBufSize)).map fun i =>
    r.buf ((r.head + i) % readBufSize)

theorem bytes_push (r : ReadRing) (b : UInt8) : (r.push b).bytes = ringPush r.bytes b := by
  have hin := r.inside
  unfold push ringPush bytes readBufSize at *
  simp only [length_map,length_range]
  split_ifs with hfull hlen hlen
  · rfl
  · omega
  · omega
  · rw [show ((r.tail + 1) % 1024 + 1024 - r.head) % 1024 = (r.tail + 1024 - r.head) % 1024 + 1 by
      omega,range_succ,map_append]
    congr 1
    · refine map_congr_left fun i hi => if_neg ?_
      have := mem_range.mp hi
      dsimp only
      omega
    · simp only [map_cons,map_nil]
      rw [if_pos (by omega)]

theorem bytes_pop (r : ReadRing) : r.bytes = (r.pop.map fun p => p.1 :: p.2.bytes).getD [] := by
  have hin := r.inside
  unfold pop
  split_ifs with he
  · simp [bytes,he]
  · simp only [bytes,readBufSize,Option.map_some,Option.getD_some] at *
    rw [show (r.tail + 1024 - r.head) % 1024 = (r.tail + 1024 - (r.head + 1) % 1024) % 1024 + 1 by
      omega,range_succ_eq_map,map_cons,map_map]
    congr 1
    · rw [Nat.add_zero,Nat.mod_eq_of_lt hin.1]
    · refine map_congr_left fun i _ => congrArg r.buf ?_
      simp only [Nat.succ_eq_add_one]
      omega

end ReadRing

/-- What has been typed for the reader, where `none` is an end of file, and the line being
edited. -/
structure Typed where
  input : List (Option UInt8) := []
  line : List UInt8 := []

def Typed.key (y : Typed) (c : Char) : Typed :=
  if c = '\n' then ⟨y.input ++ (y.line ++ [10]).map some,[]⟩
  else if c = '\x08' ∨ c = '\x7f' then ⟨y.input,y.line.dropLast⟩
  else if c = '\x04' then ⟨y.input ++ if y.line = [] then [none] else y.line.map some,[]⟩
  else if c = '\x15' then ⟨y.input,[]⟩
  else if ' ' ≤ c ∧ c.toNat < 127 then ⟨y.input,y.line ++ [c.toUInt8]⟩
  else y

inductive Event
  | key (c : Char)
  | read (bufPtr len : Nat)

def typedStep (y : Typed) : Event → Typed
  | .key c => y.key c
  | .read .. => y

def received : Reply → List (Option UInt8)
  | .error | .waits => []
  | .bytes l => if l = [] then [none] else l.map some

/-- The console, and what its reader has got so far. -/
structure Session extends Inner where
  got : List (Option UInt8) := []

def Session.step (t : Termios) (x : Session) : Event → Session
  | .key c => { feedChar t x.toInner c with got := x.got }
  | .read bufPtr len =>
    let r := Io.read x.toInner bufPtr len
    { r.2 with got := x.got ++ received r.1 }

/-- The ring does not overflow, nor does the line, and no input goes to the reader while an end of
file is pending. -/
def Orderly (x : Session) : Event → Prop
  | .key c => c ≠ '\x03' ∧ (c = '\n' → x.readRing.length + x.lineBuf.length + 1 < readBufSize) ∧
      (c = '\x04' → x.readRing.length + x.lineBuf.length < readBufSize) ∧
      (' ' ≤ c ∧ c.toNat < 127 → x.lineBuf.length < lineBufSize) ∧
      (c = '\n' ∨ c = '\x04' → x.eof = false)
  | .read .. => True

def pending (s : Inner) : List (Option UInt8) := s.readRing.map some ++ if s.eof then [none] else []

theorem foldl_ringPush {ring l : List UInt8} (h : ring.length + l.length < readBufSize) :
    l.foldl ringPush ring = ring ++ l := by
  induction l generalizing ring with
  | nil => simp
  | cons b l ih =>
    simp only [length_cons] at h
    rw [foldl_cons,ringPush,if_neg (by omega),ih (by simp; omega)]
    simp

/-- A read takes what it returns from what is pending, and waits only for want of input. -/
theorem read_pending (s : Inner) (bufPtr len : Nat) :
    received (read s bufPtr len).1 ++ pending (read s bufPtr len).2 = pending s ∧
      (read s bufPtr len).2.lineBuf = s.lineBuf ∧ ((read s bufPtr len).1 = .waits → pending s = []) := by
  unfold read
  split_ifs with hbad hring heof
  · simp [received]
  · simp [received,pending,hring,heof]
  · simp [received,pending,hring,heof]
  · have hlen : min len readBufSize ≠ 0 := by simp [readBufSize]; omega
    simp [received,pending,hring,hlen,← append_assoc]

/-- What the console holds is what was typed and has not been read. -/
def Agrees (x : Session) (y : Typed) : Prop :=
  x.got ++ pending x.toInner = y.input ∧ x.lineBuf = y.line

theorem Agrees.key (h : Agrees x y) (ht : t.icanon = true) (ho : Orderly x (.key c)) :
    Agrees (x.step t (.key c)) (y.key c) := by
  obtain ⟨⟨ring,line,eof⟩,got⟩ := x
  obtain ⟨input,line'⟩ := y
  obtain ⟨rfl,rfl⟩ := h
  obtain ⟨hc,hnl,hd,hline,heof⟩ := ho
  dsimp only [Session.step,feedChar,Typed.key,Agrees] at *
  rw [if_neg fun h => hc h.2]
  by_cases hquit : t.isig = true ∧ c = '\x1c'
  · obtain ⟨hs,rfl⟩ := hquit
    simp [hs]
  rw [if_neg hquit,if_neg fun h => h ht]
  split_ifs with h1 h2 h3 h4 h5 h6
  · have hring := foldl_ringPush (Nat.lt_of_succ_lt (hnl h1))
    have hroom := hnl h1
    rw [hring,ringPush,if_neg (by simp; omega)]
    simp [pending,heof (.inl h1)]
  · simp [pending]
  · simp [pending,heof (.inr h3),h4]
  · rw [foldl_ringPush (hd h3)]
    simp [pending,heof (.inr h3)]
  · simp [pending]
  · rw [linePush,if_neg (by have := hline h6; omega)]
    simp [pending]
  · simp

theorem Agrees.step (ht : t.icanon = true) (x : Session) (y : Typed) (e : Event) (h : Agrees x y)
    (ho : Orderly x e) : Agrees (x.step t e) (typedStep y e) := by
  cases e with
  | key c => exact h.key ht ho
  | read bufPtr len =>
    obtain ⟨hp,hl,-⟩ := read_pending x.toInner bufPtr len
    exact ⟨by simp only [Session.step,append_assoc,hp]; exact h.1,hl.trans h.2⟩

/-- The reads return what was typed, in order and with each end of file in its place, and a
read waits only if all of it has been returned. -/
theorem line_discipline (ht : t.icanon = true) (es : List Event)
    (ho : Along (Session.step t) Orderly {} es) :
    (es.foldl (Session.step t) {}).got ++ pending (es.foldl (Session.step t) {}).toInner =
        (es.foldl typedStep {}).input ∧
      ∀ bufPtr len, (read (es.foldl (Session.step t) {}).toInner bufPtr len).1 = .waits →
        (es.foldl (Session.step t) {}).got = (es.foldl typedStep {}).input := by
  have h := (ho.simulation (Agrees.step ht) (show Agrees {} {} from ⟨rfl,rfl⟩)).1
  refine ⟨h,fun bufPtr len hw => ?_⟩
  rw [← h,(read_pending _ bufPtr len).2.2 hw,append_nil]

def corrected : List Event :=
  [.key 'a',.key 'b',.key '\x08',.read 4096 8,.key '\n',.read 4096 1,.key '\x04',.read 4096 8]

theorem line_discipline_corrected : (corrected.foldl (Session.step ⟨true,true⟩) {}).got ++
      pending (corrected.foldl (Session.step ⟨true,true⟩) {}).toInner = [some 97,some 10,none] :=
  (line_discipline rfl corrected (by simp [corrected,Along,Orderly,Session.step,feedChar,read,linePush,
    lineBufSize,readBufSize,ringPush])).1.trans (by decide)

def hasty : List Event := [.key '\x04',.key 'a',.key '\n',.read 4096 8,.read 4096 8]

/-- An end of file is overtaken by a line typed before the next read. -/
theorem eof_overtaken : (hasty.foldl (Session.step ⟨true,true⟩) {}).got = [some 97,some 10,none] ∧
    (hasty.foldl typedStep {}).input = [none,some 97,some 10] := by
  decide

end Miku.Io
