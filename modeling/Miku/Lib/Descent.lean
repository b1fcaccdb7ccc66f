import Mathlib.Algebra.Ring.Nat
import Mathlib.Data.List.Forall2
import Miku.Lib.Bytes

namespace Miku.Lib
open List

/-- A buffer filled from its end down. `base` is the address of its first byte and `host`
where that byte is in memory. Once something did not fit, nothing more is written. -/
structure Descent where
  sp : Nat
  overflow : Bool
  mem : Bytes

/-- The memory place of address `a`. -/
def hostOf (base host a : Nat) : Nat := host + (a - base)

/-- The addresses of pieces pushed from `sp` down. -/
def places (sp : Nat) : List (List UInt8) → List Nat
  | [] => []
  | c :: cs => (sp - c.length) :: places (sp - c.length) cs

def totalLength (cs : List (List UInt8)) : Nat := (cs.map List.length).sum

@[simp] theorem totalLength_nil : totalLength [] = 0 := rfl

@[simp] theorem totalLength_cons :
    totalLength (c :: cs) = c.length + totalLength cs := by simp [totalLength]

@[simp] theorem totalLength_append :
    totalLength (cs ++ ds) = totalLength cs + totalLength ds := by simp [totalLength]

theorem places_append : places sp (cs ++ ds) = places sp cs ++ places (sp - totalLength cs) ds := by
  induction cs generalizing sp with
  | nil => simp [places]
  | cons c cs ih => simp [places,ih,Nat.sub_sub]

theorem places_le : ∀ a ∈ places sp cs, a ≤ sp := by
  induction cs generalizing sp with
  | nil => intro a ha; cases ha
  | cons c cs ih =>
    intro a ha
    rw [places,mem_cons] at ha
    rcases ha with rfl | ha
    · exact Nat.sub_le _ _
    · exact Nat.le_trans (ih a ha) (Nat.sub_le _ _)

namespace Descent

variable {base host top : Nat} {c : List UInt8} {cs : List (List UInt8)} {s : Descent}

def push (base host : Nat) (c : List UInt8) (s : Descent) : Descent :=
  if s.overflow then s
  else if s.sp < base + c.length then { s with overflow := true }
  else
    { s with
      sp := s.sp - c.length
      mem := put s.mem (hostOf base host (s.sp - c.length)) c }

def pushAll (base host : Nat) (cs : List (List UInt8)) (s : Descent) : Descent :=
  cs.foldl (fun s c => s.push base host c) s

theorem pushAll_cons : s.pushAll base host (c :: cs) = (s.push base host c).pushAll base host cs :=
  rfl

theorem pushAll_append :
    s.pushAll base host (cs ++ ds) = (s.pushAll base host cs).pushAll base host ds :=
  foldl_append

theorem push_of_overflow (h : s.overflow = true) : s.push base host c = s := by
  simp [push,h]

theorem push_of_fit (h : s.overflow = false) (hf : base + c.length ≤ s.sp) : s.push base host c =
      ⟨s.sp - c.length,false,put s.mem (hostOf base host (s.sp - c.length)) c⟩ := by
  simp only [push,h,Bool.false_eq_true,↓reduceIte,Nat.not_lt.2 hf]

theorem overflow_push_of_lt (h : s.sp < base + c.length) : (s.push base host c).overflow = true := by
  cases ho : s.overflow with
  | true => rw [push_of_overflow ho,ho]
  | false => simp only [push,ho,Bool.false_eq_true,↓reduceIte,h]

theorem pushAll_of_overflow (h : s.overflow = true) : s.pushAll base host cs = s := by
  induction cs with
  | nil => rfl
  | cons c cs ih => rw [pushAll_cons,push_of_overflow h,ih]

theorem overflow_pushAll_of_lt (hne : base ≤ s.sp ∨ cs ≠ [])
    (h : s.sp < base + totalLength cs) : (s.pushAll base host cs).overflow = true := by
  induction cs generalizing s with
  | nil =>
    rw [totalLength_nil] at h
    exact (hne.elim (fun hb => by omega) fun hn => absurd rfl hn)
  | cons c cs ih =>
    rw [pushAll_cons]
    cases ho : (s.push base host c).overflow with
    | true => rw [pushAll_of_overflow ho,ho]
    | false =>
      have hf : base + c.length ≤ s.sp := by
        by_contra hc
        rw [overflow_push_of_lt (by omega)] at ho
        cases ho
      have hs : s.overflow = false := by
        cases hs : s.overflow with
        | false => rfl
        | true => rw [push_of_overflow hs,hs] at ho; cases ho
      rw [push_of_fit hs hf]
      rw [totalLength_cons] at h
      exact ih (.inl (by dsimp only; omega)) (by dsimp only; omega)

/-- The pieces one behind the other, the last one first. -/
structure Pushed (base host : Nat) (cs : List (List UInt8)) (s s' : Descent) : Prop where
  sp : s'.sp = s.sp - totalLength cs
  overflow : s'.overflow = false
  block : Holds s'.mem (hostOf base host s'.sp) cs.reverse.flatten
  frame : ∀ i, i < hostOf base host s'.sp ∨ hostOf base host s.sp ≤ i → s'.mem i = s.mem i

theorem pushed_of_fit (h : s.overflow = false) (hf : base + totalLength cs ≤ s.sp) :
    Pushed base host cs s (s.pushAll base host cs) := by
  induction cs generalizing s with
  | nil => exact ⟨rfl,h,holds_nil,fun _ _ => rfl⟩
  | cons c cs ih =>
    rw [totalLength_cons] at hf
    rw [pushAll_cons,push_of_fit h (by omega)]
    have p := ih (s := ⟨s.sp - c.length,false,
      put s.mem (hostOf base host (s.sp - c.length)) c⟩) rfl (by dsimp only; omega)
    have hsp := p.sp
    dsimp only at hsp
    refine ⟨by rw [hsp,totalLength_cons]; omega,p.overflow,?_,?_⟩
    · rw [reverse_cons,flatten_append,holds_append]
      refine ⟨p.block,?_⟩
      have hlen : cs.reverse.flatten.length = totalLength cs := by
        simp [totalLength]
      have hat : hostOf base host (pushAll base host cs ⟨s.sp - c.length,false,
          put s.mem (hostOf base host (s.sp - c.length)) c⟩).sp + cs.reverse.flatten.length =
          hostOf base host (s.sp - c.length) := by
        rw [hsp,hlen]
        unfold hostOf
        omega
      rw [hat,flatten_singleton]
      exact holds_put.congr fun i hi _ => p.frame i (.inr hi)
    · intro i hi
      have hi' : i < hostOf base host (pushAll base host cs ⟨s.sp - c.length,false,
          put s.mem (hostOf base host (s.sp - c.length)) c⟩).sp ∨
          hostOf base host (s.sp - c.length) ≤ i := by
        refine hi.imp id fun hi => ?_
        unfold hostOf at *
        omega
      rw [p.frame i hi']
      refine put_other ?_
      rw [hsp] at hi
      unfold hostOf at *
      omega

/-- Nothing was written but between `host` and the place of `top`. -/
structure Inside (base host top : Nat) (m : Bytes) (s : Descent) : Prop where
  sp : s.sp ≤ top
  frame : ∀ i, i < host ∨ hostOf base host top ≤ i → s.mem i = m i

theorem Inside.push (h : Inside base host top m s) :
    Inside base host top m (s.push base host c) := by
  simp only [Descent.push]
  split
  · exact h
  · split
    · exact ⟨h.sp,h.frame⟩
    · rename_i hf
      have := h.sp
      refine ⟨by dsimp only; omega,fun i hi => ?_⟩
      dsimp only
      rw [put_other (by unfold hostOf at *; omega),h.frame i hi]

theorem Inside.pushAll (h : Inside base host top m s) :
    Inside base host top m (s.pushAll base host cs) := by
  induction cs generalizing s with
  | nil => exact h
  | cons c cs ih => exact ih h.push

theorem Inside.lower {m : Bytes} (h : Inside base host top m s) {sp : Nat} (hsp : sp ≤ s.sp) :
    Inside base host top m { s with sp := sp } := ⟨Nat.le_trans hsp h.sp,h.frame⟩

end Descent

variable {sp : Nat} {cs : List (List UInt8)}

/-- In a block of pieces pushed from `sp` down every piece stands at its place. -/
theorem holds_places (hf : base + totalLength cs ≤ sp)
    (h : Holds m (hostOf base host (sp - totalLength cs)) cs.reverse.flatten) :
    List.Forall₂ (fun va c => Holds m (hostOf base host va) c) (places sp cs) cs := by
  induction cs generalizing sp with
  | nil => exact .nil
  | cons c cs ih =>
    rw [totalLength_cons] at hf h
    rw [reverse_cons,flatten_append,holds_append,flatten_singleton] at h
    have hlen : cs.reverse.flatten.length = totalLength cs := by
      simp [totalLength]
    refine .cons ?_ (ih (by omega) ?_)
    · have hat : hostOf base host (sp - (c.length + totalLength cs)) + cs.reverse.flatten.length =
          hostOf base host (sp - c.length) := by
        rw [hlen]
        unfold hostOf
        omega
      rw [← hat]
      exact h.2
    · rw [Nat.sub_sub]
      exact h.1

/-- A place and the number of bytes there. -/
def areas (sp : Nat) (cs : List (List UInt8)) : List (Nat × Nat) :=
  (places sp cs).zip (cs.map List.length)

theorem areas_within (hf : totalLength cs ≤ sp) :
    ∀ x ∈ areas sp cs, sp - totalLength cs ≤ x.1 ∧ x.1 + x.2 ≤ sp := by
  induction cs generalizing sp with
  | nil => intro x hx; cases hx
  | cons c cs ih =>
    rw [totalLength_cons] at hf ⊢
    intro x hx
    simp only [areas,places,map_cons,zip_cons_cons,mem_cons] at hx
    rcases hx with rfl | hx
    · dsimp only
      omega
    · have := ih (by omega : totalLength cs ≤ sp - c.length) x hx
      omega

theorem areas_apart (hf : totalLength cs ≤ sp) :
    (areas sp cs).Pairwise fun x y => y.1 + y.2 ≤ x.1 := by
  induction cs generalizing sp with
  | nil => exact .nil
  | cons c cs ih =>
    rw [totalLength_cons] at hf
    refine .cons (fun y hy => ?_) (ih (by omega : totalLength cs ≤ sp - c.length))
    exact (areas_within (by omega) y hy).2

end Miku.Lib
