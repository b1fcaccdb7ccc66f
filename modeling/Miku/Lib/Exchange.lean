import Mathlib.Data.List.Basic

/-! A client that asks several times and takes the first answer it accepts. What arrives
is put at the end of a queue; what is not taken stays there for the next question. -/

namespace Miku.Lib.Exchange
open List

variable {μ ρ : Type} (accept : μ → Option ρ)

/-- Take messages off the queue up to the first accepted. -/
def drain : List μ → Option (μ × ρ) × List μ
  | [] => (none,[])
  | m :: q =>
    match accept m with
    | some r => (some (m,r),q)
    | none => drain q

/-- One attempt: each element is what has arrived when the queue is looked at again. It
ends at the first accepted message or, with the list, at its timeout. -/
def await : List (List μ) → List μ → Option (μ × ρ) × List μ
  | [], q => (none,q)
  | arrived :: later, q =>
    match drain accept (q ++ arrived) with
    | (some a,q') => (some a,q')
    | (none,q') => await later q'

def attempts : Nat → List (List (List μ)) → List μ → Option (μ × ρ) × List μ
  | 0, _, q => (none,q)
  | _, [], q => (none,q)
  | n + 1, round :: rounds, q =>
    match await accept round q with
    | (some a,q') => (some a,q')
    | (none,q') => attempts n rounds q'

variable {accept} {m : μ} {r : ρ}

def accepted (accept : μ → Option ρ) (m : μ) : Option (μ × ρ) := (accept m).map (m,·)

theorem drain_fst : (drain accept q).1 = q.findSome? (accepted accept) := by
  induction q with
  | nil => rfl
  | cons x q ih =>
    rw [drain,findSome?_cons,accepted]
    cases accept x with
    | none => exact ih
    | some y => rfl

theorem drain_none (h : drain accept q = (none,q')) : q' = [] := by
  induction q with
  | nil => simpa [drain] using h.symm
  | cons x q ih =>
    cases hx : accept x with
    | none =>
      simp only [drain,hx] at h
      exact ih h
    | some y => simp [drain,hx] at h

variable {round : List (List μ)}

theorem await_cons : (await accept (arrived :: round) q).1 =
    ((q ++ arrived).findSome? (accepted accept)).or (await accept round []).1 := by
  rw [await,← drain_fst]
  cases h : drain accept (q ++ arrived) with
  | mk a q' =>
    cases a with
    | none => rw [drain_none h]; rfl
    | some a => rfl

theorem await_fst : (await accept round []).1 = round.flatten.findSome? (accepted accept) := by
  induction round with
  | nil => rfl
  | cons arrived round ih => rw [await_cons,ih,nil_append,flatten_cons,findSome?_append]

/-- After a timeout the queue is empty, unless it was never looked at. -/
theorem await_none (h : await accept round q = (none,q')) : q' = if round = [] then q else [] := by
  induction round generalizing q with
  | nil =>
    cases h
    rfl
  | cons arrived later ih =>
    rw [await] at h
    cases hd : drain accept (q ++ arrived) with
    | mk a q1 =>
      rw [hd] at h
      cases a with
      | some a => cases h
      | none =>
        rw [ih h,drain_none hd]
        split <;> rfl

/-- The first message that is accepted is taken, of those in the queue, once it is looked at, and
of those that come in the attempts. -/
theorem attempts_fst : (attempts accept n rounds q).1 =
    if (rounds.take n).flatten = [] then none
    else (q ++ (rounds.take n).flatten.flatten).findSome? (accepted accept) := by
  induction n generalizing rounds q with
  | zero => rfl
  | succ n ih =>
    cases rounds with
    | nil => rfl
    | cons round rounds =>
      rw [attempts,take_succ_cons,flatten_cons]
      cases round with
      | nil => exact ih
      | cons arrived round =>
        have hf : (await accept (arrived :: round) q).1 =
            (q ++ (arrived :: round).flatten).findSome? (accepted accept) := by
          rw [await_cons,await_fst,flatten_cons,← append_assoc,← findSome?_append]
        rw [if_neg (by simp),flatten_append,← append_assoc,findSome?_append,← hf]
        cases h : await accept (arrived :: round) q with
        | mk a q' =>
          cases a with
          | some a => rfl
          | none =>
            rw [await_none h,if_neg (by simp)]
            refine ih.trans ?_
            split
            · simp [*]
            · rfl

theorem attempts_nil : (attempts accept n rounds []).1 =
    (rounds.take n).flatten.flatten.findSome? (accepted accept) := by
  rw [attempts_fst]
  split
  · simp [*]
  · rfl

/-- An accepted message was in the queue or came in one of the attempts. -/
theorem attempts_some (h : attempts accept n rounds q = (some (m,r),q')) :
    (m ∈ q ∨ m ∈ (rounds.take n).flatten.flatten) ∧ accept m = some r := by
  have hf : (attempts accept n rounds q).1 = _ := attempts_fst
  rw [h] at hf
  split at hf
  · cases hf
  · obtain ⟨x,hx,ha⟩ := exists_of_findSome?_eq_some hf.symm
    obtain ⟨y,hy,he⟩ := Option.map_eq_some_iff.1 ha
    cases he
    exact ⟨mem_append.1 hx,hy⟩

end Miku.Lib.Exchange
