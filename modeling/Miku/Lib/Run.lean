namespace Miku.Lib

variable {σ ο : Type} {step : σ → ο → σ} {P : σ → ο → Prop} {Inv : σ → Prop}

/-- `P` holds at every step of the run that starts in `s`. -/
def Along (step : σ → ο → σ) (P : σ → ο → Prop) : σ → List ο → Prop
  | _, [] => True
  | s, o :: os => P s o ∧ Along step P (step s o) os

instance instDecidableAlong [∀ s o, Decidable (P s o)] :
    (s : σ) → (os : List ο) → Decidable (Along step P s os)
  | _, [] => inferInstanceAs (Decidable True)
  | s, o :: os =>
    have := instDecidableAlong (step s o) os
    inferInstanceAs (Decidable (P s o ∧ Along step P (step s o) os))

theorem Along.imp (h : ∀ s o, P s o → Q s o) (ha : Along step P s os) : Along step Q s os := by
  induction os generalizing s with
  | nil => trivial
  | cons o os ih => exact ⟨h s o ha.1,ih ha.2⟩

theorem Along.and (hp : Along step P s os) (hq : Along step Q s os) :
    Along step (fun s o => P s o ∧ Q s o) s os := by
  induction os generalizing s with
  | nil => trivial
  | cons o os ih => exact ⟨⟨hp.1,hq.1⟩,ih hp.2 hq.2⟩

theorem Along.split (h : Along step P s (os ++ os')) :
    Along step P s os ∧ Along step P (os.foldl step s) os' := by
  induction os generalizing s with
  | nil => exact ⟨trivial,h⟩
  | cons o os ih => exact ⟨⟨h.1,(ih h.2).1⟩,(ih h.2).2⟩

/-- An invariant kept by every step that meets `P` holds wherever such a run
gets to. -/
theorem Along.invariant (hstep : ∀ s o, Inv s → P s o → Inv (step s o))
    (ha : Along step P s os) (hs : Inv s) : Inv (os.foldl step s) := by
  induction os generalizing s with
  | nil => exact hs
  | cons o os ih => exact ih ha.2 (hstep s o hs ha.1)

/-- What holds at a step that meets `P` in a state of the invariant holds all along. -/
theorem Along.imp_of_invariant (I : σ → Prop) (hpq : ∀ s o, I s → P s o → Q s o)
    (hstep : ∀ s o, I s → P s o → I (step s o)) (ha : Along step P s os) (hs : I s) :
    Along step Q s os := by
  induction os generalizing s with
  | nil => trivial
  | cons o os ih => exact ⟨hpq s o hs ha.1,ih ha.2 (hstep s o hs ha.1)⟩

/-- Where an invariant that `P` keeps makes `P` and `Q` agree, so do runs. -/
theorem Along.congr (I : σ → Prop) (hpq : ∀ s o, I s → (P s o ↔ Q s o))
    (hstep : ∀ s o, I s → P s o → I (step s o)) (os : List ο)
    (hs : I s) : Along step P s os ↔ Along step Q s os := by
  induction os generalizing s with
  | nil => exact Iff.rfl
  | cons o os ih =>
    constructor
    · rintro ⟨hp,ha⟩
      exact ⟨(hpq s o hs).mp hp,(ih (hstep s o hs hp)).mp ha⟩
    · rintro ⟨hq,ha⟩
      have hp := (hpq s o hs).mpr hq
      exact ⟨hp,(ih (hstep s o hs hp)).mpr ha⟩

/-- The rule for a run that is followed by one of another machine. -/
theorem Along.simulation {τ : Type} {step' : τ → ο → τ} {R : σ → τ → Prop}
    (hstep : ∀ s x o, R s x → P s o → R (step s o) (step' x o)) {x : τ}
    (ha : Along step P s os) (h : R s x) : R (os.foldl step s) (os.foldl step' x) := by
  induction os generalizing s x with
  | nil => exact h
  | cons o os ih => exact ih ha.2 (hstep s x o h ha.1)

end Miku.Lib
