namespace Miku.Lib

variable {ε σ α β : Type} {x : EStateM ε σ α} {s : σ}

/-- The state that `x` leaves, whether it returns or fails. -/
def final (x : EStateM ε σ α) (s : σ) : σ :=
  match x s with
  | .ok _ t => t
  | .error _ t => t

variable {a : α}

theorem final_of_ok (h : x s = .ok a t) : final x s = t := by simp [final,h]

variable {e : ε}

theorem final_of_error (h : x s = .error e t) : final x s = t := by
  simp [final,h]

/-- Run from `s`, `x` returns with `Q` or fails with `E`, the state it leaves in
both cases included. -/
def Wp (x : EStateM ε σ α) (s : σ) (Q : α → σ → Prop) (E : ε → σ → Prop) : Prop :=
  match x s with
  | .ok a t => Q a t
  | .error e t => E e t

variable {E : ε → σ → Prop}

theorem Wp.imp (h : Wp x s Q E) (hq : ∀ a t, Q a t → Q' a t) (he : ∀ e t, E e t → E' e t) :
    Wp x s Q' E' := by
  unfold Wp at *
  cases hx : x s with
  | ok a t =>
    rw [hx] at h
    exact hq a t h
  | error e t =>
    rw [hx] at h
    exact he e t h

theorem Wp.mono (h : Wp x s Q E) (hq : ∀ a t, Q a t → Q' a t) : Wp x s Q' E :=
  h.imp hq fun _ _ h => h

theorem Wp.of_ok (h : x s = .ok a t) (hq : Q a t) : Wp x s Q E := by
  simp [Wp,h,hq]

theorem Wp.of_error (h : x s = .error e t) (he : E e t) : Wp x s Q E := by
  simp [Wp,h,he]

theorem Wp.ok (h : Wp x s Q E) (hx : x s = .ok a t) : Q a t := by
  simpa [Wp,hx] using h

theorem Wp.error (h : Wp x s Q E) (hx : x s = .error e t) : E e t := by
  simpa [Wp,hx] using h

/-- What holds however it ends, holds of the state that is left. -/
theorem Wp.final {P : σ → Prop} (h : Wp x s (fun _ t => P t) (fun _ t => P t)) : P (final x s) := by
  unfold Wp at h
  unfold Lib.final
  split at h <;> exact h

theorem Wp.exists_ok (h : Wp x s Q (fun _ _ => False)) : ∃ a t, x s = .ok a t ∧ Q a t := by
  unfold Wp at h
  cases hx : x s with
  | ok a t =>
    rw [hx] at h
    exact ⟨a,t,rfl,h⟩
  | error e t =>
    rw [hx] at h
    exact h.elim

theorem Wp.trivial : Wp x s (fun _ _ => True) (fun _ _ => True) := by
  unfold Wp
  cases x s with
  | ok a t => exact True.intro
  | error e t => exact True.intro

theorem Wp.pure (h : Q a s) : Wp (pure a : EStateM ε σ α) s Q E := h

theorem Wp.throw (h : E e s) : Wp (throw e : EStateM ε σ α) s Q E := h

theorem Wp.get (h : Q s s) : Wp (get : EStateM ε σ σ) s Q E := h

theorem Wp.modify {f : σ → σ} (h : Q ⟨⟩ (f s)) :
    Wp (modify f : EStateM ε σ PUnit) s Q E := h

variable {f : α → EStateM ε σ β}

theorem Wp.bind
    (h : Wp x s (fun a t => Wp (f a) t R E) E) : Wp (x >>= f) s R E := by
  unfold Wp at *
  cases hx : x s with
  | ok a t | error e t =>
    rw [hx] at h
    simpa [Bind.bind,EStateM.bind,hx] using h

/-- What every part does, a whole does, if it can be put together. -/
theorem Wp.seq {R : σ → σ → Prop} (ht : ∀ {s t u}, R s t → R t u → R s u)
    (hx : Wp x s (fun _ t => R s t) (fun _ t => R s t))
    (hf : ∀ a t, x s = .ok a t → Wp (f a) t (fun _ u => R t u) (fun _ u => R t u)) :
    Wp (x >>= f) s (fun _ u => R s u) (fun _ u => R s u) := by
  refine Wp.bind ?_
  unfold Wp at hx ⊢
  cases he : x s with
  | ok a t =>
    rw [he] at hx
    exact Wp.imp (hf a t he) (fun _ _ h => ht hx h) (fun _ _ h => ht hx h)
  | error e t =>
    rw [he] at hx
    exact hx

/-- Fail with `e` unless `b`. -/
def check (b : Bool) (e : ε) : EStateM ε σ PUnit := if b then pure ⟨⟩ else throw e

/-- Look at the state without changing it. -/
def reads (f : σ → Except ε α) : EStateM ε σ α := fun s =>
  match f s with
  | .ok a => .ok a s
  | .error e => .error e s

theorem Wp.check (h : b = true → Q ⟨⟩ s)
    (he : b = false → E e s) : Wp (check b e) s Q E := by
  cases b with
  | true => exact h rfl
  | false => exact he rfl

theorem Wp.reads {f : σ → Except ε α} (h : ∀ a, f s = .ok a → Q a s)
    (he : ∀ e, f s = .error e → E e s) : Wp (reads f) s Q E := by
  unfold Wp Lib.reads
  cases hf : f s with
  | ok a => exact h a hf
  | error e => exact he e hf

theorem Wp.look (he : P s)
    (h : ∀ a, g s = .ok a → Wp (f a) s R fun _ => P) : Wp (Lib.reads g >>= f) s R fun _ => P :=
  Wp.bind (Wp.reads h fun _ _ => he)

theorem Wp.ite [Decidable b] (h : x s = if b then .ok a t else .error e u) (hq : Q a t)
    (he : E e u) : Wp x s Q E := by
  unfold Wp
  rw [h]
  by_cases hb : b <;> simpa [hb]

instance instDecidableForallOk {y : Except ε α} {P : α → Prop} [∀ a, Decidable (P a)] :
    Decidable (∀ a, y = .ok a → P a) :=
  match y with
  | .ok a => decidable_of_iff (P a) ⟨fun h _ he => Except.ok.inj he ▸ h,fun h => h a rfl⟩
  | .error _ => .isTrue fun _ h => nomatch h

theorem bind_of_ok (h : x s = .ok a t) : (x >>= f) s = f a t := by
  simp [Bind.bind,EStateM.bind,h]

theorem bind_of_error (h : x s = .error e t) : (x >>= f) s = .error e t := by
  simp [Bind.bind,EStateM.bind,h]

theorem final_bind_of_ok (h : x s = .ok a t) : final (x >>= f) s = final (f a) t := by
  rw [final,bind_of_ok h,final]

theorem final_bind_of_error (h : x s = .error e t) : final (x >>= f) s = t := by
  rw [final,bind_of_error h]

theorem final_modify_bind {f : σ → σ} :
    final (modify f >>= g) s = final (g ⟨⟩) (f s) := rfl

theorem final_reads_bind {f : σ → Except ε α} :
    final (reads f >>= g) s = match f s with
      | .ok a => final (g a) s
      | .error _ => s := by
  cases h : f s with
  | ok a =>
    have hx : reads f s = .ok a s := by simp [reads,h]
    exact final_bind_of_ok hx
  | error e =>
    have hx : reads f s = .error e s := by simp [reads,h]
    exact final_bind_of_error hx

theorem final_bind_pure {g : α → β} : final (x >>= fun a => pure (g a)) s = final x s := by
  cases h : x s with
  | ok a t =>
    simp only [final,Bind.bind,EStateM.bind,h]
    rfl
  | error e t => simp only [final,Bind.bind,EStateM.bind,h]

/-- The loop rule: `I` speaks about what is left of the list. -/
theorem Wp.forM {f : α → EStateM ε σ PUnit} {I : List α → σ → Prop}
    (hstep : ∀ a as t, I (a :: as) t → Wp (f a) t (fun _ u => I as u) E)
    (h : I as s) : Wp (as.forM f) s (fun _ t => I [] t) E := by
  induction as generalizing s with
  | nil => exact h
  | cons a as ih => exact Wp.bind ((hstep a as s h).mono fun _ _ hi => ih hi)

theorem Wp.foldlM {f : β → α → EStateM ε σ β} {I : List α → β → σ → Prop}
    (hstep : ∀ a as b t, I (a :: as) b t → Wp (f b a) t (fun c u => I as c u) E) (h : I as b s) :
    Wp (as.foldlM f b) s (fun c t => I [] c t) E := by
  induction as generalizing s b with
  | nil => exact h
  | cons a as ih =>
    exact Wp.bind ((hstep a as b s h).mono fun _ _ hi => ih hi)

end Miku.Lib
