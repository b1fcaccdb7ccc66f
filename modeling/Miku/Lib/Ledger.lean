import Mathlib.Algebra.Group.Pi.Basic
import Mathlib.Algebra.Ring.Nat

namespace Miku.Lib.Ledger

variable {ι : Type} [DecidableEq ι]

/-- The weight of a single holder of `a`. -/
def one (a : ι) : ι → Nat := fun i => if i = a then 1 else 0

omit [DecidableEq ι] in
theorem add_apply (f g : ι → Nat) (i : ι) : (f + g) i = f i + g i := rfl

theorem one_self (a : ι) : one a a = 1 := if_pos rfl

theorem one_ne {a i : ι} (h : i ≠ a) : one a i = 0 := if_neg h

/-- A pool of resources, each with one exclusive holder or several counted ones. `refs` is
the recorded count, `excl` and `shared` are the holders that really exist; the record may
overstate but never understate. -/
structure Sound (held : ι → Prop) (refs excl shared : ι → Nat) : Prop where
  alone : ∀ i, excl i + min 1 (shared i) ≤ 1
  counted : ∀ i, shared i ≤ refs i
  kept : ∀ i, 0 < excl i + shared i → held i
  tracked : ∀ i, 1 < refs i → held i ∧ excl i = 0
  pos : ∀ i, 0 < refs i

/-- Handed out, with no holder on record yet. -/
structure Spare (held : ι → Prop) (refs excl shared : ι → Nat) (a : ι) : Prop where
  kept : held a
  noExcl : excl a = 0
  noShared : shared a = 0
  single : refs a ≤ 1

variable {held : ι → Prop} {refs shared : ι → Nat} {a : ι}

omit [DecidableEq ι] in
theorem Sound.mono (h : Sound held refs excl shared) (he : ∀ i, excl' i ≤ excl i)
    (hs : ∀ i, shared' i ≤ shared i) : Sound held refs excl' shared' := by
  refine ⟨?_,?_,?_,?_,h.pos⟩
  · intro i
    have := h.alone i
    have := he i
    have := hs i
    omega
  · exact fun i => Nat.le_trans (hs i) (h.counted i)
  · intro i hi
    have := he i
    have := hs i
    exact h.kept i (by omega)
  · intro i hi
    obtain ⟨hk,hz⟩ := h.tracked i hi
    exact ⟨hk,Nat.le_zero.mp (hz ▸ he i)⟩

omit [DecidableEq ι] in
theorem Sound.take (h : Sound held refs excl shared) (hf : ¬ held a)
    (hk : ∀ i, held' i ↔ held i ∨ i = a) :
    Sound held' refs excl shared ∧ Spare held' refs excl shared a := by
  have hz : ¬ 0 < excl a + shared a := fun hp => hf (h.kept a hp)
  refine ⟨⟨h.alone,h.counted,?_,?_,h.pos⟩,(hk a).mpr (.inr rfl),by omega,by omega,?_⟩
  · exact fun i hi => (hk i).mpr (.inl (h.kept i hi))
  · intro i hi
    obtain ⟨hki,hz⟩ := h.tracked i hi
    exact ⟨(hk i).mpr (.inl hki),hz⟩
  · exact Nat.le_of_not_lt fun hr => hf (h.tracked a hr).1

theorem Sound.add_excl (h : Sound held refs excl shared) (hs : Spare held refs excl shared a) :
    Sound held refs (excl + one a) shared := by
  refine ⟨?_,h.counted,?_,?_,h.pos⟩
  · intro i
    rw [add_apply]
    by_cases hi : i = a
    · subst hi
      rw [hs.noExcl,hs.noShared,one_self]
      decide
    · rw [one_ne hi]
      exact h.alone i
  · intro i hp
    by_cases hi : i = a
    · exact hi ▸ hs.kept
    · rw [add_apply,one_ne hi] at hp
      exact h.kept i hp
  · intro i hp
    have hi : i ≠ a := by
      rintro rfl
      have := hs.single
      omega
    rw [add_apply,one_ne hi]
    exact h.tracked i hp

theorem Sound.add_shared (h : Sound held refs excl shared) (hk : held a) (he : excl a = 0)
    (hr : shared a + 1 ≤ refs a) : Sound held refs excl (shared + one a) := by
  refine ⟨?_,?_,?_,h.tracked,h.pos⟩
  · intro i
    rw [add_apply]
    by_cases hi : i = a
    · subst hi
      rw [he]
      omega
    · rw [one_ne hi]
      exact h.alone i
  · intro i
    rw [add_apply]
    by_cases hi : i = a
    · subst hi
      rwa [one_self]
    · rw [one_ne hi]
      exact h.counted i
  · intro i hp
    by_cases hi : i = a
    · exact hi ▸ hk
    · rw [add_apply,one_ne hi] at hp
      exact h.kept i hp

theorem Sound.add_spare (h : Sound held refs excl shared) (hs : Spare held refs excl shared a) :
    Sound held refs excl (shared + one a) :=
  h.add_shared hs.kept hs.noExcl (by rw [hs.noShared]; exact h.pos a)

omit [DecidableEq ι] in
theorem Sound.release (h : Sound held refs excl shared) (hs : Spare held refs excl shared a)
    (hk : ∀ i, i ≠ a → held i → held' i) : Sound held' refs excl shared := by
  refine ⟨h.alone,h.counted,?_,?_,h.pos⟩
  · intro i hp
    have hi : i ≠ a := by
      rintro rfl
      rw [hs.noExcl,hs.noShared] at hp
      omega
    exact hk i hi (h.kept i hp)
  · intro i hr
    have hi : i ≠ a := by
      rintro rfl
      have := hs.single
      omega
    obtain ⟨hki,hz⟩ := h.tracked i hr
    exact ⟨hk i hi hki,hz⟩

theorem Sound.share (h : Sound held refs excl shared) (hp : 0 < shared a)
    (hr : ∀ i, refs' i = refs i + one a i) : Sound held refs' excl (shared + one a) := by
  have hex : excl a = 0 := by
    have := h.alone a
    omega
  have hk : held a := h.kept a (by omega)
  refine ⟨?_,?_,?_,?_,?_⟩
  · intro i
    rw [add_apply]
    by_cases hi : i = a
    · subst hi
      rw [hex]
      omega
    · rw [one_ne hi]
      exact h.alone i
  · intro i
    rw [hr,add_apply]
    have := h.counted i
    omega
  · intro i hpi
    by_cases hi : i = a
    · exact hi ▸ hk
    · rw [add_apply,one_ne hi] at hpi
      exact h.kept i hpi
  · intro i hri
    by_cases hi : i = a
    · exact hi ▸ ⟨hk,hex⟩
    · rw [hr,one_ne hi] at hri
      exact h.tracked i hri
  · intro i
    rw [hr]
    have := h.pos i
    omega

theorem Sound.unshare (h : Sound held refs excl (shared + one a)) (hm : 1 < refs a)
    (hr : ∀ i, refs' i = if i = a then refs a - 1 else refs i) : Sound held refs' excl shared := by
  have hle : ∀ i, shared i ≤ (shared + one a) i := fun i => Nat.le_add_right _ _
  have hmono := h.mono (fun i => .refl) hle
  refine ⟨hmono.alone,?_,hmono.kept,?_,?_⟩
  · intro i
    rw [hr]
    have hc := h.counted i
    rw [add_apply] at hc
    split
    · rename_i hi
      subst hi
      rw [one_self] at hc
      omega
    · rename_i hi
      rwa [one_ne hi] at hc
  · intro i hri
    rw [hr] at hri
    split at hri
    · rename_i hi
      exact hi ▸ h.tracked a hm
    · exact h.tracked i hri
  · intro i
    rw [hr]
    split
    · omega
    · exact h.pos i

theorem Sound.spare_of_last (h : Sound held refs excl (shared + one a)) (hr : refs a ≤ 1) :
    Spare held refs excl shared a := by
  have hc := h.counted a
  have hal := h.alone a
  rw [add_apply,one_self] at hc hal
  exact ⟨h.kept a (by rw [add_apply,one_self]; omega),by omega,by omega,hr⟩

theorem Sound.spare_of_excl (h : Sound held refs (excl + one a) shared) :
    Spare held refs excl shared a := by
  have hal := h.alone a
  rw [add_apply,one_self] at hal
  refine ⟨h.kept a (by rw [add_apply,one_self]; omega),by omega,by omega,?_⟩
  refine Nat.le_of_not_lt fun hr => ?_
  have hz := (h.tracked a hr).2
  rw [add_apply,one_self] at hz
  omega

omit [DecidableEq ι] in
theorem Sound.held_of_shared (h : Sound held refs excl shared) (hi : 0 < shared i) : held i :=
  h.kept i (by omega)

end Miku.Lib.Ledger
