import Mathlib.Logic.Function.Basic

namespace Miku.Lib
open Function

variable {κ : Type} {home : κ → List Nat} {key : Nat → Option κ} {i : Nat} {k : κ}

/-- A table of slots, each empty or held by a key, in which a key sits only in slots of its
home, and in one at a time. -/
structure Seated (home : κ → List Nat) (key : Nat → Option κ) : Prop where
  at_home : ∀ i k, key i = some k → i ∈ home k
  unique : ∀ i j k, key i = some k → key j = some k → i = j

/-- Where a search of its home finds the key. -/
def seat [DecidableEq κ] (home : κ → List Nat) (key : Nat → Option κ) (k : κ) : Option Nat :=
  (home k).find? (fun i => key i = some k)

namespace Seated

theorem empty (home : κ → List Nat) : Seated home (fun _ => none) :=
  ⟨fun _ _ h => (nomatch h),fun _ _ _ h => (nomatch h)⟩

section Search

variable [DecidableEq κ]

theorem seat_eq_some (h : Seated home key) : seat home key k = some i ↔ key i = some k := by
  unfold seat
  constructor
  · intro hf
    simpa using List.find?_some hf
  · intro hk
    cases hf : (home k).find? (fun i => key i = some k) with
    | none =>
      have := List.find?_eq_none.mp hf i (h.at_home i k hk)
      exact absurd hk (by simpa using this)
    | some j =>
      have hj : key j = some k := by simpa using List.find?_some hf
      exact congrArg some (h.unique j i k hj hk)

theorem seat_eq_none (h : Seated home key) : seat home key k = none ↔ ∀ i, key i ≠ some k := by
  constructor
  · intro hn i hk
    rw [h.seat_eq_some.mpr hk] at hn
    cases hn
  · intro hn
    cases hs : seat home key k with
    | none => rfl
    | some i => exact absurd (h.seat_eq_some.mp hs) (hn i)

end Search

theorem sub (h : Seated home key) (hs : ∀ i k, key' i = some k → key i = some k) :
    Seated home key' :=
  ⟨fun i k hk => h.at_home i k (hs i k hk),
    fun i j k hi hj => h.unique i j k (hs i k hi) (hs j k hj)⟩

/-- A key may take a slot of its home if it sits nowhere else. -/
theorem put (h : Seated home key) (hi : i ∈ home k) (hk : ∀ j, key j = some k → j = i) :
    Seated home (update key i (some k)) := by
  have hput : ∀ j l, update key i (some k) j = some l →
      (j = i ∧ k = l) ∨ (j ≠ i ∧ key j = some l) := by
    intro j l hj
    by_cases hji : j = i
    · subst hji
      rw [update_self] at hj
      exact .inl ⟨rfl,Option.some.inj hj⟩
    · rw [update_of_ne hji] at hj
      exact .inr ⟨hji,hj⟩
  refine ⟨?_,?_⟩
  · intro j l hj
    rcases hput j l hj with ⟨rfl,rfl⟩ | ⟨-,hj⟩
    · exact hi
    · exact h.at_home j l hj
  · intro j j' l hj hj'
    rcases hput j l hj with ⟨hji,rfl⟩ | ⟨hne,hkj⟩ <;>
      rcases hput j' _ hj' with ⟨hji',hl⟩ | ⟨hne',hkj'⟩
    · exact hji.trans hji'.symm
    · exact absurd (hk j' hkj') hne'
    · exact absurd (hk j (hl ▸ hkj)) hne
    · exact h.unique j j' l hkj hkj'

end Seated

end Miku.Lib
