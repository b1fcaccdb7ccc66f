import Mathlib.Algebra.Group.Pi.Basic
import Mathlib.Algebra.BigOperators.Group.List.Basic

namespace Miku.Lib
open List

variable {α : Type} {M : Type} [AddCommMonoid M]

/-- The sum of a weight over a list of indices. -/
def tally (is : List α) (f : α → M) : M := (is.map f).sum

@[simp] theorem tally_nil (f : α → M) : tally [] f = 0 := rfl

@[simp] theorem tally_cons (i : α) (is : List α) (f : α → M) :
    tally (i :: is) f = f i + tally is f := by
  simp [tally]

@[simp] theorem tally_append (is js : List α) (f : α → M) :
    tally (is ++ js) f = tally is f + tally js f := by
  simp [tally]

variable {is : List α} {f : α → M}

theorem tally_congr (h : ∀ i ∈ is, f i = g i) : tally is f = tally is g := by
  unfold tally
  rw [map_congr_left h]

theorem tally_zero (h : ∀ i ∈ is, f i = 0) : tally is f = 0 := by
  induction is with
  | nil => rfl
  | cons i is ih =>
    rw [tally_cons,h i mem_cons_self,ih (fun j hj => h j (mem_cons_of_mem _ hj)),add_zero]

theorem tally_split [DecidableEq α] (hn : is.Nodup) (hi : i ∈ is) (f : α → M) :
    ∃ rest, tally is f = rest + f i ∧
      ∀ g : α → M, (∀ j, j ≠ i → g j = f j) → tally is g = rest + g i := by
  induction is with
  | nil => simp at hi
  | cons k ks ih =>
    obtain ⟨hk,hn⟩ := nodup_cons.mp hn
    rcases mem_cons.mp hi with rfl | hm
    · refine ⟨tally ks f,by rw [tally_cons,add_comm],?_⟩
      intro g hg
      rw [tally_cons,add_comm]
      exact congrArg (· + g i) (tally_congr fun j hj => hg j (fun he => hk (he ▸ hj)))
    · obtain ⟨rest,hf,hrest⟩ := ih hn hm
      refine ⟨f k + rest,by rw [tally_cons,hf,add_assoc],?_⟩
      intro g hg
      rw [tally_cons,hrest g hg,hg k (fun he => hk (he ▸ hm)),add_assoc]

theorem tally_apply {ι : Type} (is : List α) (f : α → ι → M) (x : ι) :
    tally is f x = tally is (fun i => f i x) := by
  induction is with
  | nil => rfl
  | cons i is ih =>
    simp only [tally_cons,Pi.add_apply]
    rw [ih]

theorem le_tally (h : i ∈ is) (f : α → Nat) : f i ≤ tally is f := by
  induction is with
  | nil => simp at h
  | cons j js ih =>
    rw [tally_cons]
    rcases mem_cons.mp h with rfl | hm
    · omega
    · have := ih hm
      omega

theorem add_le_tally (hi : i ∈ is) (hj : j ∈ is) (hne : i ≠ j)
    (f : α → Nat) : f i + f j ≤ tally is f := by
  induction is with
  | nil => simp at hi
  | cons k ks ih =>
    rw [tally_cons]
    rcases mem_cons.mp hi with rfl | hmi <;> rcases mem_cons.mp hj with rfl | hmj
    · exact absurd rfl hne
    · have := le_tally hmj f
      omega
    · have := le_tally hmi f
      omega
    · have := ih hmi hmj
      omega

end Miku.Lib
