import Mathlib.Data.Set.Card

namespace Miku.Lib
open Function List

variable {ι κ β : Type} [DecidableEq ι] {refs : κ → Option ι} {i a : ι} {k : κ}

/-- Those that refer to `i`. -/
def holders (refs : κ → Option ι) (i : ι) : Set κ := {k | refs k = some i}

/-- The places `e b`, empty before, are filled as `g` says. -/
structure Filled (refs refs' : κ → Option ι) (e : β → κ) (g : β → Option ι) : Prop where
  inj : Function.Injective e
  before : ∀ b, refs (e b) = none
  after : ∀ b, refs' (e b) = g b
  other : ∀ k, (∀ b, e b ≠ k) → refs' k = refs k

omit [DecidableEq ι] in
/-- Who refers to `i` after that, is one of those before or one of the new ones. -/
theorem Filled.encard {e : β → κ} (h : Filled refs refs' e g) :
    (holders refs' i).encard = (holders refs i).encard + (holders g i).encard := by
  have hu : holders refs' i = holders refs i ∪ e '' holders g i := by
    ext k
    by_cases hk : ∃ b, e b = k
    · obtain ⟨b,rfl⟩ := hk
      have hm : e b ∈ e '' holders g i ↔ b ∈ holders g i := h.inj.mem_set_image
      simp only [Set.mem_union,hm]
      simp [holders,h.before,h.after]
    · have hn : k ∉ e '' holders g i := fun ⟨b,_,hb⟩ => hk ⟨b,hb⟩
      simp only [Set.mem_union,hn,or_false]
      simp [holders,h.other k fun b hb => hk ⟨b,hb⟩]
  have hd : Disjoint (holders refs i) (e '' holders g i) := by
    rw [Set.disjoint_right]
    rintro _ ⟨b,_,rfl⟩ hb
    rw [holders,Set.mem_ofPred_eq,h.before] at hb
    cases hb
  rw [hu,Set.encard_union_eq hd,h.inj.encard_image]

theorem encard_holders_fill [DecidableEq κ] (hb : refs k = none) (ha : refs' k = some a)
    (ho : ∀ j, j ≠ k → refs' j = refs j) :
    (holders refs' i).encard = (holders refs i).encard + ((if a = i then 1 else 0 : Nat) : ℕ∞) := by
  have h : Filled refs refs' (fun _ : Unit => k) (fun _ => some a) :=
    ⟨fun _ _ _ => rfl,fun _ => hb,fun _ => ha,fun j hj => ho j fun he => hj () he.symm⟩
  rw [h.encard]
  congr 1
  by_cases hi : a = i
  · have : holders (fun _ : Unit => some a) i = {()} := by
      ext u
      simp [holders,hi]
    rw [this,Set.encard_singleton,if_pos hi]
    rfl
  · have : holders (fun _ : Unit => some a) i = ∅ := by
      ext u
      simp [holders,hi]
    rw [this,Set.encard_empty,if_neg hi]
    rfl

theorem count_filterMap_range (g : Nat → Option ι) (n : Nat) (hn : ∀ k, n ≤ k → g k = none) :
    (((List.range n).filterMap g).count i : ℕ∞) = (holders g i).encard := by
  induction n generalizing g with
  | zero =>
    have : holders g i = ∅ := by
      ext k
      simp [holders,hn k (Nat.zero_le k)]
    rw [this,Set.encard_empty]
    rfl
  | succ n ih =>
    -- the last place is filled behind the others
    let g' := update g n none
    have hg' : ∀ k, n ≤ k → g' k = none := by
      intro k hk
      by_cases h : k = n
      · simp [g',h]
      · simp only [g',update_of_ne h]
        exact hn k (by omega)
    have he : (List.range n).filterMap g = (List.range n).filterMap g' := by
      apply filterMap_congr
      intro k hk
      have := mem_range.mp hk
      simp [g',update_of_ne (show k ≠ n by omega)]
    rw [range_succ,filterMap_append,count_append,he,Nat.cast_add,ih g' hg']
    cases hgn : g n with
    | none =>
      have : g' = g := by
        funext k
        by_cases h : k = n
        · simp [g',h,hgn]
        · simp [g',h]
      simp [this,hgn]
    | some a =>
      have hf : (holders g i).encard = (holders g' i).encard + _ :=
        encard_holders_fill (hg' n .refl) hgn fun j hj => (update_of_ne hj _ _).symm
      rw [hf]
      simp [hgn,count_singleton]

theorem eq_sub_of_cast_eq_add {a b : Nat} (h : (a : ℕ∞) = x + b) :
    x = ((a - b : Nat) : ℕ∞) := by
  have hx : x ≠ ⊤ := by
    rintro rfl
    simp at h
  lift x to ℕ using hx
  norm_cast at h ⊢
  omega

end Miku.Lib
