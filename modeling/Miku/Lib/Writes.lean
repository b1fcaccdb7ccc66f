import Mathlib.Logic.Nontrivial.Basic

namespace Miku.Lib
open Function List

variable {κ ν : Type} [DecidableEq κ]

def applyWrites (ws : List (κ × ν)) (f : κ → ν) : κ → ν :=
  ws.foldl (fun f w => update f w.1 w.2) f

/-- What the last write to `k` puts there. -/
def lastWrite (k : κ) : List (κ × ν) → Option ν
  | [] => none
  | w :: ws => (lastWrite k ws).or (if w.1 = k then some w.2 else none)

variable {ws : List (κ × ν)}

theorem applyWrites_append {f : κ → ν} :
    applyWrites (ws ++ vs) f = applyWrites vs (applyWrites ws f) := foldl_append

theorem applyWrites_apply (ws : List (κ × ν)) (f : κ → ν) (k : κ) :
    applyWrites ws f k = (lastWrite k ws).getD (f k) := by
  induction ws generalizing f with
  | nil => rfl
  | cons w ws ih =>
    refine (ih (update f w.1 w.2)).trans ?_
    cases h : lastWrite k ws with
    | some v => simp [lastWrite,h]
    | none =>
      by_cases hk : w.1 = k
      · subst hk
        simp [lastWrite,h]
      · simp [lastWrite,h,hk,update_of_ne (Ne.symm hk)]

theorem lastWrite_none (h : ∀ w ∈ ws, w.1 ≠ k) : lastWrite k ws = none := by
  induction ws with
  | nil => rfl
  | cons w ws ih =>
    simp [lastWrite,ih fun v hv => h v (mem_cons_of_mem _ hv),h w mem_cons_self]

theorem lastWrite_append : lastWrite k (ws ++ vs) = (lastWrite k vs).or (lastWrite k ws) := by
  induction ws with
  | nil => simp [lastWrite]
  | cons w ws ih => simp [lastWrite,ih,Option.or_assoc]

theorem mem_of_lastWrite (h : lastWrite k ws = some v) : (k,v) ∈ ws := by
  induction ws with
  | nil => simp [lastWrite] at h
  | cons w ws ih =>
    simp only [lastWrite,Option.or_eq_some_iff] at h
    rcases h with h | ⟨-,h⟩
    · exact mem_cons_of_mem _ (ih h)
    · split at h
      · rename_i hk
        cases h
        exact hk ▸ mem_cons_self
      · simp at h

theorem lastWrite_isSome {k : κ} {ws : List (κ × ν)} (h : k ∈ ws.map Prod.fst) :
    ∃ v, lastWrite k ws = some v := by
  induction ws with
  | nil => simp at h
  | cons w ws ih =>
    cases hl : lastWrite k ws with
    | some v => exact ⟨v,by simp [lastWrite,hl]⟩
    | none =>
      rcases mem_cons.mp h with hk | hk
      · exact ⟨w.2,by simp [lastWrite,hl,hk.symm]⟩
      · obtain ⟨v,hv⟩ := ih hk
        simp [hl] at hv

theorem lastWrite_of_mem (hn : (ws.map Prod.fst).Nodup)
    (h : (k,v) ∈ ws) : lastWrite k ws = some v := by
  induction ws with
  | nil => simp at h
  | cons w ws ih =>
    obtain ⟨hw,hn⟩ := nodup_cons.mp hn
    rcases mem_cons.mp h with rfl | h
    · have : lastWrite k ws = none := lastWrite_none fun x hx he => hw (List.mem_map.mpr ⟨x,hx,he⟩)
      simp [lastWrite,this]
    · simp [lastWrite,ih hn h]

/-- Renaming keys does not change the last write, where no other key is renamed to
the same. -/
theorem lastWrite_map {κ' : Type} [DecidableEq κ'] (f : κ → κ') (ws : List (κ × ν))
    (hf : ∀ w ∈ ws, f w.1 = f k → w.1 = k) :
    lastWrite (f k) (ws.map fun w => (f w.1,w.2)) = lastWrite k ws := by
  induction ws with
  | nil => rfl
  | cons w ws ih =>
    have hw : f w.1 = f k ↔ w.1 = k := ⟨hf w mem_cons_self,congrArg f⟩
    simp [lastWrite,hw,ih fun x hx => hf x (mem_cons_of_mem _ hx)]

end Miku.Lib
