import Mathlib.Data.Finset.Card
import Mathlib.Order.Interval.Finset.Nat
import Miku.Proofs.CacheLines

namespace Miku.Block
open Lib Function Option

namespace BufferCache

variable {c c' : BufferCache} {d k i : Nat} {data : Sectors}

theorem key_some (h : (c.entries i).key = some (d,k)) :
    (c.entries i).valid = true ∧ (c.entries i).dev = d ∧ (c.entries i).chunk = k := by
  unfold Entry.key at h
  split at h
  · rename_i hv
    cases h
    exact ⟨hv,rfl,rfl⟩
  · cases h

/-- The lines of `P` are gone, the others are as before. -/
structure Drops (c : BufferCache) (P : Nat → Nat → Prop) (c' : BufferCache) : Prop where
  placed : Placed c'
  gone : ∀ d k, P d k → c'.line d k = none
  kept : ∀ d k, ¬ P d k → c'.line d k = c.line d k

theorem drops_of_entries (h : Placed c) (hd : c'.data = c.data)
    (hk : ∀ i, c'.entries i = c.entries i ∨ (c'.key i = none ∧ ∀ d k, c.key i = some (d,k) → P d k))
    (hg : ∀ i d k, c'.key i = some (d,k) → ¬ P d k) : Drops c P c' := by
  have hsame : ∀ i d k, c'.key i = some (d,k) → c'.entries i = c.entries i := by
    intro i d k hi
    rcases hk i with he | ⟨hn,-⟩
    · exact he
    · exact absurd (hn.symm.trans hi) (fun h => (nomatch h))
  have hsub : ∀ i p, c'.key i = some p → c.key i = some p := by
    intro i p hi
    rw [← hi]
    simp [key,hsame i p.1 p.2 hi]
  have hplaced : Placed c' := Seated.sub h hsub
  refine ⟨hplaced,?_,?_⟩
  · intro d k hp
    exact (line_eq_none hplaced).mpr (fun i hi => hg i d k hi hp)
  · intro d k hp
    cases hl : c.line d k with
    | none =>
      exact (line_eq_none hplaced).mpr (fun i hi => (line_eq_none h).mp hl i (hsub i _ hi))
    | some ℓ =>
      obtain ⟨i,hi,rfl⟩ := (line_eq_some h).mp hl
      rcases hk i with he | ⟨-,hdrop⟩
      · refine (line_eq_some hplaced).mpr ⟨i,?_,by rw [he,hd]⟩
        simpa [key,he] using hi
      · exact absurd (hdrop d k hi) hp

theorem drop_chunk_entries (drop : Entry → Entry) (hdrop : ∀ e, (drop e).valid = false)
    (d k : Nat) (l : List Nat) (c : BufferCache) :
    (l.foldl (fun c i => if (c.entries i).isFor d k then c.setEntry i (drop (c.entries i)) else c)
        c).data = c.data ∧ ∀ j,
      (l.foldl (fun c i => if (c.entries i).isFor d k then c.setEntry i (drop (c.entries i)) else c)
        c).entries j =
        if j ∈ l ∧ (c.entries j).isFor d k then drop (c.entries j) else c.entries j := by
  induction l generalizing c with
  | nil => exact ⟨rfl,fun j => by simp⟩
  | cons i is ih =>
    rw [List.foldl_cons]
    by_cases hi : (c.entries i).isFor d k = true
    · rw [if_pos hi]
      obtain ⟨h1,h2⟩ := ih (c.setEntry i (drop (c.entries i)))
      refine ⟨h1,?_⟩
      intro j
      rw [h2]
      by_cases hj : j = i
      · subst hj
        have hgone : (drop (c.entries j)).isFor d k = false := by
          simp [Entry.isFor,hdrop]
        simp [setEntry,hgone,hi]
      · simp [setEntry,hj]
    · rw [if_neg hi]
      obtain ⟨h1,h2⟩ := ih c
      refine ⟨h1,?_⟩
      intro j
      rw [h2]
      by_cases hj : j = i
      · subst hj
        simp [hi]
      · simp [hj]

theorem drop_chunk_spec {drop : Entry → Entry} (h : Placed c) (hdrop : ∀ e, (drop e).valid = false)
    (d k : Nat) : Drops c (fun d' k' => d' = d ∧ k' = k) (c.dropChunk d k drop) := by
  obtain ⟨hdata,hent⟩ := drop_chunk_entries drop hdrop d k (home d k) c
  have hnone : ∀ e, (drop e).key = none := fun e => by simp [Entry.key,hdrop]
  refine drops_of_entries h hdata ?_ ?_
  · intro i
    by_cases hi : i ∈ home d k ∧ (c.entries i).isFor d k = true
    · refine .inr ⟨?_,?_⟩
      · simp [key,dropChunk,hent,if_pos hi,hnone]
      · intro d' k' hk
        exact Prod.mk.injEq _ _ _ _ ▸ some.inj (hk.symm.trans (isFor_iff.mp hi.2))
    · left
      simp [dropChunk,hent,if_neg hi]
  · rintro i _ _ hi ⟨rfl,rfl⟩
    simp only [key,dropChunk,hent] at hi
    split at hi
    · rw [hnone] at hi
      cases hi
    · rename_i hno
      exact hno ⟨h.at_home i (_,_) hi,isFor_iff.mpr hi⟩

theorem drop_chunks_spec (drop : Entry → Entry) (hdrop : ∀ e, (drop e).valid = false) (d : Nat)
    (l : List Nat) (h : Placed c) : Drops c (fun d' k' => d' = d ∧ k' ∈ l)
      (l.foldl (fun c k => c.dropChunk d k drop) c) := by
  induction l generalizing c with
  | nil => exact ⟨h,fun _ _ hp => absurd hp.2 List.not_mem_nil,fun _ _ _ => rfl⟩
  | cons k ks ih =>
    have h1 := drop_chunk_spec h hdrop d k
    have h2 := ih h1.placed
    refine ⟨h2.placed,?_,?_⟩
    · rintro d' k' ⟨hd,hk⟩
      by_cases hks : k' ∈ ks
      · exact h2.gone d' k' ⟨hd,hks⟩
      · have hkk : k' = k := (List.mem_cons.mp hk).resolve_right hks
        exact (h2.kept d' k' (fun hp => hks hp.2)).trans (h1.gone d' k' ⟨hd,hkk⟩)
    · intro d' k' hp
      have hks : ¬ (d' = d ∧ k' ∈ ks) := fun hq => hp ⟨hq.1,List.mem_cons_of_mem k hq.2⟩
      have hkk : ¬ (d' = d ∧ k' = k) := fun hq => hp ⟨hq.1,List.mem_cons.mpr (.inl hq.2)⟩
      exact (h2.kept d' k' hks).trans (h1.kept d' k' hkk)

theorem invalidate_range_spec (h : Placed c) (d lba count : Nat) :
    Drops c (fun d' k' => d' = d ∧ k' ∈ chunksOf lba count) (c.invalidateRange d lba count) :=
  drop_chunks_spec _ (fun _ => rfl) d (chunksOf lba count) h

/-- Chunk `k` lies inside the range. -/
def Covers (lba count k : Nat) : Prop :=
  lba ≤ k * chunkSectors ∧ k * chunkSectors + chunkSectors ≤ lba + count

theorem covers_iff (lba count k : Nat) : Covers lba count k ↔
    (lba + chunkSectors - 1) / chunkSectors ≤ k ∧ k < (lba + count) / chunkSectors := by
  unfold Covers chunkSectors
  omega

theorem invalidate_covered_spec (h : Placed c) (d lba count : Nat) :
    Drops c (fun d' k' => d' = d ∧ Covers lba count k') (c.invalidateCovered d lba count) := by
  simp only [covers_iff]
  unfold invalidateCovered
  dsimp only
  split
  · exact ⟨h,fun _ _ hp => by omega,fun _ _ _ => rfl⟩
  split
  · refine drops_of_entries h rfl ?_ ?_
    · intro i
      by_cases hi : ((c.entries i).valid && (c.entries i).dev == d &&
          (lba + chunkSectors - 1) / chunkSectors ≤ (c.entries i).chunk &&
          (c.entries i).chunk < (lba + count) / chunkSectors) = true
      · refine .inr ⟨by simp only [key,hi,↓reduceIte]; rfl,?_⟩
        intro d' k' hk
        simp only [Bool.and_eq_true,beq_iff_eq,decide_eq_true_eq] at hi
        obtain ⟨-,rfl,rfl⟩ := key_some hk
        exact ⟨hi.1.1.2,hi.1.2,hi.2⟩
      · left
        simp [hi]
    · intro i d' k' hk hp
      dsimp only [key] at hk
      split at hk
      · cases hk
      · rename_i hno
        obtain ⟨hv,hd,hc⟩ := key_some hk
        refine hno ?_
        simp [hv,hd,hc,hp.1,hp.2.1,hp.2.2]
  · have hl := drop_chunks_spec dropClean (fun _ => rfl) d
      (List.range' ((lba + chunkSectors - 1) / chunkSectors)
        ((lba + count) / chunkSectors - (lba + chunkSectors - 1) / chunkSectors)) h
    refine ⟨hl.placed,fun d' k' hp => hl.gone d' k' ⟨hp.1,?_⟩,fun d' k' hp => hl.kept d' k' ?_⟩
    · rw [List.mem_range'_1]
      omega
    · rw [List.mem_range'_1]
      omega

/-- The dirty lines `a` to `b` of a device turn clean. -/
structure Cleans (c : BufferCache) (d a b : Nat) (c' : BufferCache) : Prop where
  placed : Placed c'
  cleaned : ∀ k, a ≤ k → k < b → ∃ data, c.line d k = some ⟨true,data⟩ ∧
    c'.line d k = some ⟨false,data⟩
  kept : ∀ d' k', ¬ (d' = d ∧ a ≤ k' ∧ k' < b) → c'.line d' k' = c.line d' k'

/-- `out` has the data of the lines `a` to `b`, counted from `first`. -/
def Gathers (c : BufferCache) (d first a b : Nat) (out : Sectors) : Prop :=
  ∀ k, a ≤ k → k < b → ∀ ℓ, c.line d k = some ℓ →
    ∀ j, j < chunkSectors → out ((k - first) * chunkSectors + j) = ℓ.data j

/-- A dirty slot of the device, at or after a chunk. -/
def Pending (c : BufferCache) (d after i : Nat) : Prop :=
  ∃ k, c.key i = some (d,k) ∧ after ≤ k ∧ (c.entries i).dirty = true

/-- `best` is the lowest pending slot of `S`. -/
def Lowest (c : BufferCache) (d after : Nat) (S : Nat → Prop) : Option (Nat × Nat) → Prop
  | none => ∀ i, S i → ¬ Pending c d after i
  | some (slot,first) => S slot ∧ c.key slot = some (d,first) ∧ after ≤ first ∧
      (c.entries slot).dirty = true ∧
      ∀ i k, S i → c.key i = some (d,k) → after ≤ k → (c.entries i).dirty = true → first ≤ k

theorem pending_iff : Pending c d after i ↔
    ((c.entries i).valid && (c.entries i).dirty && (c.entries i).dev == d &&
      after ≤ (c.entries i).chunk) = true := by
  unfold Pending key Entry.key
  cases (c.entries i).valid <;> cases (c.entries i).dirty <;> simp [and_comm]

section

variable (h : Lowest c d after S best)
include h

theorem lowest_step (i : Nat) : Lowest c d after (fun j => j = i ∨ S j) (let e := c.entries i
       if e.valid && e.dirty && e.dev == d && after ≤ e.chunk &&
           (best.map (fun b => decide (e.chunk < b.2))).getD true
       then some (i,e.chunk) else best) := by
  by_cases hp : Pending c d after i
  · have hb := pending_iff.mp hp
    obtain ⟨k,hk,hle,hdirty⟩ := hp
    obtain ⟨-,-,hchunk⟩ := key_some hk
    subst hchunk
    dsimp only
    rw [hb,Bool.true_and]
    cases best with
    | none =>
      refine ⟨.inl rfl,hk,hle,hdirty,?_⟩
      rintro j k' (rfl | hj) hk' hle' hdirty'
      · exact le_of_eq (congrArg Prod.snd (some.inj (hk.symm.trans hk')))
      · exact absurd ⟨k',hk',hle',hdirty'⟩ (h j hj)
    | some b =>
      obtain ⟨slot,first⟩ := b
      obtain ⟨hs,hks,hles,hds,hmin⟩ := h
      simp only [map_some,getD_some,decide_eq_true_eq]
      split
      · rename_i hlt
        refine ⟨.inl rfl,hk,hle,hdirty,?_⟩
        rintro j k' (rfl | hj) hk' hle' hdirty'
        · exact le_of_eq (congrArg Prod.snd (some.inj (hk.symm.trans hk')))
        · exact le_trans hlt.le (hmin j k' hj hk' hle' hdirty')
      · rename_i hge
        refine ⟨.inr hs,hks,hles,hds,?_⟩
        rintro j k' (rfl | hj) hk' hle' hdirty'
        · have := congrArg Prod.snd (some.inj (hk.symm.trans hk'))
          exact le_trans (not_lt.mp hge) (le_of_eq this)
        · exact hmin j k' hj hk' hle' hdirty'
  · have hb := Bool.eq_false_iff.mpr (fun hb => hp (pending_iff.mpr hb))
    dsimp only
    rw [hb,Bool.false_and,if_neg Bool.false_ne_true]
    cases best with
    | none =>
      rintro j (rfl | hj)
      · exact hp
      · exact h j hj
    | some b =>
      obtain ⟨slot,first⟩ := b
      obtain ⟨hs,hks,hles,hds,hmin⟩ := h
      refine ⟨.inr hs,hks,hles,hds,?_⟩
      rintro j k' (rfl | hj) hk' hle' hdirty'
      · exact absurd ⟨k',hk',hle',hdirty'⟩ hp
      · exact hmin j k' hj hk' hle' hdirty'

theorem Lowest.congr (hst : ∀ i, S i ↔ T i) : Lowest c d after T best := by
  obtain rfl : S = T := funext fun i => propext (hst i)
  exact h

theorem lowest_fold {l : List Nat} (hb : l.foldl (fun best i => let e := c.entries i
      if e.valid && e.dirty && e.dev == d && after ≤ e.chunk &&
          (best.map (fun b => decide (e.chunk < b.2))).getD true
      then some (i,e.chunk) else best) best = best') :
    Lowest c d after (fun j => j ∈ l ∨ S j) best' := by
  induction l generalizing S best with
  | nil =>
    subst hb
    exact h.congr (fun i => by simp)
  | cons i is ih =>
    refine (ih (lowest_step h i) hb).congr ?_
    intro j
    simp only [List.mem_cons]
    tauto

end

theorem lowest_dirty_spec
    (hb : c.lowestDirty d after = best) : Lowest c d after (· < slots) best := by
  have hnone : Lowest c d after (fun _ => False) none := fun _ h => h.elim
  unfold lowestDirty at hb
  refine (lowest_fold hnone hb).congr ?_
  intro i
  rw [or_false,List.mem_range]

theorem pending_markClean (h : Pending (c.markClean slot) d after i) :
    i ≠ slot ∧ Pending c d after i := by
  obtain ⟨k,hk,hle,hdirty⟩ := h
  by_cases hi : i = slot
  · subst hi
    simp only [markClean,setEntry,update_self,Bool.false_eq_true] at hdirty
  · refine ⟨hi,k,?_,hle,?_⟩
    · simpa [key,markClean,setEntry,update_of_ne hi] using hk
    · simpa [markClean,setEntry,update_of_ne hi] using hdirty

/-- A dirty slot is marked clean, and then the chunks after its own. -/
theorem Cleans.cons (h : Placed c) (hkey : c.key slot = some (d,a))
    (hdirty : (c.entries slot).dirty = true) (hab : a < b)
    (hcl : Cleans (c.markClean slot) d (a + 1) b c') : Cleans c d a b c' := by
  have hset := mark_clean_sets h hkey
  refine ⟨hcl.placed,?_,?_⟩
  · intro k h1 h2
    by_cases hk : k = a
    · subst hk
      refine ⟨c.data slot,?_,?_⟩
      · rw [line_of_key h hkey,hdirty]
      · rw [hcl.kept d k (by omega)]
        exact hset.own
    · rw [← hset.others d k fun he => hk (congrArg Prod.snd he)]
      exact hcl.cleaned k (by omega) h2
  · intro d' k' hno
    rw [hcl.kept d' k' (by omega)]
    refine hset.others d' k' ?_
    rintro ⟨rfl,rfl⟩
    exact hno ⟨rfl,.refl,hab⟩

theorem Gathers.cons (h : Placed c) (hkey : c.key slot = some (d,a))
    (hown : ∀ j, j < chunkSectors → out ((a - first) * chunkSectors + j) = c.data slot j)
    (hga : Gathers (c.markClean slot) d first (a + 1) b out) : Gathers c d first a b out := by
  intro k h1 h2 ℓ hl j hj
  by_cases hk : k = a
  · subst hk
    obtain rfl := some.inj ((line_of_key h hkey).symm.trans hl)
    exact hown j hj
  · refine hga k (by omega) h2 ℓ ?_ j hj
    rw [(mark_clean_sets h hkey).others d k fun he => hk (congrArg Prod.snd he)]
    exact hl

theorem pop_more_spec (h : Placed c) (hp : c.popMore d first n out fuel = (n',out',c')) :
    n ≤ n' ∧ Cleans c d (first + n) (first + n') c' ∧
      Gathers c d first (first + n) (first + n') out' ∧
      (∀ i, i < n * chunkSectors → out' i = out i) ∧ ∀ a i, Pending c' d a i → Pending c d a i := by
  induction fuel generalizing c n out with
  | zero =>
    cases hp
    exact ⟨.refl,⟨h,fun k h1 h2 => by omega,fun _ _ _ => rfl⟩,
      fun k h1 h2 => by omega,fun _ _ => rfl,fun _ _ hq => hq⟩
  | succ fuel ih =>
    unfold popMore at hp
    split at hp
    · cases hp
      exact ⟨.refl,⟨h,fun k h1 h2 => by omega,fun _ _ _ => rfl⟩,
        fun k h1 h2 => by omega,fun _ _ => rfl,fun _ _ hq => hq⟩
    rename_i slot hf
    obtain ⟨hslot,hdirty⟩ := find_dirty_some hf
    obtain ⟨hle,hcl,hga,hlow,hpend⟩ := ih (mark_clean_sets h hslot).placed hp
    refine ⟨by omega,.cons h hslot hdirty (by omega) hcl,.cons h hslot ?_ hga,?_,
      fun a i hq => (pending_markClean (hpend a i hq)).2⟩
    · intro j hj
      have hidx : (first + n - first) * chunkSectors + j = n * chunkSectors + j := by
        rw [Nat.add_sub_cancel_left]
      rw [hidx,hlow _ (by rw [Nat.succ_mul]; omega),blit,if_pos (by omega),Nat.add_sub_cancel_left,
        zero_add]
    · intro i hi
      rw [hlow i (by rw [Nat.succ_mul]; omega),blit,if_neg (by omega)]

/-- The slots that hold dirty chunks of a device. -/
noncomputable def dirtySlots (c : BufferCache) (d : Nat) : Finset Nat :=
  have := Classical.decPred (Pending c d 0)
  (Finset.range slots).filter (Pending c d 0)

theorem mem_dirtySlots : i ∈ dirtySlots c d ↔ i < slots ∧ Pending c d 0 i := by
  simp [dirtySlots]

theorem key_lt_slots (h : Placed c) (hk : c.key i = some (d,k)) : i < slots := by
  obtain ⟨-,hlt⟩ := List.mem_range'_1.mp (h.at_home i (d,k) hk)
  have hmod : (k ^^^ (k >>> 13) ^^^ (d <<< 7)) % sets < sets := Nat.mod_lt _ (by decide)
  unfold setBase at hlt
  generalize (k ^^^ (k >>> 13) ^^^ (d <<< 7)) % sets = r at hlt hmod
  unfold slots ways sets at *
  omega

/-- Nothing is left to pop, or the lowest dirty run is popped and marked clean. -/
theorem pop_dirty_run_spec (h : Placed c) (d after max : Nat) :
    (c.popDirtyRun d after max = (none,c) ∧
        ∀ k ℓ, after ≤ k → c.line d k = some ℓ → ℓ.dirty = false) ∨
      ∃ first n out c', c.popDirtyRun d after max = (some (first,n,out),c') ∧ after ≤ first ∧
        0 < n ∧ Cleans c d first (first + n) c' ∧ Gathers c d first first (first + n) out ∧
        (∀ k ℓ, after ≤ k → k < first → c.line d k = some ℓ → ℓ.dirty = false) ∧
        (dirtySlots c' d).card < (dirtySlots c d).card := by
  cases hl : c.lowestDirty d after with
  | none =>
    have hlow := lowest_dirty_spec hl
    refine .inl ⟨by simp [popDirtyRun,hl],?_⟩
    intro k ℓ hk hline
    obtain ⟨i,hi,rfl⟩ := (line_eq_some h).mp hline
    exact Bool.eq_false_iff.mpr fun hd => hlow i (key_lt_slots h hi) ⟨k,hi,hk,hd⟩
  | some b =>
    obtain ⟨slot,first⟩ := b
    obtain ⟨hlt,hkey,hle,hdirty,hmin⟩ := lowest_dirty_spec hl
    rcases hm : (c.markClean slot).popMore d first 1 (blit zeros 0 (c.data slot) 0 chunkSectors)
      (max - 1) with ⟨n,out,c'⟩
    obtain ⟨hn,hcl,hga,hfirst,hpend⟩ := pop_more_spec (mark_clean_sets h hkey).placed hm
    refine .inr ⟨first,n,out,c',by simp [popDirtyRun,hl,hm],hle,hn,
      .cons h hkey hdirty (by omega) hcl,.cons h hkey ?_ hga,?_,?_⟩
    · intro j hj
      rw [Nat.sub_self,Nat.zero_mul,zero_add,hfirst j (by omega),blit,if_pos (by omega),
        Nat.sub_zero,zero_add]
    · intro k ℓ hk hlt' hℓ
      obtain ⟨i,hi,rfl⟩ := (line_eq_some h).mp hℓ
      refine Bool.eq_false_iff.mpr fun hd => ?_
      exact absurd (hmin i k (key_lt_slots h hi) hi hk hd) (not_le.mpr hlt')
    · refine Finset.card_lt_card (Finset.ssubset_iff_of_subset ?_ |>.mpr ⟨slot,?_,?_⟩)
      · intro i hi
        obtain ⟨hi1,hi2⟩ := mem_dirtySlots.mp hi
        exact mem_dirtySlots.mpr ⟨hi1,(pending_markClean (hpend 0 i hi2)).2⟩
      · exact mem_dirtySlots.mpr ⟨hlt,first,hkey,Nat.zero_le _,hdirty⟩
      · intro hi
        exact (pending_markClean (hpend 0 slot (mem_dirtySlots.mp hi).2)).1 rfl

end BufferCache

end Miku.Block
