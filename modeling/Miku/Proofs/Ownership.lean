import Miku.Lib.Ledger
import Miku.Proofs.Frames
import Miku.Mm.Vmm
import Mathlib.Algebra.Group.Basic
import Mathlib.Algebra.Ring.Nat

namespace Miku.Mm
open Lib.Ledger Function Option RefCounts FrameAllocator

/-- An address the allocator has handed out. -/
def held (a : FrameAllocator) (f : Nat) : Prop :=
  f % 4096 = 0 ∧ f / 4096 < frameCap ∧ a.isUsed (f / 4096) = true

/-- The recorded number of owners; absent means one. -/
def owners (rc : RefCounts) (f : Nat) : Nat := (rc f).getD 1

def pooled (p : EmergencyPool) (f : Nat) : Nat := p.frames.count f

/-- The allocator and the share counts agree with `T` frames in use as page
tables and `L` present mappings, frame by frame. -/
structure OwnedBy (a : FrameAllocator) (rc : RefCounts) (p : EmergencyPool)
    (T L : Nat → Nat) : Prop where
  sound : Sound (held a) (owners rc) (T + pooled p) L
  hint : a.freeHint ≤ frameCap

def Owned (s : Memory) (T L : Nat → Nat) : Prop := OwnedBy s.pmm s.refcounts s.pool T L

/-- A frame taken from the allocator that nothing lists yet. -/
def Spared (s : Memory) (T L : Nat → Nat) (f : Nat) : Prop :=
  Spare (held s.pmm) (owners s.refcounts) (T + pooled s.pool) L f

variable {a : FrameAllocator}

theorem frame_base_of_held (h : held a f) : frameBase f = f := by
  have := h.1
  unfold frameBase
  omega

theorem ref_get_of_held (h : held a f) (rc : RefCounts) : rc.refGet f = owners rc f := by
  unfold refGet owners
  rw [frame_base_of_held h]

theorem held_iff_of_release {a' : FrameAllocator} (hf : f % 4096 = 0)
    (hu : ∀ g, a'.isUsed g = if g = f / 4096 ∧ g < frameCap then false else a.isUsed g) :
    ∀ i, i ≠ f → held a i → held a' i := by
  intro i hi hk
  refine ⟨hk.1,hk.2.1,?_⟩
  have hm := hk.1
  rw [hu,if_neg (fun h => hi (by omega))]
  exact hk.2.2

variable {s : Memory} {f : Nat}

theorem Owned.mono (h : Owned s T L) (ht : ∀ i, T' i ≤ T i) (hl : ∀ i, L' i ≤ L i) :
    Owned s T' L' :=
  ⟨h.sound.mono (fun i => Nat.add_le_add_right (ht i) _) hl,h.hint⟩

theorem Owned.drop_leaf (h : Owned s T (L + one f)) : Owned s T L :=
  h.mono (fun _ => .refl) (fun _ => Nat.le_add_right _ _)

theorem alloc_frame_eq (ha : s.allocFrame = some (f,s')) :
    ∃ pmm, s.pmm.allocFrame = some (f,pmm) ∧ s' = { s with pmm := pmm } := by
  obtain ⟨⟨g,pmm⟩,hp,he⟩ := map_eq_some_iff.mp ha
  simp only [Prod.mk.injEq] at he
  obtain ⟨rfl,rfl⟩ := he
  exact ⟨pmm,hp,rfl⟩

section

variable (h : Owned s T L)
include h

theorem Owned.alloc (ha : s.allocFrame = some (f,s')) : Owned s' T L ∧ Spared s' T L f := by
  obtain ⟨pmm,hp,rfl⟩ := alloc_frame_eq ha
  obtain ⟨g,rfl,hlt,hfree,hint,hu⟩ := alloc_frame_spec hp h.hint
  have hk : ∀ i, held pmm i ↔ held s.pmm i ∨ i = g * 4096 := by
    intro i
    unfold held
    rw [hu]
    constructor
    · rintro ⟨hm,hc,hb⟩
      split at hb
      · exact .inr (by omega)
      · exact .inl ⟨hm,hc,hb⟩
    · rintro (⟨hm,hc,hb⟩ | rfl)
      · refine ⟨hm,hc,?_⟩
        split
        · rfl
        · exact hb
      · exact ⟨by omega,by omega,by rw [if_pos (by omega)]⟩
  have hn : ¬ held s.pmm (g * 4096) := by
    intro hh
    have := hh.2.2
    rw [show g * 4096 / 4096 = g by omega,hfree] at this
    cases this
  obtain ⟨hs,hsp⟩ := h.sound.take hn hk
  exact ⟨⟨hs,hint⟩,hsp⟩

section

variable (hs : Spared s T L f)
include hs

theorem Owned.add_table : Owned s (T + one f) L := by
  refine ⟨?_,h.hint⟩
  rw [add_right_comm]
  exact h.sound.add_excl hs

theorem Owned.add_leaf : Owned s T (L + one f) := ⟨h.sound.add_spare hs,h.hint⟩

theorem Owned.free_spare : Owned (s.freeFrame f) T L :=
  ⟨h.sound.release hs (held_iff_of_release hs.kept.1
    (free_frame_used s.pmm f)),free_frame_hint _ _ h.hint⟩

theorem Owned.free_spare_batched : Owned (s.freeTable f) T L :=
  ⟨h.sound.release hs (held_iff_of_release hs.kept.1
    (free_batched_used s.pmm f)),free_batched_hint _ _ h.hint⟩

end

end

theorem Owned.free_table (h : Owned s (T + one f) L) : Owned (s.freeTable f) T L := by
  have hs : Sound (held s.pmm) (owners s.refcounts) (T + pooled s.pool + one f) L := by
    rw [add_right_comm]
    exact h.sound
  have hm : Owned s T L := h.mono (fun _ => Nat.le_add_right _ _) (fun _ => .refl)
  exact hm.free_spare_batched hs.spare_of_excl

/-- The last mapping of a frame is gone: nothing lists the frame. -/
theorem Owned.spare_of_last (h : Owned s T (L + one f)) (hr : s.refcounts.refGet f ≤ 1) :
    Owned s T L ∧ Spared s T L f := by
  have hk : held s.pmm f := h.sound.held_of_shared (by rw [add_apply,one_self]; omega)
  rw [ref_get_of_held hk] at hr
  exact ⟨h.drop_leaf,h.sound.spare_of_last hr⟩

theorem Owned.held_leaf (h : Owned s T L) (hp : 0 < L f) : held s.pmm f := h.sound.held_of_shared hp

variable {rc : RefCounts}

theorem ref_inc_owners (hf : frameBase f = f) (hr : owners rc f < u16Max)
    (i : Nat) : owners (rc.refInc f) i = owners rc i + one f i := by
  unfold owners refInc
  rw [hf]
  by_cases hi : i = f
  · subst hi
    unfold owners at hr
    rw [update_self,one_self,getD_some]
    omega
  · rw [update_of_ne hi,one_ne hi]
    rfl

theorem Owned.ref_inc (h : Owned s T L) (hp : 0 < L f) (hr : owners s.refcounts f < u16Max) :
    Owned { s with refcounts := s.refcounts.refInc f } T (L + one f) :=
  ⟨h.sound.share hp (ref_inc_owners (frame_base_of_held (h.held_leaf hp)) hr),h.hint⟩

theorem ref_dec_some (hf : frameBase f = f) (hc : rc f = some c) :
    rc.refDec f = (c - 1,update rc f (if c - 1 ≤ 1 then none else some (c - 1))) := by
  simp [refDec,hf,hc]

theorem ref_dec_owners (hf : frameBase f = f) (hr : 1 < owners rc f) (i : Nat) :
    owners (rc.refDec f).2 i = if i = f then owners rc f - 1 else owners rc i := by
  unfold owners at hr ⊢
  cases hc : rc f with
  | none =>
    rw [hc] at hr
    exact absurd hr (by decide)
  | some c =>
    rw [hc] at hr
    rw [ref_dec_some hf hc]
    simp only [getD_some] at hr ⊢
    by_cases hi : i = f
    · subst hi
      rw [update_self,if_pos rfl]
      split
      · simp only [getD_none]
        omega
      · rfl
    · rw [update_of_ne hi,if_neg hi]

theorem Owned.ref_dec (h : Owned s T (L + one f)) (hr : 1 < s.refcounts.refGet f) :
    Owned { s with refcounts := (s.refcounts.refDec f).2 } T L := by
  have hk : held s.pmm f := h.held_leaf (by rw [add_apply,one_self]; omega)
  rw [ref_get_of_held hk] at hr
  exact ⟨h.sound.unshare hr (ref_dec_owners (frame_base_of_held hk) hr),h.hint⟩

theorem Owned.free_cow (h : Owned s T (L + one f)) : Owned (s.freeFrameCowSwap f) T L := by
  have hk : held s.pmm f := h.held_leaf (by rw [add_apply,one_self]; omega)
  have hb := frame_base_of_held hk
  unfold Memory.freeFrameCowSwap dropRef
  dsimp only
  rw [hb]
  cases hc : s.refcounts f with
  | none =>
    have hr : s.refcounts.refGet f ≤ 1 := by
      rw [ref_get_of_held hk,owners,hc]
      exact .refl
    obtain ⟨ho,hs⟩ := h.spare_of_last hr
    exact ho.free_spare_batched hs
  | some c =>
    have hr : s.refcounts.refGet f = c := by
      rw [ref_get_of_held hk,owners,hc]
      rfl
    by_cases h0 : c - 1 = 0
    · have hkeep : ∀ i, owners (update s.refcounts f none) i = owners s.refcounts i := by
        intro i
        have hpos := h.sound.pos f
        unfold owners at hpos ⊢
        by_cases hi : i = f
        · subst hi
          rw [update_self,hc]
          rw [hc] at hpos
          simp only [getD_some,getD_none] at hpos ⊢
          omega
        · rw [update_of_ne hi]
      obtain ⟨ho,hs⟩ := h.spare_of_last (by omega)
      simp only [h0,↓reduceIte]
      have hres := ho.free_spare_batched hs
      refine ⟨?_,hres.hint⟩
      have he : owners (update s.refcounts f none) = owners s.refcounts := funext hkeep
      change Sound _ (owners (update s.refcounts f none)) _ _
      rw [he]
      exact hres.sound
    · have hgt : 1 < s.refcounts.refGet f := by omega
      have hres := h.ref_dec hgt
      rw [ref_dec_some hb hc] at hres
      by_cases h1 : c - 1 = 1
      · rw [if_pos (by omega)] at hres
        simp only [h1,↓reduceIte,Nat.one_ne_zero]
        exact hres
      · rw [if_neg (by omega)] at hres
        simp only [h0,h1,↓reduceIte]
        exact hres

theorem Owned.pop (h : Owned s T L) (hp : s.pool.pop = some (f,p)) :
    Owned { s with pool := p } T L ∧ Spared { s with pool := p } T L f := by
  unfold EmergencyPool.pop at hp
  cases hfs : s.pool.frames with
  | nil => simp [hfs] at hp
  | cons g gs =>
    simp only [hfs,some.injEq,Prod.mk.injEq] at hp
    obtain ⟨rfl,rfl⟩ := hp
    have he : pooled s.pool = pooled ⟨gs⟩ + one g := by
      funext i
      rw [add_apply]
      unfold pooled
      rw [hfs]
      by_cases hi : i = g
      · subst hi
        rw [List.count_cons_self,one_self]
      · rw [List.count_cons_of_ne (Ne.symm hi),one_ne hi]
        rfl
    have hs : Sound (held s.pmm) (owners s.refcounts) (T + pooled ⟨gs⟩ + one g) L := by
      rw [add_assoc,← he]
      exact h.sound
    exact ⟨⟨hs.mono (fun _ => Nat.le_add_right _ _) (fun _ => .refl),h.hint⟩,
      hs.spare_of_excl⟩

theorem Owned.push (h : Owned s T L) (hs : Spared s T L f)
    (hp : s.pool.push f = some p) : Owned { s with pool := p } T L := by
  unfold EmergencyPool.push at hp
  split at hp
  · cases hp
  · cases hp
    refine ⟨?_,h.hint⟩
    have he : pooled ⟨f :: s.pool.frames⟩ = pooled s.pool + one f := by
      funext i
      rw [add_apply]
      unfold pooled
      by_cases hi : i = f
      · subst hi
        rw [List.count_cons_self,one_self]
      · rw [List.count_cons_of_ne (Ne.symm hi),one_ne hi]
        rfl
    change Sound _ _ (T + pooled ⟨f :: s.pool.frames⟩) _
    rw [he,← add_assoc]
    exact h.sound.add_excl hs

end Miku.Mm
