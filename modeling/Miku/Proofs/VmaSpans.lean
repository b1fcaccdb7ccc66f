import Miku.Mm.Vma

namespace Miku.Mm
open Lib List Option VmaMap OrdMap

/-- VMAs keyed by their start, nonempty and pairwise disjoint. -/
abbrev Tidy (vmas : OrdMap Vma) : Prop := Spans Vma.start Vma.end_ vmas

/-- No VMA meets `[s, e)`. -/
abbrev Vacant (vmas : OrdMap Vma) (s e : Nat) : Prop := Clear Vma.start Vma.end_ vmas s e

namespace Vma

/-- What stands behind an address of the VMA: nothing, or a place in a file. -/
def backingAt (v : Vma) (a : Nat) : Option FileBacking :=
  v.backing.map (fun b => b.advance (a - v.start))

/-- The fragment below `s`. -/
def before (v : Vma) (s : Nat) : Vma := ⟨v.start,s,v.prot,v.backing⟩

/-- The fragment from `e` on. -/
def after (v : Vma) (e : Nat) : Vma :=
  ⟨e,v.end_,v.prot,v.backing.map (fun b => b.advance (e - v.start))⟩

theorem after_backingAt {v : Vma} (hs : v.start ≤ e) (he : e ≤ a) :
    (v.after e).backingAt a = v.backingAt a := by
  have hsum : (e - v.start) + (a - e) = a - v.start := by omega
  unfold backingAt after
  rw [Option.map_map]
  congr 1
  funext b
  simp only [Function.comp_apply,FileBacking.advance,Nat.mod_add_mod,add_assoc,hsum]

end Vma

/-- `v` covers `a`, with protection `prot` and backing `b`. -/
abbrev Vma.Covers (v : Vma) (a prot : Nat) (b : Option FileBacking) : Prop :=
  (v.start ≤ a ∧ a < v.end_) ∧ v.prot = prot ∧ v.backingAt a = b

/-- Some VMA covers `a`, with protection `prot` and backing `b`. -/
def Mapped (vmas : OrdMap Vma) (a prot : Nat) (b : Option FileBacking) : Prop :=
  ∃ k v, (k,v) ∈ vmas ∧ v.Covers a prot b

variable {vmas : OrdMap Vma} {s e a prot : Nat} {v : Vma} {b : Option FileBacking}

variable {size : Nat}

theorem user_end_for_some (h : userEndFor start size = some e) :
    e = start + size ∧ start < e ∧ e ≤ userEnd := by
  unfold userEndFor checkedAdd at h
  rw [filter_eq_some_iff] at h
  obtain ⟨h1,h2⟩ := h
  split at h1
  · cases h1
    simpa using h2
  · cases h1

variable {w : Vma}

section

variable (h : Tidy vmas) (hv : (k,v) ∈ vmas) (he : k < e)
include h hv he

theorem mem_cutKey : (j,w) ∈ cutKey s e vmas k ↔ (j ≠ k ∧ (j,w) ∈ vmas) ∨
      (k < s ∧ j = k ∧ w = v.before s) ∨ (e < v.end_ ∧ j = e ∧ w = v.after e) := by
  have hk : v.start = k := h.keyed k v hv
  -- the right fragment overwrites nothing: a VMA that starts at `e` would lie in `v`
  have hfree : e < v.end_ → (j,w) ∈ vmas → j ≠ k → j ≠ e := by
    rintro hend hw hjk rfl
    have hp := h.proper j w hw
    have hs := h.keyed j w hw
    rcases h.disjoint k v j w hv hw (Ne.symm hjk) with hd | hd <;> omega
  unfold cutKey
  rw [get?_eq_some.mpr hv]
  dsimp only
  rw [hk]
  split <;> split <;> simp only [mem_insert,mem_erase,Vma.before,Vma.after,hk] <;> grind

theorem tidy_cutKey (hse : s ≤ e) (hs : s < v.end_) : Tidy (cutKey s e vmas k) := by
  have hk : v.start = k := h.keyed k v hv
  refine ⟨?_,?_,?_⟩
  · intro j w hm
    rcases (mem_cutKey h hv he).mp hm with ⟨-,hm⟩ | ⟨-,rfl,rfl⟩ | ⟨-,rfl,rfl⟩
    · exact h.keyed j w hm
    · exact hk
    · rfl
  · intro j w hm
    rcases (mem_cutKey h hv he).mp hm with ⟨-,hm⟩ | ⟨hl,rfl,rfl⟩ | ⟨hr,rfl,rfl⟩
    · exact h.proper j w hm
    · exact hk ▸ hl
    · exact hr
  · -- every fragment lies within the VMA it comes from
    have hother : ∀ i x, i ≠ k → (i,x) ∈ vmas → v.end_ ≤ x.start ∨ x.end_ ≤ v.start :=
      fun i x hi hx => h.disjoint k v i x hv hx (Ne.symm hi)
    intro j w i x hw hx hne
    rcases (mem_cutKey h hv he).mp hw with ⟨hj,hwm⟩ | ⟨-,rfl,rfl⟩ | ⟨-,rfl,rfl⟩ <;>
      rcases (mem_cutKey h hv he).mp hx with ⟨hi,hxm⟩ | ⟨-,rfl,rfl⟩ | ⟨-,rfl,rfl⟩
    · exact h.disjoint j w i x hwm hxm hne
    · have := hother j w hj hwm
      simp only [Vma.before]
      omega
    · have := hother j w hj hwm
      simp only [Vma.after]
      omega
    · have := hother i x hi hxm
      simp only [Vma.before]
      omega
    · exact absurd rfl hne
    · exact .inl hse
    · have := hother i x hi hxm
      simp only [Vma.after]
      omega
    · exact .inr hse
    · exact absurd rfl hne

theorem mapped_cutKey (hs : s < v.end_)
    (ha : a < s ∨ e ≤ a) : Mapped (cutKey s e vmas k) a prot b ↔ Mapped vmas a prot b := by
  have hk : v.start = k := h.keyed k v hv
  constructor
  · rintro ⟨j,w,hm,hin,rfl,rfl⟩
    rcases (mem_cutKey h hv he).mp hm with ⟨-,hm⟩ | ⟨-,rfl,rfl⟩ | ⟨-,rfl,rfl⟩
    · exact ⟨j,w,hm,hin,rfl,rfl⟩
    · exact ⟨j,v,hv,⟨hin.1,lt_trans hin.2 hs⟩,rfl,rfl⟩
    · have hle : v.start ≤ j := by omega
      exact ⟨k,v,hv,⟨le_trans hle hin.1,hin.2⟩,rfl,(Vma.after_backingAt hle hin.1).symm⟩
  · rintro ⟨j,w,hm,hin,rfl,rfl⟩
    by_cases hjk : j = k
    · subst hjk
      obtain rfl := vmas.value_unique hv hm
      rcases ha with ha | ha
      · exact ⟨j,_,(mem_cutKey h hv he).mpr (.inr (.inl ⟨by omega,rfl,rfl⟩)),⟨hin.1,ha⟩,rfl,rfl⟩
      · exact ⟨e,_,(mem_cutKey h hv he).mpr (.inr (.inr ⟨by omega,rfl,rfl⟩)),⟨ha,hin.2⟩,rfl,
          Vma.after_backingAt (by omega) ha⟩
    · exact ⟨j,w,(mem_cutKey h hv he).mpr (.inl ⟨hjk,hm⟩),hin,rfl,rfl⟩

end

/-- The state of `remove_range` before the keys `ks` are cut. -/
structure Cutting (old : OrdMap Vma) (s e : Nat) (vmas : OrdMap Vma) (ks : List Nat) : Prop where
  tidy : Tidy vmas
  nodup : ks.Nodup
  below : ∀ k ∈ ks, k < e
  reaches : ∀ k ∈ ks, ∀ v, (k,v) ∈ vmas → s < v.end_
  rest : ∀ k v, (k,v) ∈ vmas → k ∉ ks → v.end_ ≤ s ∨ e ≤ v.start
  same : ∀ a prot b, a < s ∨ e ≤ a → (Mapped vmas a prot b ↔ Mapped old a prot b)

variable {old : OrdMap Vma}

theorem Cutting.step (hse : s ≤ e)
    (h : Cutting old s e vmas (k :: ks)) : Cutting old s e (cutKey s e vmas k) ks := by
  obtain ⟨hk,hnd⟩ := nodup_cons.mp h.nodup
  have hke : k < e := h.below k mem_cons_self
  have hlow : ∀ j ∈ ks, j < e := fun j hj => h.below j (mem_cons_of_mem k hj)
  cases hg : vmas.get? k with
  | none =>
    have hcut : cutKey s e vmas k = vmas := by
      simp [cutKey,hg]
    rw [hcut]
    refine ⟨h.tidy,hnd,hlow,fun j hj => h.reaches j (mem_cons_of_mem k hj),?_,h.same⟩
    intro j w hm hj
    refine h.rest j w hm ?_
    rintro (_ | ⟨_,hin⟩)
    · rw [get?_eq_some.mpr hm] at hg
      cases hg
    · exact hj hin
  | some v =>
    have hv := get?_eq_some.mp hg
    have hs := h.reaches k mem_cons_self v hv
    refine ⟨tidy_cutKey h.tidy hv hke hse hs,hnd,hlow,?_,?_,?_⟩
    · intro j hj w hm
      rcases (mem_cutKey h.tidy hv hke).mp hm with ⟨-,hm⟩ | ⟨-,rfl,-⟩ | ⟨-,rfl,-⟩
      · exact h.reaches j (mem_cons_of_mem k hj) w hm
      · exact absurd hj hk
      · exact absurd (hlow j hj) (lt_irrefl j)
    · intro j w hm hj
      rcases (mem_cutKey h.tidy hv hke).mp hm with ⟨hne,hm⟩ | ⟨-,rfl,rfl⟩ | ⟨-,rfl,rfl⟩
      · refine h.rest j w hm ?_
        rintro (_ | ⟨_,hin⟩)
        · exact hne rfl
        · exact hj hin
      · exact .inl .refl
      · exact .inr .refl
    · intro a prot b ha
      exact (mapped_cutKey h.tidy hv hke hs ha).trans (h.same a prot b ha)

theorem Cutting.run (hse : s ≤ e)
    (h : Cutting old s e vmas ks) : Cutting old s e (ks.foldl (cutKey s e) vmas) [] := by
  induction ks generalizing vmas with
  | nil => exact h
  | cons k ks ih => exact ih (h.step hse)

variable {m : VmaMap}

theorem overlapKeys_cutting (h : Tidy m.vmas) : Cutting m.vmas s e m.vmas (m.overlapKeys s e) := by
  have hmem : ∀ k, k ∈ m.overlapKeys s e ↔ ∃ v, k < e ∧ (k,v) ∈ m.vmas ∧ s < v.end_ := by
    intro k
    simp only [overlapKeys,List.mem_map,mem_filter,mem_below,Prod.exists,
      decide_eq_true_eq,gt_iff_lt,and_assoc]
    constructor
    · rintro ⟨j,v,hlt,hm,hs,rfl⟩
      exact ⟨v,hlt,hm,hs⟩
    · rintro ⟨v,hlt,hm,hs⟩
      exact ⟨k,v,hlt,hm,hs,rfl⟩
  refine ⟨h,?_,?_,?_,?_,fun a prot b _ => Iff.rfl⟩
  · have hsub : (m.overlapKeys s e).Sublist (m.vmas.entries.map Prod.fst) :=
      (filter_sublist.trans filter_sublist).map Prod.fst
    refine (pairwise_map.mpr ?_ : (m.vmas.entries.map Prod.fst).Nodup).sublist hsub
    exact m.vmas.sorted.imp Nat.ne_of_lt
  · intro k hk
    obtain ⟨v,hlt,-⟩ := (hmem k).mp hk
    exact hlt
  · intro k hk v hv
    obtain ⟨w,-,hw,hs⟩ := (hmem k).mp hk
    exact m.vmas.value_unique hw hv ▸ hs
  · intro k v hv hk
    have hkey := h.keyed k v hv
    by_contra hno
    exact hk ((hmem k).mpr ⟨v,by omega,hv,by omega⟩)

/-- `remove_range` leaves a tidy map with the range vacant and every other
address mapped as before. -/
theorem remove_range_spec (h : Tidy m.vmas) (hse : s ≤ e) :
    Tidy (m.removeRange s e).vmas ∧ Vacant (m.removeRange s e).vmas s e ∧
      ∀ a prot b, a < s ∨ e ≤ a → (Mapped (m.removeRange s e).vmas a prot b ↔ Mapped m.vmas a prot b) :=
  let hc := (overlapKeys_cutting h).run hse
  ⟨hc.tidy,fun k v hv => hc.rest k v hv not_mem_nil,hc.same⟩

/-- An address is covered if it was and lies outside the range, with its old protection and
place in the file. -/
theorem remove_range_exact {m : VmaMap} (h : Tidy m.vmas) (hse : s < e) :
    (∀ a, (∃ prot b, Mapped (m.removeRange s e).vmas a prot b) ↔
      (∃ prot b, Mapped m.vmas a prot b) ∧ ¬ (s ≤ a ∧ a < e)) ∧
    ∀ a prot b, ¬ (s ≤ a ∧ a < e) →
      (Mapped (m.removeRange s e).vmas a prot b ↔ Mapped m.vmas a prot b) := by
  obtain ⟨-,hvacant,hsame⟩ := remove_range_spec h hse.le
  have hout : ∀ a prot b, ¬ (s ≤ a ∧ a < e) →
      (Mapped (m.removeRange s e).vmas a prot b ↔ Mapped m.vmas a prot b) := by
    intro a prot b ha
    exact hsame a prot b (by omega)
  refine ⟨fun a => ⟨?_,?_⟩,hout⟩
  · rintro ⟨prot,b,hmap⟩
    have ha : ¬ (s ≤ a ∧ a < e) := by
      obtain ⟨k,v,hv,hin,-⟩ := hmap
      have := hvacant k v hv
      omega
    exact ⟨⟨prot,b,(hout a prot b ha).mp hmap⟩,ha⟩
  · rintro ⟨⟨prot,b,hmap⟩,ha⟩
    exact ⟨prot,b,(hout a prot b ha).mpr hmap⟩

/-- A page is cut out of the middle of three; the third keeps its place in the file. -/
theorem remove_range_exact_middle :
    Mapped ((VmaMap.new.insert ⟨4096,16384,3,some ⟨7,0,100,false⟩⟩).removeRange 8192 12288).vmas 12288 3
      (some ⟨7,8192,100,false⟩) := by
  have htidy : Tidy (VmaMap.new.insert ⟨4096,16384,3,some ⟨7,0,100,false⟩⟩).vmas :=
    Spans.empty.insert (by decide) (by decide)
  refine ((remove_range_exact htidy (by decide)).2 12288 3 _ (by decide)).mpr ?_
  exact ⟨4096,⟨4096,16384,3,some ⟨7,0,100,false⟩⟩,mem_insert.mpr (.inl ⟨rfl,rfl⟩),by decide,rfl,rfl⟩

/-- `v` may be added to the map; the two map what `old` and `w` did. -/
structure Fits (old : OrdMap Vma) (w : Vma) (vmas : OrdMap Vma) (v : Vma) : Prop where
  tidy : Tidy vmas
  proper : v.start < v.end_
  vacant : Vacant vmas v.start v.end_
  same : ∀ a prot b, Mapped vmas a prot b ∨ v.Covers a prot b ↔ Mapped old a prot b ∨ w.Covers a prot b

/-- `u` is `v` and its neighbour `n` in one piece. -/
def Joined (n v u : Vma) : Prop :=
  u.prot = v.prot ∧ n.prot = v.prot ∧ u.backing = none ∧ n.backing = none ∧ v.backing = none ∧
    ((n.end_ = v.start ∧ u.start = n.start ∧ u.end_ = v.end_) ∨
      (v.end_ = n.start ∧ u.start = v.start ∧ u.end_ = n.end_))

theorem Joined.covers (h : Joined n v u) (hn : n.start < n.end_)
    (hv : v.start < v.end_) : u.Covers a prot b ↔ n.Covers a prot b ∨ v.Covers a prot b := by
  obtain ⟨hup,hnp,hub,hnb,hvb,hends⟩ := h
  have hin : (u.start ≤ a ∧ a < u.end_) ↔
      (n.start ≤ a ∧ a < n.end_) ∨ (v.start ≤ a ∧ a < v.end_) := by
    rcases hends with ⟨h1,h2,h3⟩ | ⟨h1,h2,h3⟩ <;> omega
  simp only [Vma.Covers,Vma.backingAt,hup,hnp,hub,hnb,hvb,hin,map_none,or_and_right]

section

variable (h : Fits old w vmas v)
include h

theorem Fits.absorb (hn : (k,n) ∈ vmas) (hj : Joined n v u) : Fits old w (vmas.erase k) u := by
  have hpn := h.tidy.proper k n hn
  have hpv := h.proper
  have hends := hj.2.2.2.2.2
  refine ⟨h.tidy.erase k,by omega,?_,?_⟩
  · intro j x hx
    obtain ⟨hne,hx⟩ := mem_erase.mp hx
    have hpx := h.tidy.proper j x hx
    have hxv := h.vacant j x hx
    have hxn := h.tidy.disjoint j x k n hx hn hne
    omega
  · intro a prot b
    rw [← h.same a prot b,hj.covers hpn hpv]
    constructor
    · rintro (⟨j,x,hx,hc⟩ | hc | hc)
      · exact .inl ⟨j,x,(mem_erase.mp hx).2,hc⟩
      · exact .inl ⟨k,n,hn,hc⟩
      · exact .inr hc
    · rintro (⟨j,x,hx,hc⟩ | hc)
      · by_cases hjk : j = k
        · subst hjk
          obtain rfl := vmas.value_unique hn hx
          exact .inr (.inl hc)
        · exact .inl ⟨j,x,mem_erase.mpr ⟨hjk,hx⟩,hc⟩
      · exact .inr (.inr hc)

theorem Fits.absorb_prev (hb : v.backing = none) :
    Fits old w (absorbPrev vmas v).1 (absorbPrev vmas v).2 ∧
      (absorbPrev vmas v).2.backing = none := by
  unfold absorbPrev
  split
  · exact ⟨h,hb⟩
  rename_i k prev hl
  have hm := (mem_below.mp (mem_of_getLast? hl)).2
  obtain rfl := h.tidy.keyed k prev hm
  split
  · rename_i hp
    obtain ⟨hend,hprot,hnone⟩ := hp
    have hj : Joined prev v { v with start := prev.start } :=
      ⟨rfl,hprot,hb,hnone,hb,.inl ⟨hend,rfl,rfl⟩⟩
    exact ⟨h.absorb hm hj,hb⟩
  · exact ⟨h,hb⟩

theorem Fits.absorb_next (hb : v.backing = none) :
    Fits old w (absorbNext vmas v).1 (absorbNext vmas v).2 := by
  unfold absorbNext
  split
  · exact h
  rename_i next hg
  have hm := get?_eq_some.mp hg
  have hk := h.tidy.keyed v.end_ next hm
  split
  · rename_i hp
    have hj : Joined next v { v with end_ := next.end_ } :=
      ⟨rfl,hp.1,hb,hp.2,hb,.inr ⟨hk.symm,rfl,rfl⟩⟩
    exact hk.symm ▸ h.absorb hm hj
  · exact h

theorem Fits.insert : Tidy (vmas.insert v.start v) ∧ ∀ a prot b,
      Mapped (vmas.insert v.start v) a prot b ↔ Mapped old a prot b ∨ w.Covers a prot b := by
  refine ⟨h.tidy.insert h.proper (h.vacant.but v.start),?_⟩
  intro a prot b
  rw [← h.same a prot b]
  constructor
  · rintro ⟨j,x,hx,hc⟩
    rcases mem_insert.mp hx with ⟨-,rfl⟩ | ⟨-,hx⟩
    · exact .inr hc
    · exact .inl ⟨j,x,hx,hc⟩
  · rintro (⟨j,x,hx,hc⟩ | hc)
    · have hne : j ≠ v.start := by
        rintro rfl
        have hk := h.tidy.keyed _ x hx
        have hp := h.tidy.proper _ x hx
        have hpv := h.proper
        have := h.vacant _ x hx
        omega
      exact ⟨j,x,mem_insert.mpr (.inr ⟨hne,hx⟩),hc⟩
    · exact ⟨v.start,v,mem_insert.mpr (.inl ⟨rfl,rfl⟩),hc⟩

end

theorem insert_merged_spec (h : Tidy m.vmas) (hp : v.start < v.end_)
    (hv : Vacant m.vmas v.start v.end_) : Tidy (m.insertMerged v).vmas ∧ ∀ a prot b,
      Mapped (m.insertMerged v).vmas a prot b ↔ Mapped m.vmas a prot b ∨ v.Covers a prot b := by
  have hf : Fits m.vmas v m.vmas v := ⟨h,hp,hv,fun _ _ _ => Iff.rfl⟩
  unfold insertMerged
  split
  · rename_i hb
    obtain ⟨hprev,hbp⟩ := hf.absorb_prev hb
    exact (hprev.absorb_next hbp).insert
  · exact hf.insert

variable {base : Nat}

theorem last_gap_spec (h : lastGap size cursor = some base) :
    base = cursor ∧ base + size ≤ mmapLimit := by
  unfold lastGap checkedAdd at h
  split at h
  · simp only [bind_some] at h
    split at h
    · cases h
      exact ⟨rfl,by assumption⟩
    · cases h
  · cases h

theorem checked_add_of_fit (h : cursor + size ≤ mmapLimit) :
    checkedAdd cursor size = some (cursor + size) := if_pos (lt_of_le_of_lt h (by decide))

theorem last_gap_of_fit (h : cursor + size ≤ mmapLimit) : lastGap size cursor = some cursor := by
  rw [lastGap,checked_add_of_fit h,bind_some,if_pos h]

theorem scan_gaps_spec {l : List Vma} (hl : l.Pairwise (fun v w => v.start < w.start))
    (h : scanGaps size l cursor = some base) :
    cursor ≤ base ∧ base + size ≤ mmapLimit ∧ ∀ v ∈ l, v.end_ ≤ base ∨ base + size ≤ v.start := by
  induction l generalizing cursor with
  | nil =>
    obtain ⟨rfl,hfit⟩ := last_gap_spec h
    exact ⟨.refl,hfit,fun v hv => absurd hv not_mem_nil⟩
  | cons v vs ih =>
    obtain ⟨hv,hvs⟩ := pairwise_cons.mp hl
    -- a gap in front of `v` is in front of everything after it
    have hahead : ∀ e, e ≤ v.start → ∀ w ∈ v :: vs, e ≤ w.start := by
      intro e he w hw
      rcases mem_cons.mp hw with rfl | hw
      · exact he
      · exact le_trans he (le_of_lt (hv w hw))
    unfold scanGaps at h
    split at h
    · rename_i hlim
      obtain ⟨rfl,hfit⟩ := last_gap_spec h
      exact ⟨.refl,hfit,fun w hw => .inr (hahead _ (le_trans hfit hlim) w hw)⟩
    rename_i hlim
    unfold checkedAdd at h
    split at h
    · cases h
    rename_i end_ hadd
    split at hadd
    · cases hadd
      split at h
      · rename_i hfit
        cases h
        exact ⟨.refl,by omega,fun w hw => .inr (hahead _ hfit w hw)⟩
      · obtain ⟨hle,hfit,hrest⟩ := ih hvs h
        refine ⟨by split at hle <;> omega,hfit,?_⟩
        intro w hw
        rcases mem_cons.mp hw with rfl | hw
        · exact .inl (by split at hle <;> omega)
        · exact hrest w hw
    · cases hadd

theorem scan_gaps_least (hb : cursor ≤ base) (hfit : base + size ≤ mmapLimit)
    (hfree : ∀ v ∈ l, v.end_ ≤ base ∨ base + size ≤ v.start) :
    ∃ found ≤ base, scanGaps size l cursor = some found := by
  induction l generalizing cursor with
  | nil => exact ⟨cursor,hb,last_gap_of_fit (by omega)⟩
  | cons v vs ih =>
    unfold scanGaps
    split
    · exact ⟨cursor,hb,last_gap_of_fit (by omega)⟩
    rw [checked_add_of_fit (by omega)]
    dsimp only
    split
    · exact ⟨cursor,hb,rfl⟩
    · have hv := hfree v mem_cons_self
      refine ih ?_ fun w hw => hfree w (mem_cons_of_mem _ hw)
      split <;> omega

/-- Where `find_free` starts to scan: every VMA with a smaller key ends by then. -/
theorem first_cursor (h : Tidy m.vmas) (hm : (k,v) ∈ m.vmas)
    (hk : k < m.firstCursor) : v.end_ ≤ m.firstCursor := by
  have hin : ∀ j w, (j,w) ∈ m.vmas.upTo mmapBase ↔ (j,w) ∈ m.vmas ∧ j ≤ mmapBase := by
    intro j w
    simp [OrdMap.upTo,OrdMap.mem_def]
  have hsort : (m.vmas.upTo mmapBase).Pairwise (fun a b => a.1 < b.1) :=
    m.vmas.sorted.sublist filter_sublist
  generalize hc : m.firstCursor = cursor at hk ⊢
  unfold VmaMap.firstCursor at hc
  cases hl : (m.vmas.upTo mmapBase).getLast? with
  | none =>
    rw [hl] at hc
    subst hc
    have := (hin k v).mpr ⟨hm,le_of_lt hk⟩
    rw [getLast?_eq_none_iff.mp hl] at this
    exact absurd this not_mem_nil
  | some last =>
    obtain ⟨j,w⟩ := last
    rw [hl] at hc
    obtain ⟨hw,hgreat⟩ := OrdMap.getLast?_greatest hsort hl
    obtain ⟨hw,hj⟩ := (hin j w).mp hw
    have hjw := h.keyed j w hw
    have hpw := h.proper j w hw
    have hkv := h.keyed k v hm
    dsimp only at hc
    rcases lt_trichotomy k j with hlt | rfl | hlt
    · have := h.ordered hm hw hlt
      split at hc <;> omega
    · obtain rfl := m.vmas.value_unique hm hw
      split at hc <;> omega
    · -- a later key is past the base, so it is past the end of the last VMA below it
      have hpast : ¬ k ≤ mmapBase := fun hle => absurd (hgreat (k,v) ((hin k v).mpr ⟨hm,hle⟩))
        (not_le.mpr hlt)
      have := h.ordered hw hm hlt
      split at hc <;> omega

/-- A range of the region for mappings that overlaps no VMA. -/
structure Window (m : VmaMap) (size base : Nat) : Prop where
  low : mmapBase ≤ base
  high : base + size ≤ mmapLimit
  vacant : Vacant m.vmas base (base + size)

theorem base_le_first_cursor (m : VmaMap) : mmapBase ≤ m.firstCursor := by
  unfold firstCursor
  split
  · split <;> omega
  · exact .refl

theorem Window.first_cursor_le (hw : Window m size base) (h : Tidy m.vmas) (hsize : 0 < size) :
    m.firstCursor ≤ base := by
  have hlow := hw.low
  unfold firstCursor
  split
  · rename_i k v hl
    obtain ⟨hm,hk⟩ := mem_filter.mp (mem_of_getLast? hl)
    have hv := hw.vacant k v hm
    have hkey := h.keyed k v hm
    simp only [decide_eq_true_eq] at hk
    split <;> omega
  · exact hlow

theorem find_free_spec (h : Tidy m.vmas) (hf : m.findFree size = some base) :
    0 < size ∧ Window m size base := by
  unfold findFree at hf
  split at hf
  · cases hf
  rename_i hsize
  have hsort : ((m.vmas.fromKey m.firstCursor).map Prod.snd).Pairwise (fun v w => v.start < w.start) := by
    refine pairwise_map.mpr ?_
    refine (m.vmas.sorted.sublist filter_sublist).imp_of_mem ?_
    intro a b ha hb hlt
    rw [h.keyed a.1 a.2 (mem_filter.mp ha).1,h.keyed b.1 b.2 (mem_filter.mp hb).1]
    exact hlt
  obtain ⟨hle,hfit,hgap⟩ := scan_gaps_spec hsort hf
  refine ⟨Nat.pos_of_ne_zero hsize,le_trans (base_le_first_cursor m) hle,hfit,?_⟩
  intro k v hm
  by_cases hk : k < m.firstCursor
  · exact .inl (le_trans (first_cursor h hm hk) hle)
  · refine hgap v (List.mem_map.mpr ⟨(k,v),?_,rfl⟩)
    exact mem_filter.mpr ⟨hm,by simpa using hk⟩

/-- The search finds the lowest window there is. -/
theorem find_free_exact {m : VmaMap} (h : Tidy m.vmas) {size : Nat} (hsize : 0 < size) :
    (∀ base, m.findFree size = some base → Window m size base ∧ ∀ b, Window m size b → base ≤ b) ∧
    (m.findFree size = none → ∀ b, ¬ Window m size b) := by
  have hleast : ∀ b, Window m size b → ∃ found ≤ b, m.findFree size = some found := by
    intro b hb
    rw [findFree,if_neg hsize.ne']
    refine scan_gaps_least (hb.first_cursor_le h hsize) hb.high fun v hv => ?_
    obtain ⟨⟨k,w⟩,hkw,rfl⟩ := List.mem_map.mp hv
    exact hb.vacant k w (mem_filter.mp hkw).1
  refine ⟨fun base hf => ⟨(find_free_spec h hf).2,fun b hb => ?_⟩,fun hf b hb => ?_⟩
  · obtain ⟨found,hle,hfound⟩ := hleast b hb
    rw [hf] at hfound
    cases hfound
    exact hle
  · obtain ⟨found,-,hfound⟩ := hleast b hb
    rw [hf] at hfound
    cases hfound

/-- A VMA that straddles the base is passed, and the gap behind it is one page long. -/
theorem find_free_exact_gap :
    Window ((VmaMap.new.insert ⟨0xFFFFF000,0x100001000,3,none⟩).insert ⟨0x100002000,0x100003000,3,none⟩)
      4096 0x100001000 := by
  have htidy : Tidy ((VmaMap.new.insert ⟨0xFFFFF000,0x100001000,3,none⟩).insert
      ⟨0x100002000,0x100003000,3,none⟩).vmas :=
    (Spans.empty.insert (by decide) (by decide)).insert (by decide) (by decide)
  exact ((find_free_exact htidy (by decide)).1 0x100001000 (by decide)).1

theorem find_and_insert_tidy (h : Tidy m.vmas)
    (hf : m.findAndInsert size prot b = some (base,m')) : Tidy m'.vmas := by
  obtain ⟨base',hfree,hf⟩ := bind_eq_some_iff.mp hf
  obtain ⟨end_,hend,hf⟩ := map_eq_some_iff.mp hf
  obtain ⟨hpos,hv⟩ := find_free_spec h hfree
  unfold checkedAdd at hend
  split at hend
  · cases hend
    cases hf
    exact (insert_merged_spec h (Nat.lt_add_of_pos_right hpos) hv.vacant).1
  · cases hend

end Miku.Mm
