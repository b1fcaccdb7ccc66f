import Miku.Ext.Store
import Miku.Lib.Run

namespace Miku.Ext
open Lib Function List Option BlockCache

namespace BlockCache

variable {c c' : BlockCache} {i b : Nat} {e e' : CacheEntry}

def Unique (c : BlockCache) : Prop :=
  ∀ (i j : Nat) (e e' : CacheEntry), c.entries[i]? = some e → c.entries[j]? = some e' →
    e.valid = true → e'.valid = true → e.blockNum = e'.blockNum → i = j

/-- A cache with at least one slot whose clean copies are what the disk has. -/
structure Coherent (c : BlockCache) (disk : Nat → Bytes) : Prop where
  slots : c.entries ≠ []
  unique : c.Unique
  clean : ∀ e ∈ c.entries, e.valid = true → e.dirty = false → e.data = disk e.blockNum

theorem holds_iff : CacheEntry.holds b e = true ↔ e.valid = true ∧ e.blockNum = b := by
  simp [CacheEntry.holds]

theorem find_of_at (hu : c.Unique) (hi : c.entries[i]? = some e)
    (hb : CacheEntry.holds b e = true) : c.find b = some e.data := by
  unfold find
  cases hf : c.entries.find? (CacheEntry.holds b) with
  | none =>
    have := find?_eq_none.mp hf e (mem_of_getElem? hi)
    exact absurd hb this
  | some e' =>
    obtain ⟨j,hj⟩ := mem_iff_getElem?.mp (mem_of_find?_eq_some hf)
    have h' := holds_iff.mp (find?_some hf)
    have h := holds_iff.mp hb
    have hij : i = j := hu i j e e' hi hj h.1 h'.1 (h.2.trans h'.2.symm)
    subst hij
    rw [hi] at hj
    cases hj
    rfl

theorem find_none_of (h : ∀ e ∈ c.entries, CacheEntry.holds b e = false) : c.find b = none := by
  unfold find
  rw [find?_eq_none.mpr fun e he => by simp [h e he]]
  rfl

theorem at_of_find (h : c.find b = some d) :
    ∃ (i : Nat) (e : CacheEntry), c.entries[i]? = some e ∧ CacheEntry.holds b e = true ∧
      e.data = d := by
  obtain ⟨e,he,rfl⟩ := map_eq_some_iff.mp h
  obtain ⟨i,hi⟩ := mem_iff_getElem?.mp (mem_of_find?_eq_some he)
  exact ⟨i,e,hi,find?_some he,rfl⟩

theorem not_holds_of_find (h : c.find b = none) (he : e ∈ c.entries) :
    CacheEntry.holds b e = false := by
  have := find?_eq_none.mp (map_eq_none_iff.mp h) e he
  simpa using this

theorem slotOf_spec (h : c.slotOf b = some i) :
    ∃ e, c.entries[i]? = some e ∧ CacheEntry.holds b e = true := by
  obtain ⟨hi,hb,-⟩ := findIdx?_eq_some_iff_getElem.mp h
  exact ⟨c.entries[i],getElem?_eq_getElem hi,hb⟩

theorem find_of_slotOf_none (h : c.slotOf b = none) : c.find b = none :=
  find_none_of fun e he => by simpa using findIdx?_eq_none_iff.mp h e he

variable {disk : Nat → Bytes}

theorem new_coherent (hn : 0 < n) : (new n).Coherent disk where
  slots h := by simp [new,Nat.ne_of_gt hn] at h
  unique i j e e' he _ hv _ _ := by
    have := eq_of_mem_replicate (mem_of_getElem? he)
    simp [this,emptySlot] at hv
  clean e he hv _ := by
    have := eq_of_mem_replicate he
    simp [this,emptySlot] at hv

/-- One slot is rewritten. -/
structure Rewritten (c c' : BlockCache) (i : Nat) (e e' : CacheEntry) : Prop where
  before : c.entries[i]? = some e
  after : c'.entries[i]? = some e'
  others : ∀ j, j ≠ i → c'.entries[j]? = c.entries[j]?

theorem rewritten_modify {f : CacheEntry → CacheEntry} (hi : c.entries[i]? = some e)
    (hc : c'.entries = c.entries.modify i f) : Rewritten c c' i e (f e) where
  before := hi
  after := by simp [hc,hi]
  others j hj := by
    rw [hc,getElem?_modify]
    split
    · rename_i he
      exact absurd he.symm hj
    · simp

namespace Rewritten

section

variable (h : Rewritten c c' i e e')
include h

theorem mem (hx : x ∈ c'.entries) : x = e' ∨ ∃ j, j ≠ i ∧ c.entries[j]? = some x := by
  obtain ⟨j,hj⟩ := mem_iff_getElem?.mp hx
  by_cases hij : j = i
  · subst hij
    rw [h.after] at hj
    exact .inl (some.inj hj).symm
  · exact .inr ⟨j,hij,h.others j hij ▸ hj⟩

theorem unique (hu : c.Unique)
    (hnew : ∀ j x, j ≠ i → c.entries[j]? = some x → x.valid = true → e'.valid = true →
      x.blockNum ≠ e'.blockNum) : c'.Unique := by
  intro k l x y hk hl hx hy hb
  by_cases hki : k = i
  · by_cases hli : l = i
    · rw [hki,hli]
    · subst hki
      rw [h.after] at hk
      cases hk
      rw [h.others l hli] at hl
      exact absurd hb.symm (hnew l y hli hl hy hx)
  · rw [h.others k hki] at hk
    by_cases hli : l = i
    · subst hli
      rw [h.after] at hl
      cases hl
      exact absurd hb (hnew k x hki hk hx hy)
    · rw [h.others l hli] at hl
      exact hu k l x y hk hl hx hy hb

theorem find (hu : c.Unique) (hu' : c'.Unique) :
    c'.find b = if CacheEntry.holds b e' then some e'.data
      else if CacheEntry.holds b e then none else c.find b := by
  split
  · rename_i hb
    exact find_of_at hu' h.after hb
  · rename_i hb
    split
    · rename_i hbe
      apply find_none_of
      intro x hx
      rcases h.mem hx with rfl | ⟨j,hj,hx⟩
      · simpa using hb
      · by_contra hc
        have h1 := holds_iff.mp hbe
        have h2 := holds_iff.mp (Bool.not_eq_false _ ▸ hc)
        exact hj (hu j i x e hx h.before h2.1 h1.1 (h2.2.trans h1.2.symm))
    · rename_i hbe
      cases hf : c.find b with
      | none =>
        apply find_none_of
        intro x hx
        rcases h.mem hx with rfl | ⟨j,hj,hx⟩
        · simpa using hb
        · exact not_holds_of_find hf (mem_of_getElem? hx)
      | some d =>
        obtain ⟨j,x,hj,hxb,rfl⟩ := at_of_find hf
        have hji : j ≠ i := by
          rintro rfl
          rw [h.before] at hj
          cases hj
          exact hbe hxb
        exact find_of_at hu' ((h.others j hji).trans hj) hxb

theorem find_same (hu : c.Unique) (hv : e'.valid = e.valid)
    (hb : e'.blockNum = e.blockNum) (hd : e'.data = e.data) : c'.Unique ∧ ∀ b, c'.find b = c.find b := by
  have hu' : c'.Unique := by
    apply h.unique hu
    intro j x hj hx hxv hev he
    exact hj (hu j i x e hx h.before hxv (hv ▸ hev) (he.trans hb))
  refine ⟨hu',fun b => ?_⟩
  rw [h.find hu hu']
  have hh : CacheEntry.holds b e' = CacheEntry.holds b e := by simp [CacheEntry.holds,hv,hb]
  rw [hh,hd]
  split
  · rename_i hbe
    exact (find_of_at hu h.before hbe).symm
  · rfl

end

end Rewritten

variable {p : CacheEntry → Bool}

theorem lru_spec (h : lru p es = some (i,t)) : ∃ e, es[i]? = some e ∧ p e = true := by
  induction es generalizing i t with
  | nil => simp [lru] at h
  | cons e es ih =>
    simp only [lru] at h
    cases hl : lru p es with
    | none =>
      simp only [hl] at h
      split at h
      · cases h
        exact ⟨e,rfl,by assumption⟩
      · simp at h
    | some it =>
      simp only [hl] at h
      split at h
      · rename_i hp
        cases h
        simp only [Bool.and_eq_true] at hp
        exact ⟨e,rfl,hp.1⟩
      · cases h
        obtain ⟨x,hx,hp⟩ := ih hl
        exact ⟨x,by simpa using hx,hp⟩

theorem lru_none (h : lru p es = none) : ∀ e ∈ es, p e = false := by
  induction es with
  | nil => simp
  | cons e es ih =>
    simp only [lru] at h
    cases hl : lru p es with
    | none =>
      simp only [hl] at h
      split at h
      · simp at h
      · rename_i hp
        intro x hx
        rcases mem_cons.mp hx with rfl | hx
        · simpa using hp
        · exact ih hl x hx
    | some it =>
      simp only [hl] at h
      split at h <;> simp at h

def Roomy (c : BlockCache) : Prop := ∃ e ∈ c.entries, e.valid = false ∨ e.dirty = false

theorem roomy_of_no_victim (h : c.evictVictim = none) : c.Roomy := by
  unfold evictVictim at h
  split at h
  · rename_i hany
    obtain ⟨e,he,hv⟩ := List.any_eq_true.mp hany
    exact ⟨e,he,.inl (by simpa using hv)⟩
  · split at h
    · rename_i hany
      obtain ⟨e,he,hv⟩ := List.any_eq_true.mp hany
      simp only [Bool.and_eq_true,Bool.not_eq_eq_eq_not,Bool.not_true] at hv
      exact ⟨e,he,.inr hv.2⟩
    · simp at h

theorem victim_spec (hs : c.entries ≠ []) (h : c.evictVictim = some i) :
    (∀ e ∈ c.entries, e.valid = true) ∧ ∃ e, c.entries[i]? = some e := by
  unfold evictVictim at h
  split at h
  · simp at h
  · rename_i hvalid
    split at h
    · simp at h
    · refine ⟨fun e he => ?_,?_⟩
      · by_contra hc
        exact hvalid (List.any_eq_true.mpr ⟨e,he,by simpa using hc⟩)
      · cases hl : lru (fun _ => true) c.entries with
        | some it =>
          obtain ⟨e,he,-⟩ := lru_spec hl
          simp only [hl,map_some,getD_some,some.injEq] at h
          exact ⟨e,h ▸ he⟩
        | none =>
          obtain ⟨e,es,hes⟩ := exists_cons_of_ne_nil hs
          have := lru_none hl e (by simp [hes])
          simp at this

theorem findSlot_spec (h : c.Roomy) :
    ∃ e, c.entries[c.findSlot]? = some e ∧ (e.valid = false ∨ e.dirty = false) := by
  unfold findSlot
  cases hf : c.entries.findIdx? (fun e => !e.valid) with
  | some i =>
    obtain ⟨hi,hb,-⟩ := findIdx?_eq_some_iff_getElem.mp hf
    exact ⟨c.entries[i],getElem?_eq_getElem hi,.inl (by simpa using hb)⟩
  | none =>
    simp only
    cases hl : lru (fun e => !e.dirty) c.entries with
    | some it =>
      obtain ⟨e,he,hp⟩ := lru_spec hl
      exact ⟨e,he,.inr (by simpa using hp)⟩
    | none =>
      obtain ⟨e,he,hv | hd⟩ := h
      · have := findIdx?_eq_none_iff.mp hf e he
        simp [hv] at this
      · have := lru_none hl e he
        simp [hd] at this

theorem Coherent.rewrite (h : c.Coherent disk) (hr : Rewritten c c' i e e')
    (hu : c'.Unique) (hclean : e'.valid = true → e'.dirty = false → e'.data = disk e'.blockNum) :
    c'.Coherent disk where
  slots hc := by
    have := hr.after
    simp [hc] at this
  unique := hu
  clean x hx hv hd := by
    rcases hr.mem hx with rfl | ⟨j,-,hj⟩
    · exact hclean hv hd
    · exact h.clean x (mem_of_getElem? hj) hv hd

theorem get_fst : (c.get b).1 = c.find b := by
  unfold get
  cases hs : c.slotOf b with
  | some i => rfl
  | none => exact (find_of_slotOf_none hs).symm

section

variable (h : c.Coherent disk)
include h

theorem get_snd : (c.get b).2.Coherent disk ∧ ∀ b', (c.get b).2.find b' = c.find b' := by
  unfold get
  cases hs : c.slotOf b with
  | none => exact ⟨h,fun _ => rfl⟩
  | some i =>
    obtain ⟨e,he,-⟩ := slotOf_spec hs
    have hr : Rewritten c (c.stamp i id) i e _ := rewritten_modify he rfl
    obtain ⟨hu,hf⟩ := hr.find_same h.unique rfl rfl rfl
    exact ⟨h.rewrite hr hu (h.clean e (mem_of_getElem? he)),hf⟩

theorem putDirty_spec (hroom : c.slotOf b = none → c.Roomy)
    (d : Bytes) : (c.putDirty b d).Coherent disk ∧ ∀ b', ((c.putDirty b d).find b').getD (disk b') =
        if b' = b then d else (c.find b').getD (disk b') := by
  unfold putDirty
  cases hs : c.slotOf b with
  | some i =>
    obtain ⟨e,he,hb⟩ := slotOf_spec hs
    have hb' := holds_iff.mp hb
    have hr : Rewritten c (c.stamp i (fun e => { e with data := d, dirty := true })) i e _ :=
      rewritten_modify he rfl
    have hu := hr.unique h.unique fun j x hj hx hxv _ hbx =>
      hj (h.unique j i x e hx he hxv hb'.1 hbx)
    refine ⟨h.rewrite hr hu (fun _ hd => by simp at hd),fun b' => ?_⟩
    simp only
    rw [hr.find h.unique hu]
    by_cases hbb : b' = b
    · subst hbb
      simp [CacheEntry.holds,hb'.1,hb'.2]
    · have hn : CacheEntry.holds b' e = false := by
        simp [CacheEntry.holds,hb'.2,Ne.symm hbb]
      simp [CacheEntry.holds,hb'.2,Ne.symm hbb,hbb]
  | none =>
    obtain ⟨e,he,hfree⟩ := findSlot_spec (hroom hs)
    have hr : Rewritten c (c.stamp c.findSlot (fun _ => ⟨b,true,true,0,d⟩)) c.findSlot e _ :=
      rewritten_modify he rfl
    have hfind := find_of_slotOf_none hs
    have hu := hr.unique h.unique fun j x hj hx hxv _ hbx => by
      have := not_holds_of_find hfind (mem_of_getElem? hx)
      simp only at hbx
      simp [CacheEntry.holds,hxv,hbx] at this
    refine ⟨h.rewrite hr hu (fun _ hd => by simp at hd),fun b' => ?_⟩
    simp only
    rw [hr.find h.unique hu]
    by_cases hbb : b' = b
    · subst hbb
      simp [CacheEntry.holds]
    · have hnew : CacheEntry.holds b' ⟨b,true,true,c.accessCounter + 1,d⟩ = false := by
        simp [CacheEntry.holds,Ne.symm hbb]
      rw [if_neg (by simpa using hnew),if_neg hbb]
      cases hheld : CacheEntry.holds b' e with
      | true => -- the displaced copy was clean, so the disk has it
        have hheld' := holds_iff.mp hheld
        have hdirty : e.dirty = false := by
          rcases hfree with hv | hd
          · simp [hheld'.1] at hv
          · exact hd
        rw [if_pos rfl,find_of_at h.unique he hheld,getD_none,getD_some,
          h.clean e (mem_of_getElem? he) hheld'.1 hdirty,hheld'.2]
      | false => rfl

theorem markClean_spec (he : c.entries[i]? = some e) (hv : e.valid = true) :
    (c.markClean i).Coherent (update disk e.blockNum e.data) ∧
      ∀ b', (c.markClean i).find b' = c.find b' := by
  have hr : Rewritten c (c.markClean i) i e _ := rewritten_modify he rfl
  obtain ⟨hu,hf⟩ := hr.find_same h.unique rfl rfl rfl
  refine ⟨⟨?_,hu,?_⟩,hf⟩
  · intro hc
    have := hr.after
    simp [hc] at this
  · intro x hx hxv hxd
    rcases hr.mem hx with rfl | ⟨j,hj,hx⟩
    · simp
    · have hb : x.blockNum ≠ e.blockNum := fun hb => hj (h.unique j i x e hx he hxv hv hb)
      rw [update_of_ne hb]
      exact h.clean x (mem_of_getElem? hx) hxv hxd

theorem invalidate_spec (d : Bytes) : (c.invalidate b).Coherent (update disk b d) ∧
      ∀ b', (c.invalidate b).find b' = if b' = b then none else c.find b' := by
  have hat : ∀ (i : Nat) (x : CacheEntry), (c.invalidate b).entries[i]? = some x → x.valid = true →
      c.entries[i]? = some x ∧ x.blockNum ≠ b := by
    intro i x hx hv
    simp only [invalidate,getElem?_map,map_eq_some_iff] at hx
    obtain ⟨y,hy,hyx⟩ := hx
    split at hyx
    · rw [← hyx] at hv
      simp at hv
    · rename_i hn
      subst hyx
      exact ⟨hy,fun hb => hn (holds_iff.mpr ⟨hv,hb⟩)⟩
  have hu : (c.invalidate b).Unique := fun i j x y hx hy hxv hyv hb =>
    h.unique i j x y (hat i x hx hxv).1 (hat j y hy hyv).1 hxv hyv hb
  refine ⟨⟨?_,hu,?_⟩,fun b' => ?_⟩
  · simpa [invalidate] using h.slots
  · intro x hx hv hd
    obtain ⟨i,hi⟩ := mem_iff_getElem?.mp hx
    obtain ⟨hi,hb⟩ := hat i x hi hv
    rw [update_of_ne hb]
    exact h.clean x (mem_of_getElem? hi) hv hd
  · split
    · rename_i hb
      subst hb
      apply find_none_of
      intro x hx
      obtain ⟨i,hi⟩ := mem_iff_getElem?.mp hx
      by_contra hc
      have hh := holds_iff.mp (Bool.not_eq_false _ ▸ hc)
      exact (hat i x hi hh.1).2 hh.2
    · rename_i hb
      cases hf : c.find b' with
      | none =>
        apply find_none_of
        intro x hx
        obtain ⟨i,hi⟩ := mem_iff_getElem?.mp hx
        by_contra hc
        have hh := holds_iff.mp (Bool.not_eq_false _ ▸ hc)
        have := not_holds_of_find hf (mem_of_getElem? (hat i x hi hh.1).1)
        exact hc this
      | some d' =>
        obtain ⟨i,x,hi,hx,rfl⟩ := at_of_find hf
        have hxv := holds_iff.mp hx
        refine find_of_at (i := i) hu ?_ hx
        have hn : CacheEntry.holds b x = false := by
          simp [CacheEntry.holds,hxv.2,hb]
        simp [invalidate,hi,hn]

end

end BlockCache

namespace Store

variable {s : Store} {b : Nat} {d : Bytes}

/-- The cache of a store, if it has one, is coherent with its disk. -/
def Coherent (s : Store) : Prop := ∀ c, s.cache = some c → c.Coherent s.disk

/-- Nothing but the cache and the disk differs, and a reader sees the same. -/
structure Same (s t : Store) : Prop where
  size : t.blockSize = s.blockSize
  count : t.blocksCount = s.blocksCount
  view : t.view = s.view

theorem Same.refl : Same s s := ⟨rfl,rfl,rfl⟩

theorem Same.trans (h : Same s t) (h' : Same t u) : Same s u :=
  ⟨h'.size.trans h.size,h'.count.trans h.count,h'.view.trans h.view⟩

theorem view_of_find (hc : s.cache = some c) :
    s.view b = (c.find b).getD (s.disk b) := by simp [view,hc]

theorem readBlockInto_fst :
    (s.readBlockInto b).1 = if s.isValidBlock b then .ok (s.view b) else .error .invalidInode := by
  unfold readBlockInto
  split
  · simp only [get_fst]
    rfl
  · rfl

theorem readBlockInto_snd (h : s.Coherent) :
    Same s (s.readBlockInto b).2 ∧ (s.readBlockInto b).2.Coherent := by
  unfold readBlockInto
  split
  · refine ⟨⟨rfl,rfl,?_⟩,?_⟩
    · funext x
      cases hc : s.cache with
      | none => simp [view,hc]
      | some c => simp [view,hc,(get_snd (h c hc)).2 x]
    · intro x hx
      obtain ⟨c,hc,rfl⟩ := map_eq_some_iff.mp hx
      exact (get_snd (h c hc)).1
  · exact ⟨.refl,h⟩

theorem flushSlot_spec (h : s.Coherent)
    (hv : ∀ c e, s.cache = some c → c.entries[i]? = some e → e.valid = true) :
    Same s (s.flushSlot i) ∧ (s.flushSlot i).Coherent := by
  unfold flushSlot
  cases hc : s.cache with
  | none => exact ⟨.refl,h⟩
  | some c =>
    simp only
    cases he : c.entries[i]? with
    | none => exact ⟨.refl,h⟩
    | some e =>
      obtain ⟨hco,hf⟩ := markClean_spec (h c hc) he (hv c e hc he)
      refine ⟨⟨rfl,rfl,?_⟩,?_⟩
      · funext x
        simp only [view,setCache,writeDisk,bind_some,hf,hc]
        by_cases hx : x = e.blockNum
        · rw [hx,find_of_at (h c hc).unique he (holds_iff.mpr ⟨hv c e hc he,rfl⟩)]
          rfl
        · rw [update_of_ne hx]
      · intro x hx
        cases hx
        exact hco

theorem flushSlot_valid {k : Nat}
    (hv : ∀ c e, s.cache = some c → c.entries[k]? = some e → e.valid = true) :
    ∀ c e, (s.flushSlot i).cache = some c → c.entries[k]? = some e → e.valid = true := by
  unfold flushSlot
  cases hc : s.cache with
  | none => simp [hc]
  | some c =>
    simp only
    cases he : c.entries[i]? with
    | none => simpa [hc] using hv
    | some e =>
      intro c' x hc' hx
      cases hc'
      simp only [BlockCache.markClean,getElem?_modify] at hx
      cases hk : c.entries[k]? with
      | none => simp [hk] at hx
      | some y =>
        have hy := hv c y hc hk
        simp only [hk] at hx
        split at hx <;> · cases hx; exact hy

theorem syncDirtyBlocks_spec (h : s.Coherent) :
    Same s s.syncDirtyBlocks ∧ s.syncDirtyBlocks.Coherent := by
  unfold syncDirtyBlocks
  cases hc : s.cache with
  | none => exact ⟨.refl,h⟩
  | some c =>
    have hslots : ∀ i ∈ c.dirtySlots, ∀ c' e, s.cache = some c' → c'.entries[i]? = some e →
        e.valid = true := by
      intro i hi c' e hc' he
      rw [hc] at hc'
      cases hc'
      have := (mem_filter.mp hi).2
      simp only [he,any_some,Bool.and_eq_true] at this
      exact this.1
    simp only
    -- every slot still to be written holds a valid block
    generalize c.dirtySlots = slots at hslots
    have hloop : ∀ (slots : List Nat) (t : Store), t.Coherent →
        (∀ i ∈ slots, ∀ c' e, t.cache = some c' → c'.entries[i]? = some e → e.valid = true) →
        Same t (slots.foldl flushSlot t) ∧ (slots.foldl flushSlot t).Coherent := by
      intro slots
      induction slots with
      | nil => exact fun t ht _ => ⟨.refl,ht⟩
      | cons i slots ih =>
        intro t ht hall
        obtain ⟨hs,hco⟩ := flushSlot_spec ht (hall i mem_cons_self)
        obtain ⟨hs',hco'⟩ := ih (t.flushSlot i) hco fun k hk =>
          flushSlot_valid (hall k (mem_cons_of_mem _ hk))
        exact ⟨hs.trans hs',hco'⟩
    exact hloop slots s h hslots

def Roomy (s : Store) : Prop := ∀ c, s.cache = some c → c.Roomy

theorem flushEvictVictim_spec (h : s.Coherent) :
    Same s s.flushEvictVictim ∧ s.flushEvictVictim.Coherent ∧ s.flushEvictVictim.Roomy := by
  unfold flushEvictVictim
  cases hc : s.cache with
  | none =>
    refine ⟨.refl,h,?_⟩
    intro c' hc'
    simp [hc] at hc'
  | some c =>
    simp only
    cases hv : c.evictVictim with
    | none =>
      refine ⟨.refl,h,?_⟩
      intro c' hc'
      rw [hc] at hc'
      cases hc'
      exact roomy_of_no_victim hv
    | some i =>
      obtain ⟨hall,e,he⟩ := victim_spec (h c hc).slots hv
      obtain ⟨hs,hco⟩ := flushSlot_spec (i := i) h fun c' x hc' hx => by
        rw [hc] at hc'
        cases hc'
        exact hall x (mem_of_getElem? hx)
      refine ⟨hs,hco,?_⟩
      intro c' hc'
      simp only [flushSlot,hc,he,setCache,some.injEq] at hc'
      subst hc'
      refine ⟨{ e with dirty := false },?_,.inr rfl⟩
      apply mem_of_getElem? (i := i)
      simp [BlockCache.markClean,he]

theorem writeBlockDataDirect_spec (h : s.Coherent) : (s.writeBlockDataDirect b d).Coherent ∧
      (s.writeBlockDataDirect b d).view = update s.view b d := by
  unfold writeBlockDataDirect
  cases hc : s.cache with
  | none =>
    refine ⟨fun c hc' => by simp at hc',?_⟩
    funext x
    by_cases hx : x = b
    · subst hx
      simp [view,writeDisk]
    · simp [view,writeDisk,hc,update_of_ne hx]
  | some c =>
    obtain ⟨hco,hf⟩ := invalidate_spec (b := b) (h c hc) d
    refine ⟨fun c' hc' => ?_,?_⟩
    · simp only [map_some,some.injEq] at hc'
      subst hc'
      exact hco
    · funext x
      by_cases hx : x = b
      · subst hx
        simp [view,writeDisk,hf]
      · simp [view,writeDisk,hf,hc,hx]

theorem makeRoom_spec (h : s.Coherent) :
    Same s s.makeRoom ∧ s.makeRoom.Coherent ∧ s.makeRoom.Roomy := by
  unfold makeRoom
  split
  · obtain ⟨hs,hco⟩ := syncDirtyBlocks_spec h
    obtain ⟨hs',hco',hroom⟩ := flushEvictVictim_spec hco
    exact ⟨hs.trans hs',hco',hroom⟩
  · exact flushEvictVictim_spec h

theorem stageBlock_spec (h : s.Coherent) (hroom : s.Roomy) :
    (s.stageBlock b d).Coherent ∧ (s.stageBlock b d).view = update s.view b d := by
  unfold stageBlock
  cases hc : s.cache with
  | none => exact writeBlockDataDirect_spec h
  | some c =>
    obtain ⟨hco,hf⟩ := putDirty_spec (b := b) (h c hc) (fun _ => hroom c hc) d
    refine ⟨fun c' hc' => ?_,?_⟩
    · cases hc'
      exact hco
    · funext x
      rw [view_of_find (c := c.putDirty b d) rfl]
      refine (hf x).trans ?_
      by_cases hx : x = b
      · simp [hx]
      · simp [hx,view_of_find hc]

@[simp] theorem stageBlock_blockSize : (s.stageBlock b d).blockSize = s.blockSize := by
  unfold stageBlock
  split <;> rfl

@[simp] theorem stageBlock_blocksCount : (s.stageBlock b d).blocksCount = s.blocksCount := by
  unfold stageBlock
  split <;> rfl

/-- One block of the volume has been written, as a reader sees it. -/
structure Wrote (s t : Store) (b : Nat) (d : Bytes) : Prop where
  size : t.blockSize = s.blockSize
  count : t.blocksCount = s.blocksCount
  view : t.view = update s.view b d

/-- The cache is transparent: after a write a reader sees the new block and every
other as before. -/
theorem writeBlockData_spec (h : s.Coherent) :
    Wrote s (s.writeBlockData b d) b d ∧ (s.writeBlockData b d).Coherent := by
  obtain ⟨hs,hco,hroom⟩ := makeRoom_spec h
  obtain ⟨hco',hv⟩ := stageBlock_spec (b := b) (d := d) hco hroom
  refine ⟨⟨?_,?_,?_⟩,hco'⟩
  · exact (stageBlock_blockSize).trans hs.size
  · exact (stageBlock_blocksCount).trans hs.count
  · exact hs.view ▸ hv

end Store

namespace Store
variable {s : Store} {b : Nat} {data : List UInt8} {p : CacheEntry → Bool}

theorem hasCopy_iff : s.hasCopy p b = false ↔
      ∀ c, s.cache = some c → ∀ e ∈ c.entries, e.holds b = true → p e = false := by
  cases hc : s.cache with
  | none => simp [hasCopy,hc]
  | some c => simp [hasCopy,hc]

theorem flushSlot_dirty (hc' : (s.flushSlot i).cache = some c') (he' : c'.entries[k]? = some e')
    (hd : e'.dirty = true) : k ≠ i ∧ ∃ c, s.cache = some c ∧ c.entries[k]? = some e' := by
  unfold flushSlot at hc'
  cases hc : s.cache with
  | none => simp [hc] at hc'
  | some c =>
    simp only [hc] at hc'
    cases he : c.entries[i]? with
    | none =>
      simp only [he,hc,some.injEq] at hc'
      subst hc'
      refine ⟨?_,c,rfl,he'⟩
      rintro rfl
      rw [he] at he'
      cases he'
    | some e =>
      simp only [he,setCache,some.injEq] at hc'
      subst hc'
      simp only [BlockCache.markClean,getElem?_modify] at he'
      by_cases hk : i = k
      · subst hk
        simp only [he,↓reduceIte,Option.map_eq_map,Option.map_some,some.injEq] at he'
        subst he'
        exact absurd hd Bool.false_ne_true
      · simp only [hk,↓reduceIte,Option.map_eq_map,Option.map_id_fun',id_eq] at he'
        exact ⟨Ne.symm hk,c,rfl,he'⟩

theorem hasCopy_flushSlot (h : s.hasCopy CacheEntry.dirty b = false) :
    (s.flushSlot i).hasCopy CacheEntry.dirty b = false := by
  rw [hasCopy_iff] at h ⊢
  intro c' hc' e' he' hb
  by_contra hd
  obtain ⟨k,hk⟩ := mem_iff_getElem?.1 he'
  obtain ⟨-,c,hc,he⟩ := flushSlot_dirty hc' hk (by simpa using hd)
  exact hd (h c hc e' (mem_of_getElem? he) hb)

theorem hasCopy_flushEvictVictim (h : s.hasCopy CacheEntry.dirty b = false) :
    s.flushEvictVictim.hasCopy CacheEntry.dirty b = false := by
  unfold flushEvictVictim
  split
  · exact h
  · split
    · exact h
    · exact hasCopy_flushSlot h

/-- The slots still dirty after a round of flushes are those it did not reach. -/
theorem flushSlots_dirty (slots : List Nat)
    (hc' : (slots.foldl flushSlot s).cache = some c') (he' : c'.entries[k]? = some e')
    (hd : e'.dirty = true) : k ∉ slots ∧ ∃ c, s.cache = some c ∧ c.entries[k]? = some e' := by
  induction slots generalizing s with
  | nil => exact ⟨not_mem_nil,c',hc',he'⟩
  | cons i slots ih =>
    obtain ⟨hk,c,hc,he⟩ := ih hc'
    obtain ⟨hi,c0,hc0,he0⟩ := flushSlot_dirty hc he hd
    exact ⟨by simp [hi,hk],c0,hc0,he0⟩

theorem not_dirty_of_none (h : s.hasCopy (fun _ => true) b = false) :
    s.hasCopy CacheEntry.dirty b = false :=
  hasCopy_iff.2 fun c hc e he hb => absurd (hasCopy_iff.1 h c hc e he hb) (by simp)

theorem holds_flushSlot (h : s.hasCopy (fun _ => true) b = false) :
    (s.flushSlot i).hasCopy (fun _ => true) b = false := by
  rw [hasCopy_iff] at h ⊢
  unfold flushSlot
  cases hc : s.cache with
  | none => simp [hc]
  | some c =>
    simp only
    cases he : c.entries[i]? with
    | none => exact h
    | some e =>
      intro c' hc' x hx hb
      cases hc'
      obtain ⟨k,hk⟩ := mem_iff_getElem?.1 hx
      rw [BlockCache.markClean,getElem?_modify] at hk
      obtain ⟨y,hy,rfl⟩ := Option.map_eq_some_iff.1 hk
      refine h c hc y (mem_of_getElem? hy) ?_
      split at hb <;> exact hb

theorem holds_syncDirtyBlocks (h : s.hasCopy (fun _ => true) b = false) :
    s.syncDirtyBlocks.hasCopy (fun _ => true) b = false := by
  unfold syncDirtyBlocks
  cases hc : s.cache with
  | none => exact h
  | some c =>
    simp only
    clear hc
    induction c.dirtySlots generalizing s with
    | nil => exact h
    | cons i slots ih => exact ih (holds_flushSlot h)

theorem hasCopy_syncDirtyBlocks : s.syncDirtyBlocks.hasCopy CacheEntry.dirty b = false := by
  rw [hasCopy_iff]
  intro c' hc' e' he' hb
  by_contra hd
  have hd : e'.dirty = true := by simpa using hd
  obtain ⟨k,hk⟩ := mem_iff_getElem?.1 he'
  unfold syncDirtyBlocks at hc'
  cases hc : s.cache with
  | none => simp [hc] at hc'
  | some c =>
    simp only [hc] at hc'
    obtain ⟨hnot,c0,hc0,he0⟩ := flushSlots_dirty _ hc' hk hd
    obtain rfl := some.inj (hc.symm.trans hc0)
    -- a dirty slot of the old cache is one of those written out
    apply hnot
    rw [BlockCache.dirtySlots,mem_filter,mem_range]
    refine ⟨(List.getElem?_eq_some_iff.1 he0).1,?_⟩
    simp [he0,hd,(holds_iff.1 hb).1]

section

variable (h : s.Coherent)
include h

theorem view_eq_disk (hb : s.hasCopy CacheEntry.dirty b = false) : s.view b = s.disk b := by
  cases hc : s.cache with
  | none => simp [view,hc]
  | some c =>
    rw [view_of_find hc]
    cases hf : c.find b with
    | none => rfl
    | some d =>
      obtain ⟨i,e,hi,he,rfl⟩ := at_of_find hf
      have hm := mem_of_getElem? hi
      obtain ⟨hv,rfl⟩ := holds_iff.1 he
      exact (h c hc).clean e hm hv (hasCopy_iff.1 hb c hc e hm he)

theorem writeDisk_wrote (hb : s.hasCopy (fun _ => true) b = false) :
    Wrote s (s.writeDisk b d) b d ∧ (s.writeDisk b d).Coherent := by
  have hnone : ∀ c, s.cache = some c → ∀ e ∈ c.entries, e.holds b = false := by
    intro c hc e he
    by_contra ht
    exact absurd (hasCopy_iff.1 hb c hc e he (by simpa using ht)) (by simp)
  refine ⟨⟨rfl,rfl,?_⟩,?_⟩
  · funext x
    by_cases hx : x = b
    · subst hx
      cases hc : s.cache with
      | none => simp [view,writeDisk,hc]
      | some c => simp [view,writeDisk,hc,find_none_of (hnone c hc)]
    · simp [view,writeDisk,update_of_ne hx]
  · intro c hc
    have hco := h c hc
    refine ⟨hco.slots,hco.unique,fun e he hv hd => ?_⟩
    have hne : e.blockNum ≠ b := by
      intro heq
      have := hnone c hc e he
      rw [holds_iff.2 ⟨hv,heq⟩] at this
      cases this
    change e.data = update s.disk b d e.blockNum
    rw [update_of_ne hne]
    exact hco.clean e he hv hd

theorem writeDirect_wrote :
    Wrote s (s.writeBlockDataDirect b d) b d ∧ (s.writeBlockDataDirect b d).Coherent := by
  obtain ⟨hco,hv⟩ := writeBlockDataDirect_spec (b := b) (d := d) h
  exact ⟨⟨rfl,rfl,hv⟩,hco⟩

section

variable (ha : s.blockSize ≤ data.length ∨ s.hasCopy CacheEntry.dirty b = false)
include ha

/-- A whole block does not depend on what was there; for a part of one the disk must
have what a reader sees. -/
theorem written_disk :
    written s.blockSize data (s.disk b) = written s.blockSize data (s.view b) := by
  obtain hl | hb := ha
  · rw [written,written,if_pos hl,if_pos hl]
  · rw [view_eq_disk h hb]

theorem writeData_wrote : Wrote s (s.writeData b data) b (written s.blockSize data (s.view b)) ∧
      (s.writeData b data).Coherent := by
  unfold writeData
  split
  · rename_i hl
    rw [written,if_pos hl]
    exact writeBlockData_spec h
  · rename_i hl
    obtain ⟨hsame,hco,-⟩ := flushEvictVictim_spec h
    have hb := hasCopy_flushEvictVictim (ha.resolve_left hl)
    simp only [← view_eq_disk hco hb,hsame.view]
    obtain ⟨hw,hco'⟩ := writeDirect_wrote (b := b) (d := written s.blockSize data (s.view b)) hco
    exact ⟨⟨hw.size.trans hsame.size,hw.count.trans hsame.count,hsame.view ▸ hw.view⟩,hco'⟩

end

end

/-- The store and the contents it stands for. -/
structure Shows (bs count : Nat) (s : Store) (content : Nat → Bytes) : Prop where
  coherent : s.Coherent
  size : s.blockSize = bs
  count : s.blocksCount = count
  view : s.view = content

variable {count : Nat} {content : Nat → Bytes}

section

variable (h : Shows bs count s content)
include h

theorem Shows.same (hs : Same s t) (hco : t.Coherent) : Shows bs count t content :=
  ⟨hco,hs.size.trans h.size,hs.count.trans h.count,hs.view.trans h.view⟩

theorem Shows.wrote (hw : Wrote s t b d) (hco : t.Coherent) :
    Shows bs count t (update content b d) :=
  ⟨hco,hw.size.trans h.size,hw.count.trans h.count,h.view ▸ hw.view⟩

theorem Shows.patches {metadata : List Patch}
    (ha : ∀ m ∈ metadata, s.hasCopy (fun _ => true) m.block = false) :
    Shows bs count (metadata.foldl patch s) ((BlockCall.sync metadata).apply bs content) := by
  induction metadata generalizing s content with
  | nil => exact h
  | cons m metadata ih =>
    have hm := ha m mem_cons_self
    have hdisk : s.disk m.block = content m.block := by
      rw [← h.view,view_eq_disk h.coherent (not_dirty_of_none hm)]
    obtain ⟨hw,hco⟩ := writeDisk_wrote (d := m.over (s.disk m.block)) h.coherent hm
    have hstep := h.wrote hw hco
    rw [hdisk] at hstep
    refine ih (s := s.patch m) ?_ fun m' hm' => ha m' (mem_cons_of_mem _ hm')
    rw [patch,hdisk]
    exact hstep

theorem Shows.call {o : BlockCall} (ha : o.Apart s) :
    Shows bs count (s.call o) (o.apply bs content) := by
  obtain ⟨hco,rfl,rfl,rfl⟩ := h
  have h : Shows s.blockSize s.blocksCount s s.view := ⟨hco,rfl,rfl,rfl⟩
  cases o with
  | readBlockInto b =>
    obtain ⟨hs,hco'⟩ := readBlockInto_snd (b := b) hco
    exact h.same hs hco'
  | sync metadata =>
    obtain ⟨hs,hco'⟩ := syncDirtyBlocks_spec hco
    exact (h.same hs hco').patches fun m hm => holds_syncDirtyBlocks (ha m hm).2
  | writeBlockData b data =>
    obtain ⟨hw,hco'⟩ := writeData_wrote hco ha.2
    exact h.wrote hw hco'
  | writeBlockDataDirect b data =>
    rw [Store.call,written_disk hco ha.2]
    obtain ⟨hw,hco'⟩ := writeDirect_wrote hco
    exact h.wrote hw hco'
  | writeBlockDirectNocache b data =>
    rw [Store.call,written_disk hco (.inr (not_dirty_of_none ha.2))]
    obtain ⟨hw,hco'⟩ := writeDisk_wrote hco ha.2
    exact h.wrote hw hco'
  | writeBlockBarrierNocache b data =>
    obtain ⟨hw,hco'⟩ := writeDisk_wrote hco ha.2
    exact h.wrote hw hco'

end

theorem hasCopy_sync : (s.sync metadata).hasCopy CacheEntry.dirty b = false := by
  have hcache : ∀ t : Store, (metadata.foldl patch t).cache = t.cache := by
    induction metadata with
    | nil => exact fun _ => rfl
    | cons m metadata ih => exact fun t => ih (t.patch m)
  rw [hasCopy,sync,hcache]
  exact hasCopy_syncDirtyBlocks

/-- The sectors of an addressable block are where `block_to_lba` says. -/
theorem deviceSector_eq (hb : s.Addressable b) (hk : k < s.sectorsPerBlock) (i : Nat) :
    s.deviceSector (s.blockToLba b + k) i = s.disk b (512 * k + i) := by
  unfold Addressable at hb
  rw [Nat.add_mul] at hb
  rw [deviceSector,blockToLba,Nat.min_eq_left (by omega),Nat.add_comm,Nat.add_mul_div_right _ _ (by omega),
    Nat.div_eq_of_lt hk,Nat.zero_add,Nat.add_mul_mod_self_right,Nat.mod_eq_of_lt hk]

/-- A volume that has just been mounted: the cache is empty. -/
def mounted (bs count slots : Nat) (disk : Nat → Bytes) : Store :=
  ⟨bs,count,some (BlockCache.new slots),disk⟩

theorem mounted_coherent (bs count : Nat) (disk : Nat → Bytes) (h : 0 < slots) :
    (mounted bs count slots disk).Coherent := by
  intro c hc
  cases hc
  exact new_coherent h

/-- Block 7 is staged, then block `b` is written past the cache. -/
def twoWrites (b : Nat) : List BlockCall :=
  [.writeBlockData 7 (List.replicate 1024 1),
    .writeBlockDirectNocache b (List.replicate 1024 2)]

end Store
end Miku.Ext
