import Miku.Block.Cache
import Miku.Lib.Seats

namespace Miku.Block
open Lib Function List Option

/-- What an entry holds: a device and a chunk of it. -/
def Entry.key (e : Entry) : Option (Nat × Nat) := if e.valid then some (e.dev,e.chunk) else none

/-- A cached chunk, seen without its slot. -/
structure Line where
  dirty : Bool
  data : Sectors

namespace BufferCache

variable {c c' : BufferCache} {d k i : Nat} {e : Entry} {ℓ : Line} {data : Sectors}

def key (c : BufferCache) (i : Nat) : Option (Nat × Nat) := (c.entries i).key

abbrev homes (p : Nat × Nat) : List Nat := home p.1 p.2

/-- Every chunk sits in its own set, and only once. -/
abbrev Placed (c : BufferCache) : Prop := Seated homes c.key

/-- The cache as a partial map from chunks to lines. -/
def line (c : BufferCache) (dev chunk : Nat) : Option Line :=
  (c.lookup dev chunk).map (fun i => ⟨(c.entries i).dirty,c.data i⟩)

theorem isFor_iff : (c.entries i).isFor d k = true ↔ c.key i = some (d,k) := by
  unfold key Entry.key Entry.isFor
  cases (c.entries i).valid <;> simp

theorem lookup_eq (c : BufferCache) (d k : Nat) : c.lookup d k = seat homes c.key (d,k) := by
  unfold lookup seat
  congr 1
  funext i
  exact Bool.eq_iff_iff.mpr (isFor_iff.trans (by simp))

theorem line_eq_some (h : Placed c) :
    c.line d k = some ℓ ↔ ∃ i, c.key i = some (d,k) ∧ ⟨(c.entries i).dirty,c.data i⟩ = ℓ := by
  simp [line,lookup_eq,h.seat_eq_some]

theorem line_eq_none (h : Placed c) : c.line d k = none ↔ ∀ i, c.key i ≠ some (d,k) := by
  simp [line,lookup_eq,h.seat_eq_none]

theorem line_of_key (h : Placed c) (hk : c.key i = some (d,k)) :
    c.line d k = some ⟨(c.entries i).dirty,c.data i⟩ :=
  (line_eq_some h).mpr ⟨i,hk,rfl⟩

theorem placed_new : Placed .new := Seated.empty _

theorem line_new : (BufferCache.new).line d k = none :=
  (line_eq_none placed_new).mpr (fun _ h => (nomatch h))

theorem key_setEntry : (c.setEntry i e).key = update c.key i e.key := by
  funext j
  by_cases hj : j = i
  · subst hj
    simp [key,setEntry]
  · simp [key,setEntry,update_of_ne hj]

theorem key_setEntry_same (hc : c'.entries = c.entries) (he : e.key = c.key i) :
    (c'.setEntry i e).key = c.key := by
  have hk : c'.key = c.key := by
    funext j
    simp [key,hc]
  rw [key_setEntry,he,hk,update_eq_self]

theorem line_of_keys (hk : c'.key = c.key) (hs : ∀ i, c.key i = some (d,k) →
      (c'.entries i).dirty = (c.entries i).dirty ∧ c'.data i = c.data i) :
    c'.line d k = c.line d k := by
  simp only [line,lookup_eq,hk]
  refine map_congr ?_
  intro i hi
  have hi : c.key i = some (d,k) := by simpa using find?_some hi
  obtain ⟨h1,h2⟩ := hs i hi
  rw [h1,h2]

theorem get_spec (h : Placed c) :
    (c.get d k).1 = (c.line d k).map Line.data ∧ Placed (c.get d k).2 ∧
      (c.get d k).2.line = c.line := by
  unfold get
  cases hl : c.lookup d k with
  | none => simp only [line,hl,map_none,h,and_self]
  | some i =>
    have hkey : ({ c with tick := c.tick + 1 }.setEntry i
        { c.entries i with lastAccess := c.tick + 1 }).key = c.key := key_setEntry_same rfl rfl
    refine ⟨by simp [line,hl],by simpa [Placed,hkey] using h,?_⟩
    funext d' k'
    refine line_of_keys hkey ?_
    intro j hj
    refine ⟨?_,rfl⟩
    by_cases hji : j = i
    · subst hji
      simp [setEntry]
    · simp [setEntry,update_of_ne hji]

theorem advance_line : (c.advance d k).2.line = c.line ∧ (c.advance d k).2.key = c.key := ⟨rfl,rfl⟩

theorem find_dirty_some (hf : c.findDirty d k = some i) :
    c.key i = some (d,k) ∧ (c.entries i).dirty = true := by
  have := find?_some hf
  simpa [isFor_iff] using this

theorem find_dirty_none (h : Placed c) (hf : c.findDirty d k = none) (hl : c.line d k = some ℓ) :
    ℓ.dirty = false := by
  obtain ⟨i,hi,rfl⟩ := (line_eq_some h).mp hl
  have := find?_eq_none.mp hf i (h.at_home i (d,k) hi)
  simpa [isFor_iff,hi] using this

theorem pick_loop_mem {S : List Nat}
    (hs : ∀ i ∈ is, i ∈ S) (hv : victim ∈ S) : c.pickLoop d k is victim best ∈ S := by
  induction is generalizing victim best with
  | nil => exact hv
  | cons i is ih =>
    have hi := hs i mem_cons_self
    have his : ∀ j ∈ is, j ∈ S := fun j hj => hs j (mem_cons_of_mem i hj)
    unfold pickLoop
    split
    · exact hi
    split
    · exact ih his hi
    · exact ih his hv

theorem pick_loop_own (hi : i ∈ is)
    (hk : c.key i = some (d,k)) : c.key (c.pickLoop d k is victim best) = some (d,k) := by
  induction is generalizing victim best with
  | nil => exact absurd hi not_mem_nil
  | cons j js ih =>
    unfold pickLoop
    split
    · rename_i hj
      exact isFor_iff.mp hj
    rename_i hj
    have hjs : i ∈ js := by
      rcases mem_cons.mp hi with rfl | hi
      · exact absurd (isFor_iff.mpr hk) hj
      · exact hi
    split
    · exact ih hjs
    · exact ih hjs

theorem pick_slot_spec (h : Placed c) :
    c.pickSlot d k ∈ home d k ∧ ∀ j, c.key j = some (d,k) → j = c.pickSlot d k := by
  have hbase : setBase d k ∈ home d k := mem_range'_1.mpr ⟨.refl,Nat.lt_add_of_pos_right (by decide)⟩
  unfold pickSlot
  refine ⟨pick_loop_mem (fun _ hi => hi) hbase,?_⟩
  intro j hj
  exact h.unique j _ (d,k) hj (pick_loop_own (h.at_home j (d,k) hj) hj)

/-- A new line for `(d, k)` pushes at most one other out; if that was dirty the
caller is told. -/
structure Displaces (c : BufferCache) (d k : Nat) (ℓ : Line) (victim : Option Victim)
    (c' : BufferCache) : Prop where
  placed : Placed c'
  own : c'.line d k = some ℓ
  others : ∀ d' k', (d',k') ≠ (d,k) → c'.line d' k' = c.line d' k' ∨
    (c'.line d' k' = none ∧ ∃ ℓ', c.line d' k' = some ℓ' ∧
      (ℓ'.dirty = true → victim = some ⟨d',k',ℓ'.data⟩))
  victim_line : ∀ v, victim = some v → (v.dev,v.chunk) ≠ (d,k) ∧
    c.line v.dev v.chunk = some ⟨true,v.data⟩ ∧ c'.line v.dev v.chunk = none ∧
      setBase v.dev v.chunk = setBase d k

theorem home_setBase (h : i ∈ home d k) (h' : i ∈ home d' k') : setBase d k = setBase d' k' := by
  obtain ⟨h1,h2⟩ := mem_range'_1.mp h
  obtain ⟨h3,h4⟩ := mem_range'_1.mp h'
  unfold setBase ways at *
  omega

theorem take_eq_some : c.takeIfDirtyForeign i d k = some v ↔
    c.key i = some (v.dev,v.chunk) ∧ (v.dev,v.chunk) ≠ (d,k) ∧ (c.entries i).dirty = true ∧
      c.data i = v.data := by
  unfold takeIfDirtyForeign key Entry.key
  obtain ⟨dev,chunk,valid,dirty,age⟩ := c.entries i
  obtain ⟨vd,vk,vdata⟩ := v
  cases valid with
  | false => simp
  | true => cases dirty with
    | false => simp
    | true =>
      by_cases he : dev = d ∧ chunk = k
      · obtain ⟨rfl,rfl⟩ := he
        simp only [Bool.and_true,beq_self_eq_true,Bool.not_true,Bool.and_false,Bool.false_eq_true,
          ↓reduceIte,some.injEq,Prod.mk.injEq,true_and,reduceCtorEq,false_iff,not_and]
        rintro ⟨rfl,rfl⟩ hne
        exact absurd rfl hne
      · have hb : (dev == d && chunk == k) = false := by simpa using he
        simp only [hb,Bool.and_true,Bool.not_false,↓reduceIte,some.injEq,Victim.mk.injEq,
          Prod.mk.injEq,ne_eq,true_and]
        constructor
        · rintro ⟨rfl,rfl,rfl⟩
          exact ⟨⟨rfl,rfl⟩,he,rfl⟩
        · rintro ⟨⟨rfl,rfl⟩,-,rfl⟩
          exact ⟨rfl,rfl,rfl⟩

theorem key_fillSlot : (c.fillSlot i d k data dirty).key = update c.key i (some (d,k)) := by
  unfold fillSlot
  rw [key_setEntry]
  rfl

theorem fill_displaces (h : Placed c) (hi : i ∈ home d k) (hk : ∀ j, c.key j = some (d,k) → j = i)
    :
    Displaces c d k ⟨dirty,data⟩ (c.takeIfDirtyForeign i d k) (c.fillSlot i d k data dirty) := by
  have hplaced : Placed (c.fillSlot i d k data dirty) := by
    have hput : Seated homes (update c.key i (some (d,k))) := Seated.put (k := (d,k)) h hi hk
    rw [Placed,key_fillSlot]
    exact hput
  have hdata : ∀ j, j ≠ i → ((c.fillSlot i d k data dirty).entries j).dirty = (c.entries j).dirty ∧
      (c.fillSlot i d k data dirty).data j = c.data j := by
    intro j hj
    simp [fillSlot,setEntry,update_of_ne hj]
  have hnone : ∀ d' k', (d',k') ≠ (d,k) → (∀ j, j ≠ i → c.key j ≠ some (d',k')) →
      (c.fillSlot i d k data dirty).line d' k' = none := by
    intro d' k' hne hno
    refine (line_eq_none hplaced).mpr ?_
    intro j hj
    rw [key_fillSlot] at hj
    by_cases hji : j = i
    · subst hji
      rw [update_self] at hj
      exact hne (some.inj hj).symm
    · rw [update_of_ne hji] at hj
      exact hno j hji hj
  have hgone : ∀ d' k', (d',k') ≠ (d,k) → c.key i = some (d',k') →
      (c.fillSlot i d k data dirty).line d' k' = none := by
    intro d' k' hne hd
    exact hnone d' k' hne fun j hji hj => hji (h.unique j i _ hj hd)
  refine ⟨hplaced,?_,?_,?_⟩
  · refine (line_eq_some hplaced).mpr ⟨i,?_,?_⟩
    · rw [key_fillSlot,update_self]
    · simp [fillSlot,setEntry]
  · intro d' k' hne
    by_cases hd : c.key i = some (d',k')
    · refine .inr ⟨hgone d' k' hne hd,_,line_of_key h hd,?_⟩
      exact fun hdirty => take_eq_some.mpr ⟨hd,hne,hdirty,rfl⟩
    · left
      cases hl : c.line d' k' with
      | none => exact hnone d' k' hne fun j _ => (line_eq_none h).mp hl j
      | some ℓ =>
        obtain ⟨j,hj,rfl⟩ := (line_eq_some h).mp hl
        have hji : j ≠ i := fun he => hd (he ▸ hj)
        refine (line_eq_some hplaced).mpr ⟨j,?_,?_⟩
        · rw [key_fillSlot,update_of_ne hji]
          exact hj
        · rw [(hdata j hji).1,(hdata j hji).2]
  · intro v hv
    obtain ⟨hd,hne,hdirty,hdat⟩ := take_eq_some.mp hv
    refine ⟨hne,?_,hgone _ _ hne hd,home_setBase (h.at_home i (v.dev,v.chunk) hd) hi⟩
    rw [line_of_key h hd,hdirty,hdat]

theorem insert_spec (h : Placed c) (d k : Nat) (data : Sectors) :
    c.insert d k data = (none,c) ∨ ((∀ ℓ, c.line d k = some ℓ → ℓ.dirty = false) ∧
      Displaces c d k ⟨false,data⟩ (c.insert d k data).1 (c.insert d k data).2) := by
  obtain ⟨hmem,hown⟩ := pick_slot_spec h
  unfold insert
  dsimp only
  split
  · exact .inl rfl
  · rename_i he
    refine .inr ⟨?_,fill_displaces h hmem hown⟩
    intro ℓ hl
    obtain ⟨i,hi,rfl⟩ := (line_eq_some h).mp hl
    cases hown i hi
    simpa [isFor_iff,hi] using he

theorem insert_dirty_spec (h : Placed c) (d k : Nat) (data : Sectors) :
    Displaces c d k ⟨true,data⟩ (c.insertDirty d k data).1 (c.insertDirty d k data).2 := by
  obtain ⟨hmem,hown⟩ := pick_slot_spec h
  exact fill_displaces h hmem hown

/-- One line gets a new value. -/
structure Sets (c : BufferCache) (d k : Nat) (ℓ : Line) (c' : BufferCache) : Prop where
  placed : Placed c'
  own : c'.line d k = some ℓ
  others : ∀ d' k', (d',k') ≠ (d,k) → c'.line d' k' = c.line d' k'

theorem sets_of_slot (h : Placed c) (hi : c.key i = some (d,k)) (hk : c'.key = c.key)
    (ho : ∀ j, j ≠ i → (c'.entries j).dirty = (c.entries j).dirty ∧ c'.data j = c.data j)
    (hℓ : ⟨(c'.entries i).dirty,c'.data i⟩ = ℓ) : Sets c d k ℓ c' := by
  have hplaced : Placed c' := by
    rw [Placed,hk]
    exact h
  subst hℓ
  refine ⟨hplaced,line_of_key hplaced (hk ▸ hi),?_⟩
  intro d' k' hne
  refine line_of_keys hk ?_
  intro j hj
  refine ho j ?_
  rintro rfl
  exact hne (some.inj (hj.symm.trans hi))

theorem mark_clean_sets (h : Placed c) (hi : c.key i = some (d,k)) :
    Sets c d k ⟨false,c.data i⟩ (c.markClean i) := by
  refine sets_of_slot h hi (key_setEntry_same rfl rfl) ?_ ?_
  · intro j hj
    simp [markClean,setEntry,update_of_ne hj]
  · simp [markClean,setEntry]

theorem merge_dirty_spec (h : Placed c) (d k off : Nat) (buf : Buf) :
    (c.line d k = none ∧ c.mergeDirty d k off buf = (false,c)) ∨
      ∃ ℓ c', c.line d k = some ℓ ∧ c.mergeDirty d k off buf = (true,c') ∧
        Sets c d k ⟨true,blit ℓ.data off buf.data 0 buf.len⟩ c' := by
  unfold mergeDirty line
  cases hl : c.lookup d k with
  | none => exact .inl ⟨rfl,rfl⟩
  | some i =>
    have hi : c.key i = some (d,k) := h.seat_eq_some.mp (lookup_eq c d k ▸ hl)
    refine .inr ⟨_,_,rfl,rfl,sets_of_slot h hi (key_setEntry_same rfl rfl) ?_ ?_⟩
    · intro j hj
      simp [setEntry,update_of_ne hj]
    · simp [setEntry]

/-- The part of a write that falls into chunk `k`, over the chunk's data. -/
def mergeWrite (lba count : Nat) (buf : Sectors) (k : Nat) (ℓ : Line) : Line :=
  let start := k * chunkSectors
  let s := max lba start
  let e := min (lba + count) (start + chunkSectors)
  { ℓ with data := blit ℓ.data (s - start) buf (s - lba) (e - s) }

theorem update_chunk_spec (h : Placed c) (d k lba count : Nat) (buf : Sectors) :
    Placed (c.updateChunk d lba count buf k) ∧ ∀ d' k',
      (c.updateChunk d lba count buf k).line d' k' =
        if d' = d ∧ k' = k then (c.line d' k').map (mergeWrite lba count buf k) else c.line d' k' := by
  cases hl : c.lookup d k with
  | none =>
    simp only [updateChunk,hl]
    refine ⟨h,?_⟩
    intro d' k'
    split
    · rename_i he
      simp [line,he.1,he.2,hl]
    · rfl
  | some i =>
    have hi : c.key i = some (d,k) := h.seat_eq_some.mp (lookup_eq c d k ▸ hl)
    have hs : Sets c d k (mergeWrite lba count buf k ⟨(c.entries i).dirty,c.data i⟩)
        (c.updateChunk d lba count buf k) := by
      simp only [updateChunk,hl]
      refine sets_of_slot h hi rfl ?_ ?_
      · intro j hj
        simp [update_of_ne hj]
      · simp only [update_self]
        rfl
    refine ⟨hs.placed,?_⟩
    intro d' k'
    split
    · rename_i he
      rw [he.1,he.2,hs.own,line_of_key h hi,map_some]
    · rename_i he
      exact hs.others d' k' (fun heq => he (Prod.mk.injEq _ _ _ _ ▸ heq))

theorem update_on_write_spec (h : Placed c) (d lba count : Nat) (buf : Sectors) :
    Placed (c.updateOnWrite d lba count buf) ∧ ∀ d' k',
      (c.updateOnWrite d lba count buf).line d' k' =
        if d' = d ∧ k' ∈ chunksOf lba count then (c.line d' k').map (mergeWrite lba count buf k')
        else c.line d' k' := by
  have key : ∀ (l : List Nat) (c : BufferCache), l.Nodup → Placed c →
      Placed (l.foldl (fun c k => c.updateChunk d lba count buf k) c) ∧ ∀ d' k',
        (l.foldl (fun c k => c.updateChunk d lba count buf k) c).line d' k' =
          if d' = d ∧ k' ∈ l then (c.line d' k').map (mergeWrite lba count buf k')
          else c.line d' k' := by
    intro l
    induction l with
    | nil => exact fun c _ h => ⟨h,fun d' k' => by simp⟩
    | cons k ks ih =>
      intro c hnd h
      obtain ⟨hk,hks⟩ := nodup_cons.mp hnd
      obtain ⟨hp,hline⟩ := update_chunk_spec h d k lba count buf
      obtain ⟨hp',hline'⟩ := ih (c.updateChunk d lba count buf k) hks hp
      refine ⟨hp',?_⟩
      intro d' k'
      rw [foldl_cons,hline',hline]
      by_cases hk' : k' = k
      · subst hk'
        simp [hk]
      · simp [hk']
  exact key _ c (nodup_range' _) h

end BufferCache

end Miku.Block
