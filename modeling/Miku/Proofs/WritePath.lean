import Miku.Proofs.Coherence

namespace Miku.Block
open Lib BufferCache List

namespace Layer

variable {s t : Layer} {v k lba count : Nat} {ℓ : Line} {c : BufferCache} {buf : Buf}
  {p q : Prop}

abbrev Span (v lba count : Nat) : Nat → Nat → Prop := fun w a => w = v ∧ lba ≤ a ∧ a < lba + count

instance (v lba count w a : Nat) : Decidable (Span v lba count w a) :=
  inferInstanceAs (Decidable (w = v ∧ lba ≤ a ∧ a < lba + count))

variable {data : Sectors}

/-- Sector `j` of chunk `k` with a request written over `x`. -/
abbrev overlaid (lba count k : Nat) (data : Sectors) (j : Nat) (x : Sector) : Sector :=
  if lba ≤ k * chunkSectors + j ∧ k * chunkSectors + j < lba + count
    then data (k * chunkSectors + j - lba) else x

theorem merge_write_at (hj : j < chunkSectors) :
    (mergeWrite lba count data k ℓ).data j = overlaid lba count k data j (ℓ.data j) := by
  unfold mergeWrite blit overlaid
  dsimp only
  unfold chunkSectors at *
  by_cases h : lba ≤ k * 8 + j ∧ k * 8 + j < lba + count
  · rw [if_pos h,if_pos (by omega)]
    congr 1
    omega
  · rw [if_neg h,if_neg (by omega)]

variable {f : BufferCache → BufferCache}

theorem modifyCache_line (hc : s.cache = some c) (w k' : Nat) :
    (s.modifyCache f).line w k' = (f c).line w k' := by
  simp [modifyCache,line,hc]

theorem modifyCache_isSome : (s.modifyCache f).cache.isSome = s.cache.isSome := by
  rw [modifyCache]
  cases s.cache <;> rfl

theorem modifyCache_placed (hs : Coherent s)
    (hf : ∀ c, Placed c → Placed (f c)) (hc : t.cache = s.cache) :
    ∀ c, (t.modifyCache f).cache = some c → Placed c := by
  intro c' hc'
  obtain ⟨c,hcc,rfl⟩ := Option.map_eq_some_iff.mp hc'
  exact hf c (hs.placed c (hc ▸ hcc))

theorem update_line (hs : Coherent s) (hc : t.cache = s.cache) (v lba count : Nat) (data : Sectors)
    (w k' : Nat) : (t.modifyCache (fun c => c.updateOnWrite v lba count data)).line w k' =
      if w = v ∧ k' ∈ chunksOf lba count then (s.line w k').map (mergeWrite lba count data k')
      else s.line w k' := by
  cases hcc : s.cache with
  | none =>
    rw [line_no_cache hcc,line_no_cache (by rw [modifyCache,hc,hcc]; rfl)]
    split <;> rfl
  | some c =>
    rw [modifyCache_line (hc.trans hcc),line_of_cache hcc]
    exact (update_on_write_spec (hs.placed c hcc) v lba count data).2 w k'

theorem invalidate_line (hs : Coherent s) (hc : t.cache = s.cache) (v lba count w k' : Nat) :
    (t.modifyCache (fun c => c.invalidateRange v lba count)).line w k' =
      if w = v ∧ k' ∈ chunksOf lba count then none else s.line w k' := by
  cases hcc : s.cache with
  | none =>
    rw [line_no_cache hcc,line_no_cache (by rw [modifyCache,hc,hcc]; rfl)]
    split <;> rfl
  | some c =>
    have hd := invalidate_range_spec (hs.placed c hcc) v lba count
    rw [modifyCache_line (hc.trans hcc),line_of_cache hcc]
    split
    · rename_i hin
      exact hd.gone w k' hin
    · rename_i hout
      exact hd.kept w k' hout

/-- Every dirty line was one before. -/
def NoneDirtied (s t : Layer) : Prop :=
  ∀ w k ℓ, t.line w k = some ℓ → ℓ.dirty = true → ∃ ℓ', s.line w k = some ℓ' ∧ ℓ'.dirty = true

theorem Sent.updated (h : Sent s t v lba count) (hs : Coherent s)
    (hwr : ∀ a, lba ≤ a ∧ a < lba + count → t.media v a = data (a - lba))
    (hu : t.modifyCache (fun c => c.updateOnWrite v lba count data) = u) :
    Coherent u ∧ Alters s u (Span v lba count) ∧
      (∀ a, lba ≤ a ∧ a < lba + count → u.view v a = data (a - lba)) ∧ NoneDirtied s u := by
  have hline := update_line hs h.cache v lba count data
  rw [hu] at hline
  have hmedia : ∀ w a, u.media w a = t.media w a := fun w a => by rw [← hu]; rfl
  have hshape : ∀ w, u.shape w = s.shape w := fun w => by rw [← hu]; exact h.shape w
  have hcached : u.cache.isSome = s.cache.isSome := by
    rw [← hu,modifyCache_isSome,h.cache]
  have hplaced : ∀ c, u.cache = some c → Placed c := by
    rw [← hu]
    exact modifyCache_placed hs (fun c hc => (update_on_write_spec hc v lba count data).1) h.cache
  -- every line comes from one of `s`, changed exactly in the range
  have hold : ∀ w k ℓ, u.line w k = some ℓ → ∃ ℓ', s.line w k = some ℓ' ∧ ℓ.dirty = ℓ'.dirty ∧
      ∀ j, j < chunkSectors → ℓ.data j = if Span v lba count w (k * chunkSectors + j)
        then data (k * chunkSectors + j - lba) else ℓ'.data j := by
    intro w k ℓ hl
    rw [hline] at hl
    split at hl
    · rename_i hin
      obtain ⟨ℓ',hl',rfl⟩ := Option.map_eq_some_iff.mp hl
      refine ⟨ℓ',hl',rfl,?_⟩
      intro j hj
      rw [merge_write_at hj]
      simp [Span,hin.1]
    · rename_i hout
      refine ⟨ℓ,hl,rfl,?_⟩
      intro j hj
      rw [if_neg]
      rintro ⟨rfl,hlo,hhi⟩
      have hmem := mem_chunksOf hlo hhi
      have hk := sector_chunk k hj
      rw [hk] at hmem
      exact hout ⟨rfl,hmem⟩
  refine ⟨⟨hplaced,?_,?_⟩,⟨hcached,hshape,?_⟩,?_,?_⟩
  · intro w k ℓ hl
    obtain ⟨ℓ',hl',-⟩ := hold w k ℓ hl
    rw [totalOf_eq_shape,hshape,← totalOf_eq_shape]
    exact hs.within w k ℓ' hl'
  · intro w k ℓ hl hd j hj
    obtain ⟨ℓ',hl',hdd,hdata⟩ := hold w k ℓ hl
    rw [hdata j hj,hmedia]
    split
    · rename_i hin
      obtain ⟨rfl,hin⟩ := hin
      exact (hwr _ hin).symm
    · rename_i hout
      rw [h.media hout]
      exact hs.clean w k ℓ' hl' (hdd ▸ hd) j hj
  · intro w a ha
    cases hl : u.line w (a / chunkSectors) with
    | some ℓ =>
      obtain ⟨ℓ',hl',-,hdata⟩ := hold w _ ℓ hl
      rw [view_line hl,view_line hl',hdata _ (sector_mod a),sector_split,if_neg ha]
    | none =>
      have hl' : s.line w (a / chunkSectors) = none := by
        rw [hline] at hl
        split at hl
        · exact Option.map_eq_none_iff.mp hl
        · exact hl
      rw [view_uncached hl,view_uncached hl',hmedia,h.media ha]
  · intro a ha
    cases hl : u.line v (a / chunkSectors) with
    | some ℓ =>
      obtain ⟨ℓ',-,-,hdata⟩ := hold v _ ℓ hl
      rw [view_line hl,hdata _ (sector_mod a),sector_split,if_pos ⟨rfl,ha⟩]
    | none => rw [view_uncached hl,hmedia,hwr a ha]
  · intro w k ℓ hl hd
    obtain ⟨ℓ',hl',hdd,-⟩ := hold w k ℓ hl
    exact ⟨ℓ',hl',hdd ▸ hd⟩

/-- A failed device write; the chunks it touched are dropped, which loses nothing
if none of them had unwritten data. -/
theorem Sent.dropped (h : Sent s t v lba count) (hs : Coherent s)
    (hclean : ∀ k ∈ chunksOf lba count, ∀ ℓ, s.line v k = some ℓ → ℓ.dirty = false)
    (hu : t.modifyCache (fun c => c.invalidateRange v lba count) = u) :
    Coherent u ∧ ∀ w a, ¬ Span v lba count w a → u.view w a = s.view w a := by
  have hline := invalidate_line hs h.cache v lba count
  rw [hu] at hline
  have hmedia : ∀ w a, u.media w a = t.media w a := fun w a => by rw [← hu]; rfl
  have hshape : ∀ w, u.shape w = s.shape w := fun w => by rw [← hu]; exact h.shape w
  have hplaced : ∀ c, u.cache = some c → Placed c := by
    rw [← hu]
    exact modifyCache_placed hs (fun c hc => (invalidate_range_spec hc v lba count).placed) h.cache
  have hold : ∀ w k ℓ, u.line w k = some ℓ → s.line w k = some ℓ ∧
      ¬ (w = v ∧ k ∈ chunksOf lba count) := by
    intro w k ℓ hl
    rw [hline] at hl
    split at hl
    · cases hl
    · rename_i hout
      exact ⟨hl,hout⟩
  refine ⟨⟨hplaced,?_,?_⟩,?_⟩
  · intro w k ℓ hl
    rw [totalOf_eq_shape,hshape,← totalOf_eq_shape]
    exact hs.within w k ℓ (hold w k ℓ hl).1
  · intro w k ℓ hl hd j hj
    obtain ⟨hl',hout⟩ := hold w k ℓ hl
    rw [hs.clean w k ℓ hl' hd j hj,hmedia]
    refine (h.media ?_).symm
    rintro ⟨rfl,hlo,hhi⟩
    have hmem := mem_chunksOf hlo hhi
    have hk := sector_chunk k hj
    rw [hk] at hmem
    exact hout ⟨rfl,hmem⟩
  · intro w a ha
    cases hl : u.line w (a / chunkSectors) with
    | some ℓ => rw [view_line hl,view_line (hold w _ ℓ hl).1]
    | none =>
      rw [view_uncached hl,hmedia,h.media ha]
      refine (hs.view_clean ?_).symm
      intro ℓ hl'
      rw [hline] at hl
      split at hl
      · rename_i hin
        exact hclean _ hin.2 ℓ (hin.1 ▸ hl')
      · rw [hl'] at hl
        cases hl

/-- `R` is what the caller knows of the devices after the command. -/
theorem write_through_wp {R : Layer → Prop} (hs : Coherent s)
    (hR : ∀ t o, R t → R { t with cache := o }) (hcount : 0 < count)
    (hrun : Wp (dispatch v run) s (fun _ t => Sent s t v lba count ∧
        (∀ a, lba ≤ a ∧ a < lba + count → t.media v a = buf.data (a - lba)) ∧ R t)
      (fun e t => e ≠ .panic ∧ Sent s t v lba count ∧ ¬ q ∧
        (p → ∀ k ∈ chunksOf lba count, ∀ ℓ, s.line v k = some ℓ → ℓ.dirty = false))) :
    Wp (writeThrough v lba count buf run) s
      (fun _ t => Coherent t ∧ R t ∧ Alters s t (Span v lba count) ∧
        (∀ a, lba ≤ a ∧ a < lba + count → t.view v a = buf.data (a - lba)) ∧ NoneDirtied s t)
      (Failed p q s (Span v lba count)) := by
  have hne : ¬count = 0 := by omega
  cases hx : dispatch v run s with
  | ok r t =>
    obtain ⟨hsent,hwr,hr⟩ := hrun.ok hx
    obtain ⟨hcoh,halt,hview,hdirty⟩ := hsent.updated hs hwr rfl
    have hrun' : writeThrough v lba count buf run s =
        .ok () (t.modifyCache fun c => c.updateOnWrite v lba count buf.data) := by
      refine (congrFun (if_neg hne) s).trans ?_
      simp [hx]
    exact .of_ok hrun' ⟨hcoh,hR t _ hr,halt,hview,hdirty⟩
  | error e t =>
    obtain ⟨he,hsent,hnq,hclean⟩ := hrun.error hx
    have hrun' : writeThrough v lba count buf run s =
        .error e (t.modifyCache fun c => c.invalidateRange v lba count) := by
      refine (congrFun (if_neg hne) s).trans ?_
      simp [hx]
    exact .of_error hrun' ⟨he,hnq,fun hp => hsent.dropped hs (hclean hp) rfl⟩

/-- Devices keep what is known of them. -/
def Carries (s t : Layer) : Prop := (∀ w, Steady s w → Steady t w) ∧ (AllCalm s → AllCalm t)

variable {u : Layer}

theorem Carries.trans (h : Carries s t) (h' : Carries t u) : Carries s u :=
  ⟨fun w hw => h'.1 w (h.1 w hw),fun hc => h'.2 (h.2 hc)⟩

theorem Sound.carried (hs : Sound p q V s) (hcoh : Coherent t) (hc : Carries s t)
    (hdirty : NoneDirtied s t) : Sound p q V t := by
  refine ⟨hcoh,fun hp w hw => hc.1 w (hs.steady hp w hw),?_,fun hq => hc.2 (hs.calm hq)⟩
  intro hp w k ℓ hl hd
  obtain ⟨ℓ',hl',hd'⟩ := hdirty w k ℓ hl hd
  exact hs.dirty hp w k ℓ' hl' hd'

theorem write_sync_wp (hs : Coherent s)
    (hp : p → (∀ k ∈ chunksOf lba count, ∀ ℓ, s.line v k = some ℓ → ℓ.dirty = false) ∨
      (count ≤ buf.len ∧ lba + count ≤ s.totalOf v ∧ Steady s v))
    (hq : q → AllCalm s ∧ lba + count ≤ s.totalOf v ∧ count ≤ buf.len) :
    Wp (writeSync v lba count buf) s
      (fun _ t => Coherent t ∧ Carries s t ∧ Alters s t (Span v lba count) ∧
        (∀ a, lba ≤ a ∧ a < lba + count → t.view v a = buf.data (a - lba)) ∧ NoneDirtied s t)
      (Failed p q s (Span v lba count)) := by
  rcases Nat.eq_zero_or_pos count with rfl | hcount
  · exact .pure ⟨hs,⟨fun _ h => h,id⟩,.refl _ _,fun a ha => absurd ha (by omega),
      fun _ _ ℓ hl hd => ⟨ℓ,hl,hd⟩⟩
  refine write_through_wp (R := Carries s) hs (fun t o h => h) hcount
    ((write_blocks_wp s v lba count buf).imp
      (fun _ t ⟨hsent,hwr,hst,hcalm,_⟩ => ⟨hsent,hwr,hst,hcalm⟩) ?_)
  rintro e t ⟨he,hsent,hno⟩
  refine ⟨he,hsent,?_,?_⟩
  · exact fun hq' => hno hcount (hq hq').2.2 (hq hq').2.1 ((hq hq').1.steady v)
  · intro hp'
    rcases hp hp' with h | ⟨h1,h2,h3⟩
    · exact h
    · exact absurd h3 (hno hcount h1 h2)

/-- The sectors of a request that lie in chunk `k`. -/
abbrev Part (v lba count k : Nat) : Nat → Nat → Prop :=
  fun w a => Span v lba count w a ∧ a / chunkSectors = k

theorem piece_at (hj : j < chunkSectors) : blit old (max lba (k * chunkSectors) - k * chunkSectors)
        (buf.slice (max lba (k * chunkSectors) - lba)
          (min (lba + count) (k * chunkSectors + chunkSectors) - max lba (k * chunkSectors))).data 0
        (min (lba + count) (k * chunkSectors + chunkSectors) - max lba (k * chunkSectors)) j =
      overlaid lba count k buf.data j (old j) := by
  have hmerge : (mergeWrite lba count buf.data k ⟨true,old⟩).data j = _ := merge_write_at hj
  refine Eq.trans ?_ hmerge
  simp [mergeWrite,blit,Buf.slice]

/-- Chunk `(v, k)` now shows the request over what it showed. -/
def Shows (s t : Layer) (v lba count k : Nat) (buf : Buf) : Prop :=
  Alters s t (Part v lba count k) ∧
    ∀ a, lba ≤ a ∧ a < lba + count → a / chunkSectors = k → t.view v a = buf.data (a - lba)

theorem shows_of_line (hl : t.line v k = some ℓ) (hdata : ℓ.data = data)
    (halt : Alters s t (fun w a => w = v ∧ a / chunkSectors = k))
    (hin : ∀ j, j < chunkSectors → data j =
      overlaid lba count k buf.data j (s.view v (k * chunkSectors + j))) :
    Shows s t v lba count k buf := by
  have hview : ∀ a, a / chunkSectors = k → t.view v a =
      if lba ≤ a ∧ a < lba + count then buf.data (a - lba) else s.view v a := by
    intro a ha
    subst ha
    rw [view_line hl,hdata,hin _ (sector_mod a),overlaid,sector_split]
  refine ⟨⟨halt.cached,halt.shape,?_⟩,?_⟩
  · intro w a hout
    by_cases hk : w = v ∧ a / chunkSectors = k
    · obtain ⟨rfl,hk⟩ := hk
      rw [hview a hk,if_neg (fun h => hout ⟨⟨rfl,h⟩,hk⟩)]
    · exact halt.view w a hk
  · intro a ha hk
    rw [hview a hk,if_pos ha]

theorem insert_dirty_wp (lba count : Nat) (buf : Buf) (hs : Sound p q V s)
    (hcached : s.cache.isSome = true)
    (hin : k * chunkSectors + chunkSectors ≤ s.totalOf v) (hv : p → V v)
    (hdata : ∀ j, j < chunkSectors → data j =
      overlaid lba count k buf.data j (s.view v (k * chunkSectors + j))) :
    Wp (withCache none (fun c => c.insertDirty v k data)) s (fun victim t => Wp (writeOut victim) t
        (fun _ t => Sound p q V t ∧ Shows s t v lba count k buf) (Failed p q s W))
      (Failed p q s W) := by
  refine withCache_wp ?_ ?_
  · intro hc
    rw [hc] at hcached
    cases hcached
  · intro c hc
    have hd := insert_dirty_spec (hs.coherent.placed c hc) v k data
    refine (displace_wp hs hc hd hin (fun h => (nomatch h)) (fun hp _ => hv hp)).mono ?_
    rintro - t ⟨ht,hi⟩
    exact ⟨ht,shows_of_line hi.own rfl hi.alters hdata⟩

theorem Sound.sets (hs : Sound p q V s) (hc : s.cache = some c)
    (hset : Sets c v k ⟨true,data⟩ c') (hin : k * chunkSectors + chunkSectors ≤ s.totalOf v)
    (hv : p → V v) : Sound p q V { s with cache := some c' } ∧
      Alters s { s with cache := some c' } (fun w a => w = v ∧ a / chunkSectors = k) ∧
      ({ s with cache := some c' } : Layer).line v k = some ⟨true,data⟩ := by
  generalize hu : ({ s with cache := some c' } : Layer) = u
  have huc : u.cache = some c' := by rw [← hu]
  have hmedia : ∀ w a, u.media w a = s.media w a := fun w a => by rw [← hu]; rfl
  have hshape : ∀ w, u.shape w = s.shape w := fun w => by rw [← hu]; rfl
  have hown : u.line v k = some ⟨true,data⟩ := (line_of_cache huc v k).trans hset.own
  have hothers : ∀ w k', (w,k') ≠ (v,k) → u.line w k' = s.line w k' := by
    intro w k' hne
    rw [line_of_cache huc,line_of_cache hc,hset.others w k' hne]
  refine ⟨⟨⟨?_,?_,?_⟩,?_,?_,?_⟩,⟨?_,hshape,?_⟩,hown⟩
  · intro c2 hc2
    cases huc.symm.trans hc2
    exact hset.placed
  · intro w k' ℓ hl
    rw [totalOf_eq_shape,hshape,← totalOf_eq_shape]
    by_cases hne : (w,k') = (v,k)
    · cases hne
      exact hin
    · exact hs.coherent.within w k' ℓ ((hothers w k' hne).symm.trans hl)
  · intro w k' ℓ hl hd j hj
    rw [hmedia]
    by_cases hne : (w,k') = (v,k)
    · cases hne
      cases hown.symm.trans hl
      cases hd
    · exact hs.coherent.clean w k' ℓ ((hothers w k' hne).symm.trans hl) hd j hj
  · rw [← hu]
    exact hs.steady
  · intro hp w k' ℓ hl hd
    by_cases hne : (w,k') = (v,k)
    · cases hne
      exact hv hp
    · exact hs.dirty hp w k' ℓ ((hothers w k' hne).symm.trans hl) hd
  · rw [← hu]
    exact hs.calm
  · rw [huc,hc]
    rfl
  · intro w a hne
    have hne' : (w,a / chunkSectors) ≠ (v,k) := fun h => hne (by cases h; exact ⟨rfl,rfl⟩)
    simp [view,hothers w _ hne',hmedia]

theorem Shows.after (h : Shows t u v lba count k buf) (href : Refreshes s t) :
    Shows s u v lba count k buf :=
  ⟨(href.alters.mono (fun _ _ h => h.elim)).trans h.1,h.2⟩

section

variable (hs : Sound p q V s) (hcached : s.cache.isSome = true) (hv : p → V v)
include hs hcached hv

theorem cache_chunk_wp (hin : k * chunkSectors + chunkSectors ≤ s.totalOf v) :
    Wp (cacheChunk v k (max lba (k * chunkSectors))
        (min (lba + count) (k * chunkSectors + chunkSectors))
        (buf.slice (max lba (k * chunkSectors) - lba)
          (min (lba + count) (k * chunkSectors + chunkSectors) - max lba (k * chunkSectors)))) s
      (fun victim t => Wp (writeOut victim) t
        (fun _ t => Sound p q V t ∧ Shows s t v lba count k buf) (Failed p q s Nowhere))
      (Failed p q s Nowhere) := by
  unfold cacheChunk
  dsimp only
  split
  · rename_i hfull
    refine insert_dirty_wp lba count buf hs hcached hin hv ?_
    intro j hj
    unfold overlaid chunkSectors at *
    rw [if_pos (by omega),Buf.slice]
    dsimp only
    congr 1
    omega
  · refine .bind (withCache_wp ?_ ?_)
    · intro hc
      rw [hc] at hcached
      cases hcached
    · intro c hc
      rcases merge_dirty_spec (hs.coherent.placed c hc) v k
        (max lba (k * chunkSectors) - k * chunkSectors)
        (buf.slice (max lba (k * chunkSectors) - lba)
          (min (lba + count) (k * chunkSectors + chunkSectors) - max lba (k * chunkSectors)))
        with ⟨hnone,hm⟩ | ⟨ℓ,c',hl,hm,hset⟩
      · -- not resident: read, modify, write
        have hself : ({ s with cache := some c } : Layer) = s := by rw [← hc]
        rw [hm,hself]
        dsimp only
        refine .bind ((driver_read_sound hs (fun _ => ⟨by decide,hin⟩)).mono ?_)
        rintro tmp t ⟨⟨ht,href⟩,-,-,rfl⟩
        have hcached' : t.cache.isSome = true := href.alters.cached.trans hcached
        have hin' : k * chunkSectors + chunkSectors ≤ t.totalOf v := by rwa [href.alters.total]
        refine (insert_dirty_wp lba count buf (W := Nowhere) ht hcached'
          hin' hv ?_).imp ?_ (fun e u he => he.after href.alters)
        · intro j hj
          rw [piece_at hj]
          have hk := sector_chunk k hj
          have hmiss : s.line v ((k * chunkSectors + j) / chunkSectors) = none := by
            rw [hk,line_of_cache hc,hnone]
          rw [href.alters.view v _ id,view_uncached hmiss]
        · rintro victim u hw
          exact hw.imp (fun _ _ h => ⟨h.1,h.2.after href⟩) (fun e u he => he.after href.alters)
      · have hl' : s.line v k = some ℓ := (line_of_cache hc v k).trans hl
        obtain ⟨ht,halt,hown⟩ := hs.sets hc hset (hs.coherent.within v k ℓ hl') hv
        rw [hm]
        refine .pure (.pure ⟨ht,shows_of_line hown rfl halt ?_⟩)
        intro j hj
        have hk := sector_chunk k hj
        have hmod : (k * chunkSectors + j) % chunkSectors = j := by
          unfold chunkSectors at *
          omega
        refine (piece_at hj).trans ?_
        rw [view_line (hk.symm ▸ hl'),hmod]

theorem write_chunk_wp (hk : k ∈ chunksOf lba count) (hcount : 0 < count)
    (hq : q → lba + count ≤ s.totalOf v ∧ count ≤ buf.len) :
    Wp (writeChunk v lba (lba + count) (s.totalOf v) buf k) s
      (fun _ t => Sound p q V t ∧ Shows s t v lba count k buf)
      (Failed p q s (Part v lba count k)) := by
  obtain ⟨hklo,hkhi⟩ := mem_range'_1.mp hk
  unfold writeChunk
  dsimp only
  split
  · rename_i htail
    -- no cached chunk reaches past the end of the device
    have hnone : s.line v k = none := by
      cases hl : s.line v k with
      | none => rfl
      | some ℓ =>
        have := hs.coherent.within v k ℓ hl
        omega
    have hspan : ∀ w a, Span v (max lba (k * chunkSectors))
        (min (lba + count) (k * chunkSectors + chunkSectors) - max lba (k * chunkSectors)) w a ↔
        Part v lba count k w a := by
      intro w a
      unfold Part Span chunkSectors at *
      omega
    refine (write_sync_wp (p := p) (q := q) hs.coherent ?_ ?_).imp ?_ ?_
    · refine fun _ => .inl ?_
      intro k' hk' ℓ hl
      have hkk : k' = k := by
        have := mem_range'_1.mp hk'
        unfold chunkSectors at *
        omega
      rw [hkk,hnone] at hl
      cases hl
    · intro hq'
      have := (hq hq').1
      refine ⟨hs.calm hq',?_,.refl⟩
      unfold chunkSectors at *
      omega
    · rintro - t ⟨hcoh,hcar,halt,hview,hdirty⟩
      refine ⟨hs.carried hcoh hcar hdirty,halt.mono (fun w a h => (hspan w a).mp h),?_⟩
      intro a ha hka
      rw [hview a ((hspan v a).mpr ⟨⟨rfl,ha⟩,hka⟩).2,Buf.slice]
      dsimp only
      congr 1
      unfold chunkSectors at *
      omega
    · exact fun e t he => he.mono (fun w a h => (hspan w a).mp h)
  · rename_i hfull
    refine .bind ((cache_chunk_wp hs hcached hv (by omega)).imp ?_ ?_)
    · exact fun victim t hw => hw.imp (fun _ _ h => h) (fun e u he => he.mono (fun _ _ h => h.elim))
    · exact fun e t he => he.mono (fun _ _ h => h.elim)

end

theorem swept (hs : Coherent s) (hc : s.cache = some c) (hcl : Cleans c v first (first + n) c')
    (hg : Gathers c v first first (first + n) out)
    (hsent : Sent { s with cache := some c' } t v (first * chunkSectors) (n * chunkSectors))
    (hwr : ∀ a, first * chunkSectors ≤ a ∧ a < first * chunkSectors + n * chunkSectors →
      t.media v a = out (a - first * chunkSectors)) :
    Coherent t ∧ Refreshes s t ∧
      (∀ k, first ≤ k → k < first + n → ∀ ℓ, t.line v k = some ℓ → ℓ.dirty = false) ∧
      ∀ w k, ¬ (w = v ∧ first ≤ k ∧ k < first + n) → t.line w k = s.line w k := by
  have htc : t.cache = some c' := hsent.cache
  have hrun : ∀ w a, (w = v ∧ first * chunkSectors ≤ a ∧ a < first * chunkSectors + n * chunkSectors) ↔
      (w = v ∧ first ≤ a / chunkSectors ∧ a / chunkSectors < first + n) := by
    intro w a
    unfold chunkSectors
    omega
  have hkept : ∀ w k, ¬ (w = v ∧ first ≤ k ∧ k < first + n) → t.line w k = s.line w k := by
    intro w k hout
    rw [line_of_cache htc,line_of_cache hc,hcl.kept w k hout]
  have hcleaned : ∀ k, first ≤ k → k < first + n → ∃ data, s.line v k = some ⟨true,data⟩ ∧
      t.line v k = some ⟨false,data⟩ ∧
      ∀ j, j < chunkSectors → t.media v (k * chunkSectors + j) = data j := by
    intro k h1 h2
    obtain ⟨data,hl,hl'⟩ := hcl.cleaned k h1 h2
    refine ⟨data,(line_of_cache hc v k).trans hl,(line_of_cache htc v k).trans hl',?_⟩
    intro j hj
    rw [hwr _ (by unfold chunkSectors at *; omega)]
    refine Eq.trans ?_ (hg k h1 h2 _ hl j hj)
    congr 1
    unfold chunkSectors at *
    omega
  have hmedia : ∀ w a, ¬ (w = v ∧ first ≤ a / chunkSectors ∧ a / chunkSectors < first + n) →
      t.media w a = s.media w a := fun w a hout => hsent.media (fun h => hout ((hrun w a).mp h))
  have hview : ∀ w a, t.view w a = s.view w a := by
    intro w a
    by_cases hin : w = v ∧ first ≤ a / chunkSectors ∧ a / chunkSectors < first + n
    · obtain ⟨rfl,h1,h2⟩ := hin
      obtain ⟨data,hl,hl',-⟩ := hcleaned _ h1 h2
      rw [view_line hl,view_line hl']
    · simp [view,hkept w _ hin,hmedia w a hin]
  refine ⟨⟨?_,?_,?_⟩,⟨⟨?_,hsent.shape,fun w a _ => hview w a⟩,?_⟩,?_,hkept⟩
  · intro c2 hc2
    cases htc.symm.trans hc2
    exact hcl.placed
  · intro w k ℓ hl
    rw [hsent.total]
    by_cases hin : w = v ∧ first ≤ k ∧ k < first + n
    · obtain ⟨rfl,h1,h2⟩ := hin
      obtain ⟨data,hl',-⟩ := hcleaned k h1 h2
      exact hs.within w k _ hl'
    · exact hs.within w k ℓ ((hkept w k hin).symm.trans hl)
  · intro w k ℓ hl hd j hj
    by_cases hin : w = v ∧ first ≤ k ∧ k < first + n
    · obtain ⟨rfl,h1,h2⟩ := hin
      obtain ⟨data,-,hl',hm⟩ := hcleaned k h1 h2
      cases hl'.symm.trans hl
      exact (hm j hj).symm
    · have hk := sector_chunk k hj
      rw [hmedia w _ (by rwa [hk])]
      exact hs.clean w k ℓ ((hkept w k hin).symm.trans hl) hd j hj
  · rw [htc,hc]
    rfl
  · intro w k ℓ hl hd
    by_cases hin : w = v ∧ first ≤ k ∧ k < first + n
    · obtain ⟨rfl,h1,h2⟩ := hin
      obtain ⟨data,-,hl',-⟩ := hcleaned k h1 h2
      cases hl'.symm.trans hl
      cases hd
    · exact (hkept w k hin).symm.trans hl
  · intro k h1 h2 ℓ hl
    obtain ⟨data,-,hl',-⟩ := hcleaned k h1 h2
    cases hl'.symm.trans hl
    rfl

section

variable (hs : Coherent s) (hst : p ∨ q → ∀ k ℓ, s.line v k = some ℓ → ℓ.dirty = true → Steady s v)
include hs hst

theorem flush_loop_wp {fuel after : Nat}
    (hdone : ∀ k ℓ, k < after → s.line v k = some ℓ → ℓ.dirty = false)
    (hfuel : ∀ c, s.cache = some c → (dirtySlots c v).card < fuel) :
    Wp (flushLoop v fuel after flushed) s (fun _ t => Coherent t ∧ Carries s t ∧ Refreshes s t ∧
        ∀ k ℓ, t.line v k = some ℓ → ℓ.dirty = false) (Failed p q s Nowhere) := by
  have hself : Carries s s := ⟨fun _ h => h,id⟩
  induction fuel generalizing s after flushed with
  | zero =>
    refine .pure ⟨hs,hself,.refl s,?_⟩
    intro k ℓ hl
    cases hc : s.cache with
    | none =>
      rw [line_no_cache hc] at hl
      cases hl
    | some c => exact absurd (hfuel c hc) (Nat.not_lt_zero _)
  | succ fuel ih =>
    unfold flushLoop
    refine .bind (withCache_wp ?_ ?_)
    · intro hc
      refine .pure ⟨hs,hself,.refl s,?_⟩
      intro k ℓ hl
      rw [line_no_cache hc] at hl
      cases hl
    · intro c hc
      rcases pop_dirty_run_spec (hs.placed c hc) v after mergeChunks with
        ⟨hpop,hclean⟩ | ⟨first,n,out,c',hpop,hafter,hn,hcl,hg,hskip,hcard⟩
      · have hsame : ({ s with cache := some c } : Layer) = s := by rw [← hc]
        rw [hpop,hsame]
        refine .pure ⟨hs,hself,.refl s,?_⟩
        intro k ℓ hl
        by_cases hk : k < after
        · exact hdone k ℓ hk hl
        · exact hclean k ℓ (Nat.le_of_not_lt hk) ((line_of_cache hc v k).symm.trans hl)
      · rw [hpop]
        dsimp only
        -- the run lies on the device, and it is dirty
        obtain ⟨data,hlast,-⟩ := hcl.cleaned (first + n - 1) (by omega) (by omega)
        have hlast' := (line_of_cache hc v (first + n - 1)).trans hlast
        have hin : first * chunkSectors + n * chunkSectors ≤ s.totalOf v := by
          have := hs.within v _ _ hlast'
          unfold chunkSectors at *
          omega
        refine .bind ((write_blocks_wp { s with cache := some c' } v (first * chunkSectors)
          (n * chunkSectors) ⟨n * chunkSectors,out⟩).imp ?_ ?_)
        · rintro - t ⟨hsent,hwr,hsteady,hcalm,-⟩
          obtain ⟨hcoh,href,hrun,hkept⟩ := swept hs hc hcl hg hsent hwr
          have hcar : Carries s t := ⟨hsteady,hcalm⟩
          refine (ih hcoh ?_ ?_ ?_ ⟨fun _ h => h,id⟩).imp ?_ (fun e u he => he.after href.alters)
          · exact fun hpq k ℓ hl hd => hcar.1 v (hst hpq k ℓ (href.dirty v k ℓ hl hd) hd)
          · intro k ℓ hk hl
            by_cases hk' : first ≤ k
            · exact hrun k hk' hk ℓ hl
            · have hl' := (hkept v k (fun h => hk' h.2.1)).symm.trans hl
              by_cases hka : k < after
              · exact hdone k ℓ hka hl'
              · exact hskip k ℓ (Nat.le_of_not_lt hka) (Nat.lt_of_not_le hk')
                  ((line_of_cache hc v k).symm.trans hl')
          · intro c2 hc2
            cases hsent.cache.symm.trans hc2
            have := hfuel c hc
            omega
          · exact fun _ u ⟨hu,hcar',href',hall⟩ => ⟨hu,hcar.trans hcar',href.trans href',hall⟩
        · rintro e t ⟨he,-,hno⟩
          have hnot : ¬ (p ∨ q) := fun hpq => hno
            (Nat.mul_pos hn (by decide)) .refl hin (hst hpq _ _ hlast' rfl)
          exact ⟨he,fun hq => hnot (.inr hq),fun hp => absurd (.inl hp) hnot⟩

theorem flush_dirty_only_wp : Wp (flushDirtyOnly v) s
      (fun _ t => Coherent t ∧ Carries s t ∧ Refreshes s t ∧
        ∀ k ℓ, t.line v k = some ℓ → ℓ.dirty = false) (Failed p q s Nowhere) := by
  refine flush_loop_wp hs hst (fun k ℓ hk => absurd hk (Nat.not_lt_zero k)) ?_
  intro c _
  refine Nat.lt_succ_of_le ?_
  calc (dirtySlots c v).card ≤ (Finset.range slots).card :=
      Finset.card_le_card (fun i hi => Finset.mem_range.mpr (mem_dirtySlots.mp hi).1)
    _ = slots := Finset.card_range slots

end

theorem write_wp (hs : Sound p q V s) (hv : p → V v)
    (hq : q → lba + count ≤ s.totalOf v ∧ count ≤ buf.len) : Wp (write v lba count buf) s
      (fun _ t => Sound p q V t ∧ Alters s t (Span v lba count) ∧
        ∀ a, lba ≤ a ∧ a < lba + count → t.view v a = buf.data (a - lba))
      (Failed p q s (Span v lba count)) := by
  unfold write
  split
  · exact .pure ⟨hs,.refl _ _,fun a ha => absurd ha (by omega)⟩
  rename_i hcount
  split
  · exact .throw ⟨fun h => (nomatch h),fun hq' => by have := (hq hq').2; omega,
      fun _ => ⟨hs.coherent,fun _ _ _ => rfl⟩⟩
  refine .bind (.get ?_)
  split
  · rename_i hbare
    refine (write_sync_wp (p := p) (q := q) hs.coherent ?_ (fun hq' => ⟨hs.calm hq',hq hq'⟩)).imp
      (fun _ t ⟨hcoh,hcar,halt,hview,hdirty⟩ => ⟨hs.carried hcoh hcar hdirty,halt,hview⟩)
      (fun _ _ h => h)
    refine fun _ => .inl ?_
    intro k _ ℓ hl
    rw [hs.coherent.bare hbare] at hl
    cases hl
  · rename_i hready
    have hcached : s.cache.isSome = true := by
      cases hc : s.cache with
      | none => simp [hc] at hready
      | some c => rfl
    let I : List Nat → Layer → Prop := fun ks t =>
      (Sound p q V t ∧ Alters s t (Span v lba count)) ∧ (∀ k ∈ ks, k ∈ chunksOf lba count) ∧
        ∀ a, lba ≤ a ∧ a < lba + count → a / chunkSectors ∉ ks → t.view v a = buf.data (a - lba)
    have hstart : I (chunksOf lba count) s := by
      refine ⟨⟨hs,.refl _ _⟩,fun _ h => h,?_⟩
      exact fun a ha hout => absurd (mem_chunksOf ha.1 ha.2) hout
    refine .bind ((Wp.forM (I := I) (E := Failed p q s (Span v lba count)) ?_ hstart).mono ?_)
    · rintro k ks t ⟨⟨ht,halt⟩,hks,hdone⟩
      rw [← halt.total]
      refine (write_chunk_wp ht (halt.cached.trans hcached) hv (hks k mem_cons_self) (by omega)
        (fun hq' => by rw [halt.total]; exact hq hq')).imp ?_ ?_
      · rintro - u ⟨hu,hshows⟩
        refine ⟨⟨hu,halt.trans (hshows.1.mono (fun _ _ h => h.1))⟩,
          fun k' hk' => hks k' (mem_cons_of_mem k hk'),?_⟩
        intro a ha hout
        by_cases hk : a / chunkSectors = k
        · exact hshows.2 a ha hk
        · rw [hshows.1.view v a (fun h => hk h.2)]
          exact hdone a ha (fun h => (mem_cons.mp h).elim hk hout)
      · exact fun e u he => (he.mono (fun _ _ h => h.1)).after halt
    · rintro - t ⟨⟨ht,halt⟩,-,hdone⟩
      have hview : ∀ a, lba ≤ a ∧ a < lba + count → t.view v a = buf.data (a - lba) :=
        fun a ha => hdone a ha not_mem_nil
      refine .bind (withCache_wp (fun _ => ?_) (fun c hc => ?_))
      · exact .pure ⟨ht,halt,hview⟩
      · have hself : ({ t with cache := some c } : Layer) = t := by rw [← hc]
        rw [hself]
        split
        · refine .bind ((flush_dirty_only_wp ht.coherent
            (fun hpq k ℓ hl hd => ht.dirty_steady hl hd hpq)).imp ?_ ?_)
          · rintro n u ⟨hu,hcar,href,-⟩
            refine .pure ⟨ht.carried hu hcar (fun w k ℓ hl hd => ⟨ℓ,href.dirty w k ℓ hl hd,hd⟩),
              halt.trans (href.alters.mono (fun _ _ h => h.elim)),?_⟩
            intro a ha
            rw [href.alters.view v a id,hview a ha]
          · exact fun e u he => (he.mono (fun _ _ h => h.elim)).after halt
        · exact .pure ⟨ht,halt,hview⟩

end Layer

end Miku.Block
