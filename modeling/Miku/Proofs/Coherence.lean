import Miku.Proofs.CacheSweeps
import Miku.Proofs.Dispatch

namespace Miku.Block
open Lib BufferCache

namespace Layer

variable {s t : Layer} {v k a : Nat} {ℓ : Line} {c : BufferCache} {p : Prop}
    {α : Type}

def line (s : Layer) (v k : Nat) : Option Line := s.cache.bind (fun c => c.line v k)

/-- What a device holds as seen through the cache. -/
def view (s : Layer) (v : Nat) : Sectors := fun a =>
  match s.line v (a / chunkSectors) with
  | some ℓ => ℓ.data (a % chunkSectors)
  | none => s.media v a

/-- Cached chunks lie on their device, and the clean ones agree with it. -/
structure Coherent (s : Layer) : Prop where
  placed : ∀ c, s.cache = some c → Placed c
  within : ∀ v k ℓ, s.line v k = some ℓ → k * chunkSectors + chunkSectors ≤ s.totalOf v
  clean : ∀ v k ℓ, s.line v k = some ℓ → ℓ.dirty = false →
    ∀ j, j < chunkSectors → ℓ.data j = s.media v (k * chunkSectors + j)

theorem line_of_cache (h : s.cache = some c) (v k : Nat) : s.line v k = c.line v k := by
  simp [line,h]

theorem line_no_cache (h : s.cache = none) (v k : Nat) : s.line v k = none := by
  simp [line,h]

theorem sector_split (a : Nat) : a / chunkSectors * chunkSectors + a % chunkSectors = a :=
  Nat.div_add_mod' a chunkSectors

theorem sector_mod (a : Nat) : a % chunkSectors < chunkSectors := Nat.mod_lt a (by decide)

theorem sector_chunk (k : Nat) (hj : j < chunkSectors) :
    (k * chunkSectors + j) / chunkSectors = k := by
  unfold chunkSectors at *
  omega

theorem view_line (h : s.line v (a / chunkSectors) = some ℓ) : s.view v a = ℓ.data (a % chunkSectors) := by
  simp [view,h]

theorem view_uncached (h : s.line v (a / chunkSectors) = none) : s.view v a = s.media v a := by
  simp [view,h]

theorem Coherent.clean_at (h : Coherent s) (hl : s.line v (a / chunkSectors) = some ℓ)
    (hd : ℓ.dirty = false) : ℓ.data (a % chunkSectors) = s.media v a := by
  rw [h.clean v _ ℓ hl hd _ (sector_mod a),sector_split]

theorem Coherent.view_clean (h : Coherent s)
    (hd : ∀ ℓ, s.line v (a / chunkSectors) = some ℓ → ℓ.dirty = false) :
    s.view v a = s.media v a := by
  cases hl : s.line v (a / chunkSectors) with
  | none => exact view_uncached hl
  | some ℓ => rw [view_line hl,h.clean_at hl (hd ℓ hl)]

theorem Coherent.bare (h : Coherent s) (hb : (s.cache.isNone || decide (s.totalOf v = 0)) = true)
    (k : Nat) : s.line v k = none := by
  cases hl : s.line v k with
  | none => rfl
  | some ℓ =>
    have hin := h.within v k ℓ hl
    rw [Bool.or_eq_true,Option.isNone_iff_eq_none,decide_eq_true_iff] at hb
    rcases hb with hc | hz
    · rw [line_no_cache hc] at hl
      cases hl
    · unfold chunkSectors at hin
      omega

/-- `t` comes from `s` by changes to what is seen in the sectors `W` only. -/
structure Alters (s t : Layer) (W : Nat → Nat → Prop) : Prop where
  cached : t.cache.isSome = s.cache.isSome
  shape : ∀ v, t.shape v = s.shape v
  view : ∀ v a, ¬ W v a → t.view v a = s.view v a

theorem Alters.refl (s : Layer) (W : Nat → Nat → Prop) : Alters s s W :=
  ⟨rfl,fun _ => rfl,fun _ _ _ => rfl⟩

theorem Alters.trans (h : Alters s t W) (h' : Alters t u W) : Alters s u W :=
  ⟨h'.cached.trans h.cached,fun v => (h'.shape v).trans (h.shape v),
    fun v a ha => (h'.view v a ha).trans (h.view v a ha)⟩

theorem Alters.mono (h : Alters s t W) (hw : ∀ v a, W v a → W' v a) : Alters s t W' :=
  ⟨h.cached,h.shape,fun v a ha => h.view v a (fun h => ha (hw v a h))⟩

theorem Alters.total (h : Alters s t W) (v : Nat) : t.totalOf v = s.totalOf v := by
  rw [totalOf_eq_shape,totalOf_eq_shape,h.shape]

abbrev Nowhere : Nat → Nat → Prop := fun _ _ => False

/-- `t` shows the same as `s` and has no unwritten data that `s` did not have. -/
structure Refreshes (s t : Layer) : Prop where
  alters : Alters s t Nowhere
  dirty : ∀ v k ℓ, t.line v k = some ℓ → ℓ.dirty = true → s.line v k = some ℓ

theorem Refreshes.refl (s : Layer) : Refreshes s s := ⟨.refl _ _,fun _ _ _ hl _ => hl⟩

theorem Refreshes.trans (h : Refreshes s t) (h' : Refreshes t u) : Refreshes s u :=
  ⟨h.alters.trans h'.alters,fun v k ℓ hl hd => h.dirty v k ℓ (h'.dirty v k ℓ hl hd) hd⟩

/-- Coherence with what is known of the devices: under `p` unwritten data is for
devices in `V` only and their writes get through, and under `q` no command fails. -/
structure Sound (p q : Prop) (V : Nat → Prop) (s : Layer) : Prop where
  coherent : Coherent s
  steady : p → ∀ v, V v → Steady s v
  dirty : p → ∀ v k ℓ, s.line v k = some ℓ → ℓ.dirty = true → V v
  calm : q → AllCalm s

/-- How a call fails: not by a panic, and only if commands do. Under `p` what is
seen outside of `W` survives. -/
structure Failed (p q : Prop) (s : Layer) (W : Nat → Nat → Prop) (e : Fail) (t : Layer) : Prop where
  noPanic : e ≠ .panic
  notCalm : ¬ q
  kept : p → Coherent t ∧ ∀ v a, ¬ W v a → t.view v a = s.view v a

theorem Failed.after (h : Failed p q t W e u) (hs : Alters s t W) : Failed p q s W e u :=
  ⟨h.noPanic,h.notCalm,fun hp => ⟨(h.kept hp).1,
    fun v a ha => ((h.kept hp).2 v a ha).trans (hs.view v a ha)⟩⟩

theorem Failed.mono (h : Failed p q s W e t) (hw : ∀ v a, W v a → W' v a) : Failed p q s W' e t :=
  ⟨h.noPanic,h.notCalm,fun hp => ⟨(h.kept hp).1,
    fun v a ha => (h.kept hp).2 v a (fun h => ha (hw v a h))⟩⟩

/-- Devices whose writes get through have no business failing here. -/
theorem Sound.dirty_steady (h : Sound p q V s) (hl : s.line v k = some ℓ) (hd : ℓ.dirty = true)
    (hpq : p ∨ q) : Steady s v := by
  rcases hpq with hp | hq
  · exact h.steady hp v (h.dirty hp v k ℓ hl hd)
  · exact (h.calm hq).steady v

theorem withCache_wp {f : BufferCache → α × BufferCache}
    (hnone : s.cache = none → Q dflt s)
    (hsome : ∀ c, s.cache = some c → Q (f c).1 { s with cache := some (f c).2 }) :
    Wp (withCache dflt f) s Q E := by
  unfold Wp withCache
  cases hc : s.cache with
  | none => exact hnone hc
  | some c => exact hsome c hc

theorem Coherent.of_lines (h : Coherent s) (hplaced : ∀ c, t.cache = some c → Placed c)
    (hline : ∀ v k, t.line v k = s.line v k) (hshape : ∀ v, t.shape v = s.shape v)
    (hmedia : ∀ v a, t.media v a = s.media v a) : Coherent t := by
  refine ⟨hplaced,?_,?_⟩
  · intro v k ℓ hl
    rw [totalOf_eq_shape,hshape,← totalOf_eq_shape]
    exact h.within v k ℓ ((hline v k).symm.trans hl)
  · intro v k ℓ hl hd j hj
    rw [hmedia]
    exact h.clean v k ℓ ((hline v k).symm.trans hl) hd j hj

theorem Refreshes.of_lines (hcached : t.cache.isSome = s.cache.isSome)
    (hline : ∀ v k, t.line v k = s.line v k) (hshape : ∀ v, t.shape v = s.shape v)
    (hmedia : ∀ v a, t.media v a = s.media v a) : Refreshes s t := by
  refine ⟨⟨hcached,hshape,?_⟩,fun v k ℓ hl _ => (hline v k).symm.trans hl⟩
  intro v a _
  simp [view,hline,hmedia]

theorem Sent.quiet (h : Sent s t v lba 0) (hs : Coherent s) :
    Coherent t ∧ Refreshes s t ∧ (∀ w k, t.line w k = s.line w k) ∧
      ∀ w a, t.media w a = s.media w a := by
  have hline : ∀ w k, t.line w k = s.line w k := fun w k => by simp [line,h.cache]
  have hmedia : ∀ w a, t.media w a = s.media w a := fun w a => h.media (by omega)
  have hplaced : ∀ c, t.cache = some c → Placed c := fun c hc => hs.placed c (h.cache ▸ hc)
  exact ⟨hs.of_lines hplaced hline h.shape hmedia,
    .of_lines (by rw [h.cache]) hline h.shape hmedia,hline,hmedia⟩

theorem driver_read_sound (hs : Sound p q V s) (hq : q → 0 < count ∧ lba + count ≤ s.totalOf v) :
    Wp (driverRead v lba count) s
      (fun w t => (Sound p q V t ∧ Refreshes s t) ∧ (∀ w k, t.line w k = s.line w k) ∧
        (∀ w a, t.media w a = s.media w a) ∧ w = fun i => s.media v (lba + i))
      (Failed p q s Nowhere) := by
  refine (driver_read_wp s v lba count).imp ?_ ?_
  · rintro w t ⟨hsent,hw,hst,hcalm⟩
    obtain ⟨hcoh,href,hline,hmedia⟩ := hsent.quiet hs.coherent
    refine ⟨⟨⟨hcoh,?_,?_,fun hq => hcalm (hs.calm hq)⟩,href⟩,hline,hmedia,hw⟩
    · exact fun hp w hw => hst w (hs.steady hp w hw)
    · exact fun hp w k ℓ hl hd => hs.dirty hp w k ℓ (href.dirty w k ℓ hl hd) hd
  · rintro e t ⟨he,hsent,hno⟩
    obtain ⟨hcoh,href,-⟩ := hsent.quiet hs.coherent
    exact ⟨he,fun hq' => hno (hq hq').1 (hq hq').2 (hs.calm hq'),fun _ => ⟨hcoh,href.alters.view⟩⟩

theorem Sound.setCache (hs : Sound p q V s) (hc : s.cache = some c) (c' : BufferCache)
    (hplaced : Placed c') (hline : ∀ v k, c'.line v k = c.line v k) :
    Sound p q V { s with cache := some c' } ∧ Refreshes s { s with cache := some c' } := by
  have hline' : ∀ v k, ({ s with cache := some c' } : Layer).line v k = s.line v k := by
    intro v k
    rw [line_of_cache hc,← hline]
    rfl
  refine ⟨⟨hs.coherent.of_lines ?_ hline' (fun _ => rfl) (fun _ _ => rfl),hs.steady,?_,hs.calm⟩,
    .of_lines (by simp [hc]) hline' (fun _ => rfl) (fun _ _ => rfl)⟩
  · intro c2 hc2
    cases hc2
    exact hplaced
  · exact fun hp v k ℓ hl hd => hs.dirty hp v k ℓ ((hline' v k).symm.trans hl) hd

/-- Chunk `(v, k)` got the line `ℓ`. The device changed at most where a dirty
chunk of the same set was written out. -/
structure Installed (s t : Layer) (v k : Nat) (ℓ : Line) : Prop where
  alters : Alters s t (fun w a => w = v ∧ a / chunkSectors = k)
  own : t.line v k = some ℓ
  others : ∀ w k' ℓ', (w,k') ≠ (v,k) → t.line w k' = some ℓ' → s.line w k' = some ℓ'
  media : ∀ w a, t.media w a ≠ s.media w a → (w,a / chunkSectors) ≠ (v,k) ∧
    setBase w (a / chunkSectors) = setBase v k ∧
      ∃ ℓ', s.line w (a / chunkSectors) = some ℓ' ∧ ℓ'.dirty = true

/-- The state once the victim of a displacement has reached its device. -/
theorem installed (hs : Coherent s) (hc : s.cache = some c)
    (hd : Displaces c v k ℓ victim c') (ht : t.cache = some c')
    (hshape : ∀ w, t.shape w = s.shape w) (hsame : ∀ w a, t.media w a = s.media w a ∨
      ∃ x, victim = some x ∧ w = x.dev ∧ a / chunkSectors = x.chunk)
    (hout : ∀ x, victim = some x → ∀ a, a / chunkSectors = x.chunk →
      t.media x.dev a = x.data (a % chunkSectors)) : Installed s t v k ℓ := by
  have hline := line_of_cache hc
  have hline' := line_of_cache ht
  refine ⟨⟨?_,hshape,?_⟩,?_,?_,?_⟩
  · rw [hc,ht]
    rfl
  · intro w a hne
    have hne' : (w,a / chunkSectors) ≠ (v,k) := fun h => hne (by cases h; exact ⟨rfl,rfl⟩)
    rcases hd.others w (a / chunkSectors) hne' with hkeep | ⟨hgone,ℓ',hℓ',hdirty⟩
    · cases hl : s.line w (a / chunkSectors) with
      | some ℓ' =>
        have hl' : t.line w (a / chunkSectors) = some ℓ' := by rw [hline',hkeep,← hline,hl]
        rw [view_line hl,view_line hl']
      | none =>
        have hl' : t.line w (a / chunkSectors) = none := by rw [hline',hkeep,← hline,hl]
        rw [view_uncached hl,view_uncached hl']
        refine (hsame w a).resolve_right ?_
        rintro ⟨x,hx,rfl,hax⟩
        have hvl := (hd.victim_line x hx).2.1
        rw [← hax,← hline,hl] at hvl
        cases hvl
    · have hl : s.line w (a / chunkSectors) = some ℓ' := by rw [hline,hℓ']
      have hl' : t.line w (a / chunkSectors) = none := by rw [hline',hgone]
      rw [view_line hl,view_uncached hl']
      cases hdd : ℓ'.dirty with
      | true => exact hout ⟨w,a / chunkSectors,ℓ'.data⟩ (hdirty hdd) a rfl
      | false =>
        rw [hs.clean_at hl hdd]
        refine (hsame w a).resolve_right ?_
        rintro ⟨x,hx,rfl,hax⟩
        have hvl := (hd.victim_line x hx).2.1
        rw [← hax,hℓ'] at hvl
        cases hvl
        cases hdd
  · rw [hline',hd.own]
  · intro w k' ℓ' hne hl
    rw [hline'] at hl
    rw [hline]
    rcases hd.others w k' hne with hkeep | ⟨hgone,-⟩
    · rw [← hkeep,hl]
    · rw [hgone] at hl
      cases hl
  · intro w a hne
    rcases hsame w a with h | ⟨x,hx,rfl,hax⟩
    · exact absurd h hne
    · obtain ⟨hxne,hvl,-,hbase⟩ := hd.victim_line x hx
      rw [← hax] at hxne hvl hbase
      exact ⟨hxne,hbase,_,(hline _ _).trans hvl,rfl⟩

theorem Installed.coherent (h : Installed s t v k ℓ) (hs : Coherent s)
    (hplaced : ∀ c, t.cache = some c → Placed c)
    (hgone : ∀ w a, t.media w a ≠ s.media w a → t.line w (a / chunkSectors) = none)
    (hin : k * chunkSectors + chunkSectors ≤ s.totalOf v)
    (hclean : ℓ.dirty = false → ∀ j, j < chunkSectors → ℓ.data j = s.media v (k * chunkSectors + j)) :
    Coherent t := by
  -- where a line is left, the device did not change
  have hmedia : ∀ w k' ℓ', t.line w k' = some ℓ' → ∀ j, j < chunkSectors →
      t.media w (k' * chunkSectors + j) = s.media w (k' * chunkSectors + j) := by
    intro w k' ℓ' hl j hj
    by_contra hne
    have hk := sector_chunk k' hj
    have := hgone w _ hne
    rw [hk,hl] at this
    cases this
  refine ⟨hplaced,?_,?_⟩
  · intro w k' ℓ' hl
    rw [h.alters.total]
    by_cases hne : (w,k') = (v,k)
    · cases hne
      exact hin
    · exact hs.within w k' ℓ' (h.others w k' ℓ' hne hl)
  · intro w k' ℓ' hl hd j hj
    rw [hmedia w k' ℓ' hl j hj]
    by_cases hne : (w,k') = (v,k)
    · cases hne
      cases h.own.symm.trans hl
      exact hclean hd j hj
    · exact hs.clean w k' ℓ' (h.others w k' ℓ' hne hl) hd j hj

theorem displace_wp (hs : Sound p q V s) (hc : s.cache = some c)
    (hd : Displaces c v k ℓ victim c') (hin : k * chunkSectors + chunkSectors ≤ s.totalOf v)
    (hclean : ℓ.dirty = false → ∀ j, j < chunkSectors → ℓ.data j = s.media v (k * chunkSectors + j))
    (hdirty : p → ℓ.dirty = true → V v) : Wp (writeOut victim) { s with cache := some c' }
      (fun _ t => Sound p q V t ∧ Installed s t v k ℓ) (Failed p q s W) := by
  have hsound : ∀ t : Layer, t.cache = some c' → Installed s t v k ℓ →
      (∀ w a, t.media w a ≠ s.media w a → t.line w (a / chunkSectors) = none) →
      (∀ w, Steady s w → Steady t w) → (AllCalm s → AllCalm t) → Sound p q V t := by
    intro t ht hi hgone hst hcalm
    refine ⟨hi.coherent hs.coherent ?_ hgone hin hclean,?_,?_,fun hq => hcalm (hs.calm hq)⟩
    · intro c2 hc2
      cases ht.symm.trans hc2
      exact hd.placed
    · exact fun hp w hw => hst w (hs.steady hp w hw)
    · intro hp w k' ℓ' hl hdd
      by_cases hne : (w,k') = (v,k)
      · cases hne
        cases hi.own.symm.trans hl
        exact hdirty hp hdd
      · exact hs.dirty hp w k' ℓ' (hi.others w k' ℓ' hne hl) hdd
  cases victim with
  | none =>
    have hi : Installed s { s with cache := some c' } v k ℓ :=
      installed hs.coherent hc hd rfl (fun _ => rfl) (fun _ _ => .inl rfl) (fun x hx => (nomatch hx))
    exact .pure ⟨hsound _ rfl hi (fun w a hne => absurd rfl hne) (fun _ h => h) id,hi⟩
  | some x =>
    obtain ⟨hxne,hvl,hnone,-⟩ := hd.victim_line x rfl
    have hxl : s.line x.dev x.chunk = some ⟨true,x.data⟩ := (line_of_cache hc _ _).trans hvl
    have hxin := hs.coherent.within _ _ _ hxl
    -- the sectors of the victim's chunk
    have hchunk : ∀ a, x.chunk * chunkSectors ≤ a ∧ a < x.chunk * chunkSectors + chunkSectors ↔
        a / chunkSectors = x.chunk := by
      intro a
      unfold chunkSectors
      omega
    refine (write_blocks_wp { s with cache := some c' } x.dev (x.chunk * chunkSectors) chunkSectors
      ⟨chunkSectors,x.data⟩).imp ?_ ?_
    · rintro - t ⟨hsent,hwr,hst,hcalm,-⟩
      have ht : t.cache = some c' := hsent.cache
      have hsame : ∀ w a, t.media w a = s.media w a ∨
          ∃ y, some x = some y ∧ w = y.dev ∧ a / chunkSectors = y.chunk := by
        intro w a
        by_cases hin : w = x.dev ∧ x.chunk * chunkSectors ≤ a ∧ a < x.chunk * chunkSectors + chunkSectors
        · exact .inr ⟨x,rfl,hin.1,(hchunk a).mp hin.2⟩
        · exact .inl (hsent.media hin)
      have hi : Installed s t v k ℓ := by
        refine installed hs.coherent hc hd ht hsent.shape hsame ?_
        intro y hy a ha
        cases hy
        rw [hwr a ((hchunk a).mpr ha)]
        have hmod : a - x.chunk * chunkSectors = a % chunkSectors := by
          rw [← ha]
          have := sector_split a
          omega
        rw [hmod]
      refine ⟨hsound t ht hi ?_ hst hcalm,hi⟩
      intro w a hne
      obtain ⟨y,hy,rfl,ha⟩ := (hsame w a).resolve_left hne
      cases hy
      rw [line_of_cache ht,ha,hnone]
    · rintro e t ⟨he,-,hno⟩
      have hnot : ¬ (p ∨ q) := fun hpq =>
        hno (by decide) .refl hxin (hs.dirty_steady hxl rfl hpq)
      exact ⟨he,fun hq => hnot (.inr hq),fun hp => absurd (.inl hp) hnot⟩

end Layer

open List

namespace Layer

variable {s t : Layer} {v k n chunk lba count : Nat} {ℓ : Line} {data window : Sectors}
  {p : Prop}

/-- The cache holds unwritten data of the chunk. -/
def hasDirty (s : Layer) (v k : Nat) : Bool := (s.cache.bind (fun c => c.findDirty v k)).isSome

theorem hasDirty_iff (h : Coherent s) :
    s.hasDirty v k = true ↔ ∃ ℓ, s.line v k = some ℓ ∧ ℓ.dirty = true := by
  unfold hasDirty
  cases hc : s.cache with
  | none => simp [line_no_cache hc]
  | some c =>
    rw [Option.bind_some,line_of_cache hc]
    cases hf : c.findDirty v k with
    | some i =>
      obtain ⟨hk,hd⟩ := find_dirty_some hf
      exact ⟨fun _ => ⟨_,line_of_key (h.placed c hc) hk,hd⟩,fun _ => rfl⟩
    | none =>
      refine ⟨fun h => (nomatch h),?_⟩
      rintro ⟨ℓ,hl,hd⟩
      rw [find_dirty_none (h.placed c hc) hf hl] at hd
      cases hd

/-- No chunk of a readahead window from `chunk` on can push out a later one that
has unwritten data. -/
def WindowClear (s : Layer) (v chunk : Nat) : Prop :=
  ∀ j, j < raMaxChunks → ∀ i, i < j → s.hasDirty v (chunk + j) = true →
    setBase v (chunk + i) ≠ setBase v (chunk + j)

instance : Decidable (WindowClear s v chunk) :=
  inferInstanceAs (Decidable (∀ j, j < raMaxChunks → ∀ i, i < j → s.hasDirty v (chunk + j) = true →
    setBase v (chunk + i) ≠ setBase v (chunk + j)))

theorem WindowClear.refreshes (h : WindowClear s v chunk) (hs : Coherent s) (ht : Coherent t)
    (href : Refreshes s t) : WindowClear t v chunk := by
  intro j hj i hi hd
  obtain ⟨ℓ,hl,hdd⟩ := (hasDirty_iff ht).mp hd
  exact h j hj i hi ((hasDirty_iff hs).mpr ⟨ℓ,href.dirty _ _ ℓ hl hdd,hdd⟩)

theorem insert_wp (hs : Sound p q V s) (hin : k * chunkSectors + chunkSectors ≤ s.totalOf v)
    (hdata : ∀ j, j < chunkSectors → data j = s.media v (k * chunkSectors + j)) :
    Wp (withCache none (fun c => c.insert v k data) >>= writeOut) s
      (fun _ t => Sound p q V t ∧ Refreshes s t ∧ ∀ w a, t.media w a ≠ s.media w a →
        setBase w (a / chunkSectors) = setBase v k ∧
          ∃ ℓ, s.line w (a / chunkSectors) = some ℓ ∧ ℓ.dirty = true) (Failed p q s Nowhere) := by
  refine .bind (withCache_wp ?_ ?_)
  · exact fun _ => Wp.pure ⟨hs,.refl s,fun w a hne => absurd rfl hne⟩
  · intro c hc
    rcases insert_spec (hs.coherent.placed c hc) v k data with hsame | ⟨hown,hd⟩
    · have hself : ({ s with cache := some c } : Layer) = s := by rw [← hc]
      rw [hsame,hself]
      exact .pure ⟨hs,.refl s,fun w a hne => absurd rfl hne⟩
    · refine (displace_wp hs hc hd hin (fun _ => hdata) (fun _ h => (nomatch h))).mono ?_
      rintro - t ⟨ht,hi⟩
      refine ⟨ht,⟨⟨hi.alters.cached,hi.alters.shape,?_⟩,?_⟩,fun w a hne => (hi.media w a hne).2⟩
      · intro w a _
        by_cases hka : w = v ∧ a / chunkSectors = k
        · -- the chunk itself had no unwritten data
          obtain ⟨rfl,rfl⟩ := hka
          rw [view_line hi.own]
          dsimp only
          rw [hdata _ (sector_mod a),sector_split]
          refine (hs.coherent.view_clean ?_).symm
          intro ℓ hl
          exact hown ℓ ((line_of_cache hc _ _).symm.trans hl)
        · exact hi.alters.view w a hka
      · intro w k' ℓ' hl hdd
        refine hi.others w k' ℓ' ?_ hl
        intro heq
        cases heq
        cases hi.own.symm.trans hl
        cases hdd

theorem insert_window_wp (hs : Sound p q V s) (hn : n ≤ raMaxChunks) (hclear : WindowClear s v chunk)
    (hin : (chunk + n) * chunkSectors ≤ s.totalOf v) (hwin : ∀ i, i < n → ∀ j, j < chunkSectors →
      window (i * chunkSectors + j) = s.media v ((chunk + i) * chunkSectors + j)) :
    Wp (insertWindow v chunk n window) s (fun _ t => Sound p q V t ∧ Refreshes s t)
      (Failed p q s Nowhere) := by
  -- what is left of the window still agrees with the device
  let I : List Nat → Layer → Prop := fun is t =>
    (Sound p q V t ∧ Refreshes s t) ∧ (is.Pairwise (· < ·) ∧ ∀ i ∈ is, i < n) ∧
      ∀ i ∈ is, ∀ j, j < chunkSectors →
        window (i * chunkSectors + j) = t.media v ((chunk + i) * chunkSectors + j)
  have hstart : I (List.range n) s := by
    refine ⟨⟨hs,.refl s⟩,⟨pairwise_lt_range,fun i hi => mem_range.mp hi⟩,?_⟩
    exact fun i hi => hwin i (mem_range.mp hi)
  refine (Wp.forM (I := I) ?_ hstart).mono (fun _ _ h => h.1)
  rintro i is t ⟨⟨ht,hst⟩,⟨hsorted,hbound⟩,hleft⟩
  obtain ⟨hlt,hsorted'⟩ := pairwise_cons.mp hsorted
  have hi : i < n := hbound i mem_cons_self
  have hin' : (chunk + i) * chunkSectors + chunkSectors ≤ t.totalOf v := by
    rw [hst.alters.total]
    unfold chunkSectors at *
    omega
  refine (insert_wp ht hin' (hleft i mem_cons_self)).imp ?_ ?_
  · rintro - t' ⟨ht',href,hmedia⟩
    refine ⟨⟨ht',hst.trans href⟩,⟨hsorted',fun j hj => hbound j (mem_cons_of_mem i hj)⟩,?_⟩
    intro j hj m hm
    rw [hleft j (mem_cons_of_mem i hj) m hm]
    by_contra hne
    -- only a dirty chunk of the window could have changed on the device
    obtain ⟨hbase,ℓ,hl,hd⟩ := hmedia v _ (Ne.symm hne)
    have hk := sector_chunk (chunk + j) hm
    rw [hk] at hbase hl
    have hdirty := (hasDirty_iff hs.coherent).mpr ⟨ℓ,hst.dirty _ _ ℓ hl hd,hd⟩
    have hjn := hbound j (mem_cons_of_mem i hj)
    exact hclear j (by omega) i (hlt j hj) hdirty hbase.symm
  · exact fun e t' he => he.after hst.alters

theorem mem_chunksOf (hlo : lba ≤ a) (hhi : a < lba + count) :
    a / chunkSectors ∈ chunksOf lba count := by
  refine mem_range'_1.mpr ?_
  unfold chunkSectors
  omega

variable {out : Sectors}

theorem blit_part {src g : Sectors} {off : Nat}
    (hsrc : ∀ a, lba ≤ a → a < lba + count → a / chunkSectors = k →
      src (off + (a - max lba (k * chunkSectors))) = g a) (i : Nat) (hi : i < count) :
    blit out (max lba (k * chunkSectors) - lba) src off
        (min (lba + count) (k * chunkSectors + chunkSectors) - max lba (k * chunkSectors)) i =
      if (lba + i) / chunkSectors = k then g (lba + i) else out i := by
  have hmem : (max lba (k * chunkSectors) - lba ≤ i ∧ i < max lba (k * chunkSectors) - lba +
      (min (lba + count) (k * chunkSectors + chunkSectors) - max lba (k * chunkSectors))) ↔
      (lba + i) / chunkSectors = k := by
    unfold chunkSectors
    omega
  by_cases hk : (lba + i) / chunkSectors = k
  · have hidx : i - (max lba (k * chunkSectors) - lba) = lba + i - max lba (k * chunkSectors) := by
      omega
    rw [if_pos hk,blit_in (hmem.mpr hk),hidx]
    exact hsrc (lba + i) (by omega) (by omega) hk
  · rw [if_neg hk,blit_out (fun h => hk (hmem.mp h))]

theorem ra_window (streak : Nat) (h : start + chunkSectors ≤ total) :
    0 < max (min (raWant streak) ((total - start) / chunkSectors)) 1 ∧
      max (min (raWant streak) ((total - start) / chunkSectors)) 1 ≤ raMaxChunks ∧
      start + max (min (raWant streak) ((total - start) / chunkSectors)) 1 * chunkSectors ≤ total := by
  have hwant : raWant streak ≤ 16 := by
    unfold raWant raChunks raMaxChunks
    split
    · omega
    · split <;> omega
  unfold raMaxChunks chunkSectors at *
  omega

variable {c : Prop}

/-- The data of a miss is right in any case; `c` is what the state after it needs. -/
theorem read_miss_wp {streak : Nat} (hs : Sound p q V s)
    (hclear : c → WindowClear s v k) (hmiss : s.line v k = none) (hk : k ∈ chunksOf lba count)
    (hq : q → lba + count ≤ s.totalOf v) (hcount : 0 < count) :
    Wp (readMiss v lba (lba + count) (s.totalOf v) out k streak) s
      (fun out' t => (c → Sound p q V t ∧ Refreshes s t) ∧ ∀ i, i < count →
        out' i = if (lba + i) / chunkSectors = k then s.view v (lba + i) else out i)
      (fun e t => c → Failed p q s Nowhere e t) := by
  have hview : ∀ a, a / chunkSectors = k → s.media v a = s.view v a :=
    fun a ha => (view_uncached (ha ▸ hmiss)).symm
  unfold readMiss
  dsimp only
  split
  · rename_i hfull
    obtain ⟨hpos,hmax,hin⟩ := ra_window streak hfull
    generalize max (min (raWant streak) ((s.totalOf v - k * chunkSectors) / chunkSectors)) 1 = n at *
    refine .bind ((driver_read_sound hs ?_).imp ?_ (fun _ _ h _ => h))
    · intro _
      refine ⟨?_,hin⟩
      unfold chunkSectors
      omega
    · rintro window t ⟨⟨ht,href⟩,-,hmedia,rfl⟩
      have hwindow : Wp (insertWindow v k n (fun i => s.media v (k * chunkSectors + i))) t
          (fun _ u => c → Sound p q V u ∧ Refreshes s u) (fun e u => c → Failed p q s Nowhere e u) := by
        by_cases hc : c
        · refine (insert_window_wp ht hmax ((hclear hc).refreshes hs.coherent ht.coherent href)
            ?_ ?_).imp (fun _ u ⟨hu,href'⟩ _ => ⟨hu,href.trans href'⟩)
            (fun e u he _ => he.after href.alters)
          · rw [href.alters.total]
            unfold chunkSectors at *
            omega
          · intro i _ j _
            rw [hmedia,Nat.add_mul,Nat.add_assoc]
        · exact Wp.trivial.imp (fun _ _ _ h => absurd h hc) (fun _ _ _ h => absurd h hc)
      refine .bind (hwindow.mono ?_)
      rintro - u hu
      refine .pure ⟨hu,blit_part ?_⟩
      intro a hlo hhi ha
      rw [← hview a ha]
      congr 1
      unfold chunkSectors at *
      omega
  · refine .bind ((driver_read_sound hs ?_).imp ?_ (fun _ _ h _ => h))
    · intro hq'
      have := hq hq'
      obtain ⟨h1,h2⟩ := mem_range'_1.mp hk
      unfold chunkSectors at *
      omega
    · rintro tail t ⟨ht,-,-,rfl⟩
      refine .pure ⟨fun _ => ht,blit_part ?_⟩
      intro a hlo hhi ha
      rw [← hview a ha]
      congr 1
      unfold chunkSectors at *
      omega

theorem read_chunk_wp (hs : Sound p q V s)
    (hclear : c → WindowClear s v k) (hk : k ∈ chunksOf lba count)
    (hq : q → lba + count ≤ s.totalOf v) (hcount : 0 < count) :
    Wp (readChunk v lba (lba + count) (s.totalOf v) out k) s
      (fun out' t => (c → Sound p q V t ∧ Refreshes s t) ∧ ∀ i, i < count →
        out' i = if (lba + i) / chunkSectors = k then s.view v (lba + i) else out i)
      (fun e t => c → Failed p q s Nowhere e t) := by
  unfold readChunk
  refine .bind (withCache_wp ?_ ?_)
  · exact fun hc => read_miss_wp hs hclear (line_no_cache hc v k) hk hq hcount
  · intro b hb
    obtain ⟨hget,hplaced,hline⟩ := get_spec (d := v) (k := k) (hs.coherent.placed b hb)
    obtain ⟨ht,href⟩ := hs.setCache hb ((b.get v k).2.advance v k).2 hplaced
      (fun v' k' => by rw [advance_line.1,hline])
    dsimp only
    rw [hget]
    cases hl : b.line v k with
    | some ℓ =>
      refine .pure ⟨fun _ => ⟨ht,href⟩,blit_part ?_⟩
      intro a hlo hhi ha
      have hl' : s.line v (a / chunkSectors) = some ℓ := by rw [line_of_cache hb,ha,hl]
      rw [view_line hl']
      congr 1
      unfold chunkSectors at *
      omega
    | none =>
      have hmiss := (line_of_cache (s := { s with cache := some ((b.get v k).2.advance v k).2 }) rfl v k).trans
        ((congrFun (congrFun (advance_line.1.trans hline) v) k).trans hl)
      refine (read_miss_wp ht (fun hc => (hclear hc).refreshes hs.coherent ht.coherent href) hmiss hk hq
        hcount).imp ?_ ?_
      · rintro out' u ⟨hu,hout⟩
        refine ⟨fun hc => ⟨(hu hc).1,href.trans (hu hc).2⟩,?_⟩
        intro i hi
        rw [hout i hi,href.alters.view v _ id]
      · exact fun e u he hc => (he hc).after href.alters

theorem read_wp {buf : Buf} (hs : Sound p q V s) (hclear : ∀ k ∈ chunksOf lba count, WindowClear s v k)
    (hq : q → lba + count ≤ s.totalOf v ∧ count ≤ buf.len) : Wp (read v lba count buf) s
      (fun out t => (Sound p q V t ∧ Refreshes s t) ∧ ∀ i, i < count → out i = s.view v (lba + i))
      (Failed p q s Nowhere) := by
  unfold read
  split
  · rename_i hzero
    exact .pure ⟨⟨hs,.refl s⟩,fun i hi => absurd hi (by omega)⟩
  rename_i hcount
  split
  · rename_i hlen
    exact .throw ⟨fun h => (nomatch h),fun hq' => by have := (hq hq').2; omega,
      fun _ => ⟨hs.coherent,fun _ _ _ => rfl⟩⟩
  refine .bind (.get ?_)
  split
  · rename_i hbare
    -- nothing is resident, so the device has what is seen
    have hview : ∀ a, s.media v a = s.view v a :=
      fun a => (view_uncached (hs.coherent.bare hbare _)).symm
    refine .bind ((driver_read_sound hs (fun hq' => ⟨by omega,(hq hq').1⟩)).mono ?_)
    rintro data t ⟨ht,-,-,rfl⟩
    refine .pure ⟨ht,?_⟩
    intro i hi
    rw [blit_in (by omega),← hview]
    congr 1
    omega
  · let I : List Nat → Sectors → Layer → Prop := fun ks out t =>
      (Sound p q V t ∧ Refreshes s t) ∧ (∀ k ∈ ks, k ∈ chunksOf lba count) ∧
        ∀ i, i < count → (lba + i) / chunkSectors ∉ ks → out i = s.view v (lba + i)
    have hstart : I (chunksOf lba count) buf.data s := by
      refine ⟨⟨hs,.refl s⟩,fun _ h => h,?_⟩
      intro i hi hout
      exact absurd (mem_chunksOf (by omega) (by omega)) hout
    refine (Wp.foldlM (I := I) ?_ hstart).mono ?_
    · rintro k ks out t ⟨⟨ht,href⟩,hks,hout⟩
      have hk := hks k mem_cons_self
      rw [← href.alters.total]
      refine (read_chunk_wp (c := True) ht
        (fun _ => (hclear k hk).refreshes hs.coherent ht.coherent href) hk
        (fun hq' => href.alters.total v ▸ (hq hq').1) (by omega)).imp ?_ ?_
      · rintro out' t' ⟨ht',hout'⟩
        obtain ⟨ht',href'⟩ := ht' trivial
        refine ⟨⟨ht',href.trans href'⟩,fun k' hk' => hks k' (mem_cons_of_mem k hk'),?_⟩
        intro i hi hni
        rw [hout' i hi]
        split
        · exact href.alters.view v _ id
        · rename_i hne
          exact hout i hi (fun h => (mem_cons.mp h).elim hne hni)
      · exact fun e t' he => (he trivial).after href.alters
    · rintro out t ⟨ht,-,hout⟩
      exact ⟨ht,fun i hi => hout i hi not_mem_nil⟩

end Layer

end Miku.Block
