import Miku.Proofs.WritePath

namespace Miku.Block
open Lib BufferCache

namespace Layer

variable {s : Layer} {buf : Buf}

theorem write_barrier_wp (hs : Coherent s)
    (hp : p → (∀ k ∈ chunksOf lba count, ∀ ℓ, s.line v k = some ℓ → ℓ.dirty = false) ∨
      (count ≤ buf.len ∧ lba + count ≤ s.totalOf v ∧ Steady s v ∧
        ∀ d, s.slotRef v = some d → d.nativeFua = true ∨ d.faults.flushes = []))
    (hq : q → AllCalm s ∧ lba + count ≤ s.totalOf v ∧ count ≤ buf.len) :
    Wp (writeBarrier v lba count buf) s
      (fun _ t => Coherent t ∧ (q → AllCalm t) ∧ Alters s t (Span v lba count) ∧
        ∀ a, lba ≤ a ∧ a < lba + count → t.view v a = buf.data (a - lba))
      (Failed p q s (Span v lba count)) := by
  rcases Nat.eq_zero_or_pos count with rfl | hcount
  · exact .pure ⟨hs,fun hq' => (hq hq').1,.refl _ _,fun a ha => absurd ha (by omega)⟩
  refine (write_through_wp (R := fun t => q → AllCalm t) hs (fun t o h => h) hcount
    ((write_fua_wp s v lba count buf).imp
      (fun _ t ⟨hsent,hwr,hcalm⟩ => ⟨hsent,hwr,fun hq' => hcalm (hq hq').2.2 (hq hq').2.1 (hq hq').1⟩)
      ?_)).mono (fun _ t ⟨hcoh,hcalm,halt,hview,_⟩ => ⟨hcoh,hcalm,halt,hview⟩)
  rintro e t ⟨he,hsent,hno⟩
  refine ⟨he,hsent,?_,?_⟩
  · intro hq'
    have hcalm := (hq hq').1
    refine hno hcount (hq hq').2.2 (hq hq').2.1 ?_ (hcalm.steady v)
    intro d hd
    rw [(hcalm v d hd).faults]
    exact .inr rfl
  · intro hp'
    rcases hp hp' with h | ⟨h1,h2,h3,h4⟩
    · exact h
    · exact absurd h3 (hno hcount h1 h2 h4)

theorem setDev_flush (hd : s.slotRef v = some d) :
    Sent s (s.setDev v (Device.flush d).2) v 0 0 := by
  obtain ⟨hmedia,hshape,-⟩ := Device.flush_media d
  refine ⟨rfl,?_,fun w hw => slotRef_setDev_ne hw,?_⟩
  · intro w
    by_cases hw : w = v
    · subst hw
      simp [shape,slotRef_setDev_self hd,hd,hshape]
    · simp [shape,slotRef_setDev_ne hw]
  · intro a _
    rw [media_of_slot (slotRef_setDev_self hd),media_of_slot hd,hmedia]

theorem flush_wp (hs : Coherent s)
    (hp : p → ∀ k ℓ, s.line v k = some ℓ → ℓ.dirty = true → Steady s v)
    (hq : q → AllCalm s ∧ ∃ d, s.slotRef v = some d) : Wp (flush v) s
      (fun _ t => Coherent t ∧ (q → AllCalm t) ∧ Refreshes s t ∧
        ∃ d, t.slotRef v = some d ∧ ∀ a, d.media a = s.view v a ∧ d.stable a = s.view v a)
      (Failed p q s Nowhere) := by
  unfold flush
  have hst : p ∨ q → ∀ k ℓ, s.line v k = some ℓ → ℓ.dirty = true → Steady s v :=
    fun hpq k ℓ hl hd => hpq.elim (fun h => hp h k ℓ hl hd) (fun h => (hq h).1.steady v)
  refine .bind ((flush_dirty_only_wp hs hst).mono ?_)
  rintro - t ⟨ht,hcar,href,hclean⟩
  have hview : ∀ a, t.media v a = s.view v a := by
    intro a
    rw [← ht.view_clean (fun ℓ hl => hclean _ ℓ hl),href.alters.view v a id]
  cases hd : t.slotRef v with
  | none =>
    refine .of_error (e := .err .noDevice) (t := t) (by simp [driverFlush,hd])
      ⟨by simp,?_,fun _ => ⟨ht,href.alters.view⟩⟩
    intro hq'
    obtain ⟨-,d,hd'⟩ := hq hq'
    have hsh := href.alters.shape v
    simp only [shape,hd,hd',Option.map_none,Option.map_some] at hsh
    cases hsh
  | some d =>
    have hsent := setDev_flush hd
    obtain ⟨hcoh,href',-⟩ := hsent.quiet ht
    rcases hfl : Device.flush d with ⟨r,d'⟩
    rw [hfl] at hsent hcoh href'
    have hcase := hfl
    unfold Device.flush at hcase
    dsimp only at hcase
    cases r with
    | ok u =>
      have hd' : d'.media = d.media ∧ d'.stable = d.media ∧
          d' = { d with faults := { d.faults with flushes := (nextFault d.faults.flushes).2 }
                        stable := d.media } := by
        split at hcase
        · cases hcase
        · cases hcase
          exact ⟨rfl,rfl,rfl⟩
      refine .of_ok (a := ()) (t := t.setDev v d') (by simp [driverFlush,hd,hfl])
        ⟨hcoh,?_,href.trans href',d',slotRef_setDev_self hd,?_⟩
      · intro hq'
        have hall := hcar.2 (hq hq').1
        have hcalm := hall v d hd
        refine hall.sent hsent (slotRef_setDev_self hd) ⟨?_,?_⟩
        · rw [hd'.2.2]
          exact hcalm.online
        · rw [hd'.2.2]
          dsimp only
          rw [hcalm.faults]
          rfl
      · intro a
        rw [hd'.1,hd'.2.1,← media_of_slot hd]
        exact ⟨hview a,hview a⟩
    | error e =>
      refine .of_error (e := .err e) (t := t.setDev v d') (by simp [driverFlush,hd,hfl])
        ⟨by simp,?_,fun _ => ⟨hcoh,(href.trans href').alters.view⟩⟩
      intro hq'
      rw [(hcar.2 (hq hq').1 v d hd).faults] at hcase
      cases hcase

variable {t : Layer} {v k lba count : Nat}

/-- What holds between the commands of a call of which no error is handled. -/
structure Settled (q : Prop) (s : Layer) : Prop where
  coherent : Coherent s
  calm : q → AllCalm s

theorem Settled.sound (h : Settled q s) : Sound False q (fun _ => False) s :=
  ⟨h.coherent,fun h => h.elim,fun h => h.elim,h.calm⟩

theorem Sound.settled (h : Sound p q V s) : Settled q s := ⟨h.coherent,h.calm⟩

/-- An error that is no panic and that a calm device does not cause. -/
def Refused (q : Prop) (e : Fail) (_ : Layer) : Prop := e ≠ .panic ∧ ¬ q

/-- The range `lba .. lba + count` shows zeroes, the rest what it did. -/
structure Zeroed (q : Prop) (s t : Layer) (v lba count : Nat) : Prop where
  settled : Settled q t
  alters : Alters s t (Span v lba count)
  zero : ∀ a, lba ≤ a ∧ a < lba + count → t.view v a = zeroSector

theorem Sent.uncached (h : Sent s t v lba count) (hs : Coherent s)
    (hnone : ∀ a, lba ≤ a ∧ a < lba + count → s.line v (a / chunkSectors) = none) :
    Coherent t ∧ Alters s t (Span v lba count) ∧ ∀ w k, t.line w k = s.line w k := by
  have hline : ∀ w k, t.line w k = s.line w k := fun w k => by simp [line,h.cache]
  refine ⟨⟨fun c hc => hs.placed c (h.cache ▸ hc),?_,?_⟩,⟨by rw [h.cache],h.shape,?_⟩,hline⟩
  · intro w k ℓ hl
    rw [h.total]
    exact hs.within w k ℓ ((hline w k).symm.trans hl)
  · intro w k ℓ hl hd j hj
    rw [hline] at hl
    rw [hs.clean w k ℓ hl hd j hj]
    refine (h.media ?_).symm
    rintro ⟨rfl,hin⟩
    have hk := sector_chunk k hj
    have := hnone _ hin
    rw [hk,hl] at this
    cases this
  · intro w a ha
    simp [view,hline,h.media ha]

theorem zero_loop_wp (hs : Settled q s) (hfuel : left ≤ fuel)
    (hnone : ∀ a, at_ ≤ a ∧ a < at_ + left → s.line v (a / chunkSectors) = none)
    (hq : q → at_ + left ≤ s.totalOf v) :
    Wp (zeroLoop v fuel at_ left) s (fun _ t => Zeroed q s t v at_ left) (Refused q) := by
  induction fuel generalizing s at_ left with
  | zero => exact .pure ⟨hs,.refl _ _,fun a ha => absurd ha (by omega)⟩
  | succ fuel ih =>
    unfold zeroLoop
    split
    · exact .pure ⟨hs,.refl _ _,fun a ha => absurd ha (by omega)⟩
    · rename_i hleft
      have hpos : 0 < min left zbufSectors := by
        unfold zbufSectors chunkSectors
        omega
      have hle : min left zbufSectors ≤ left := Nat.min_le_left _ _
      dsimp only
      generalize min left zbufSectors = n at hpos hle ⊢
      refine .bind ((write_blocks_wp s v at_ n ⟨n,zeros⟩).imp ?_ ?_)
      · rintro - t ⟨hsent,hwr,-,hcalm,-⟩
        obtain ⟨hcoh,halt,hline⟩ := hsent.uncached hs.coherent (fun a ha => hnone a (by omega))
        refine (ih ⟨hcoh,fun hq => hcalm (hs.calm hq)⟩ (by omega) ?_ ?_).mono ?_
        · intro a ha
          rw [hline]
          exact hnone a (by omega)
        · intro hq'
          rw [halt.total]
          have := hq hq'
          omega
        · rintro - u hu
          have hwide : ∀ w a, Span v at_ n w a → Span v at_ left w a := fun w a h => by
            unfold Span at *
            omega
          have hwide' : ∀ w a, Span v (at_ + n) (left - n) w a → Span v at_ left w a :=
            fun w a h => by
              unfold Span at *
              omega
          refine ⟨hu.settled,(halt.mono hwide).trans (hu.alters.mono hwide'),?_⟩
          intro a ha
          by_cases hna : at_ + n ≤ a
          · exact hu.zero a (by omega)
          · rw [hu.alters.view v a (fun h => hna h.2.1),
              view_uncached ((hline v _).trans (hnone a (by omega))),hwr a (by omega)]
            rfl
      · rintro e t ⟨he,-,hno⟩
        refine ⟨he,?_⟩
        intro hq'
        have := hq hq'
        exact hno hpos .refl (by omega) ((hs.calm hq').steady v)

theorem zero_middle_wp (hs : Settled q s)
    (hnone : ∀ a, lba ≤ a ∧ a < lba + count → s.line v (a / chunkSectors) = none)
    (hreg : ∃ d, s.slotRef v = some d) (hin : lba + count ≤ s.totalOf v) :
    Wp (zeroMiddle v lba count) s (fun _ t => Zeroed q s t v lba count) (Refused q) := by
  have hd := write_zeroes_wp s v lba count
  cases hx : dispatch v (Device.writeZeroes lba count) s with
  | ok r t =>
    obtain ⟨hsent,hwr,hcalm⟩ := hd.ok hx
    obtain ⟨hcoh,halt,hline⟩ := hsent.uncached hs.coherent hnone
    refine .of_ok (a := r) (t := t) (by simp [zeroMiddle,hx]) ⟨⟨hcoh,?_⟩,halt,?_⟩
    · exact fun hq => hcalm hin (hs.calm hq)
    · intro a ha
      rw [view_uncached ((hline v _).trans (hnone a ha)),hwr a ha]
  | error e t =>
    obtain ⟨he,hsent,hcalm⟩ := hd.error hx
    obtain ⟨hcoh,halt,hline⟩ := hsent.uncached hs.coherent hnone
    by_cases hun : e = .err .unsupported
    · subst hun
      have hloop : Wp (zeroLoop v count lba count) t (fun _ u => Zeroed q t u v lba count) (Refused q) :=
        zero_loop_wp ⟨hcoh,fun hq => (hcalm hin (hs.calm hq) hreg).2⟩ .refl
          (fun a ha => (hline v _).trans (hnone a ha)) (fun _ => by rw [halt.total]; exact hin)
      have hrun : zeroMiddle v lba count s = zeroLoop v count lba count t := by
        simp [zeroMiddle,hx]
      unfold Wp at hloop ⊢
      rw [hrun]
      cases hl : zeroLoop v count lba count t with
      | ok r u =>
        rw [hl] at hloop
        exact ⟨hloop.settled,halt.trans hloop.alters,hloop.zero⟩
      | error e u =>
        rw [hl] at hloop
        exact hloop
    · refine .of_error (e := e) (t := t) ?_ ⟨he,?_⟩
      · unfold zeroMiddle
        rw [hx]
        split
        · rename_i h
          cases h
          exact absurd rfl hun
        · rfl
      · exact fun hq => hun (hcalm hin (hs.calm hq) hreg).1

theorem covered_dropped (hs : Coherent s)
    (hu : s.modifyCache (fun c => c.invalidateCovered v lba count) = u) :
    Coherent u ∧ Alters s u (Span v lba count) ∧ ∀ k, Covers lba count k → u.line v k = none := by
  obtain ⟨hgone,hkept⟩ : (∀ w k, w = v ∧ Covers lba count k → u.line w k = none) ∧
      ∀ w k, ¬ (w = v ∧ Covers lba count k) → u.line w k = s.line w k := by
    rw [← hu]
    cases hc : s.cache with
    | none =>
      have hnone := line_no_cache (hu ▸ by rw [modifyCache,hc]; rfl : u.cache = none)
      rw [hu]
      exact ⟨fun w k _ => hnone w k,fun w k _ => (hnone w k).trans (line_no_cache hc w k).symm⟩
    | some c =>
      have hd := invalidate_covered_spec (hs.placed c hc) v lba count
      refine ⟨fun w k hin => (modifyCache_line hc w k).trans (hd.gone w k hin),?_⟩
      intro w k hout
      rw [modifyCache_line hc,line_of_cache hc,hd.kept w k hout]
  have hplaced := hu ▸ modifyCache_placed hs (fun c hc => (invalidate_covered_spec hc v lba count).placed) rfl
  have hcached : u.cache.isSome = s.cache.isSome := by rw [← hu,modifyCache_isSome]
  have hmedia : ∀ w a, u.media w a = s.media w a := fun w a => by rw [← hu]; rfl
  have hshape : ∀ w, u.shape w = s.shape w := fun w => by rw [← hu]; rfl
  have hold : ∀ w k ℓ, u.line w k = some ℓ → s.line w k = some ℓ := by
    intro w k ℓ hl
    by_cases hin : w = v ∧ Covers lba count k
    · rw [hgone w k hin] at hl
      cases hl
    · rwa [hkept w k hin] at hl
  refine ⟨⟨hplaced,?_,?_⟩,⟨hcached,hshape,?_⟩,fun k hk => hgone v k ⟨rfl,hk⟩⟩
  · intro w k ℓ hl
    rw [totalOf_eq_shape,hshape,← totalOf_eq_shape]
    exact hs.within w k ℓ (hold w k ℓ hl)
  · intro w k ℓ hl hd j hj
    rw [hmedia]
    exact hs.clean w k ℓ (hold w k ℓ hl) hd j hj
  · intro w a ha
    have hout : ¬ (w = v ∧ Covers lba count (a / chunkSectors)) := by
      rintro ⟨rfl,h1,h2⟩
      refine ha ⟨rfl,?_⟩
      unfold chunkSectors at *
      omega
    simp [view,hkept w _ hout,hmedia]

theorem zeroSlice_wp
    (hn : n ≤ chunkSectors) (h : Q ⟨n,zeros⟩ s) : Wp (zeroSlice n) s Q E := by
  unfold zeroSlice
  rw [if_pos hn]
  exact .pure h

theorem Zeroed.empty (hs : Settled q s) (h : count = 0) : Zeroed q s s v lba count :=
  ⟨hs,.refl _ _,fun a ha => absurd ha (by omega)⟩

theorem zero_edge_wp (hs : Settled q s) (hn : end_ - lba ≤ chunkSectors)
    (hin : end_ ≤ s.totalOf v) :
    Wp (zeroEdge v lba end_) s (fun _ t => Zeroed q s t v lba (end_ - lba)) (Refused q) := by
  unfold zeroEdge
  split
  · have hin' : lba + (end_ - lba) ≤ s.totalOf v := by omega
    refine .bind (zeroSlice_wp hn ((write_wp hs.sound (fun h => h.elim)
      (fun _ => ⟨hin',.refl⟩)).imp ?_ ?_))
    · exact fun _ t ⟨ht,halt,hview⟩ => ⟨ht.settled,halt,fun a ha => hview a ha⟩
    · exact fun e t he => ⟨he.noPanic,he.notCalm⟩
  · exact .pure (.empty hs (by omega))

theorem Zeroed.join (hlo : lba ≤ lo) (hmid : lo < hi)
    (hhi : hi ≤ end_) (h1 : Zeroed q s t1 v lba (lo - lba)) (h2 : Zeroed q t1 t2 v hi (end_ - hi))
    (h3 : Alters t2 t3 (Span v lo (hi - lo))) (h4 : Zeroed q t3 t4 v lo (hi - lo)) :
    Zeroed q s t4 v lba (end_ - lba) := by
  have hsub : ∀ {x n}, lba ≤ x → x + n ≤ end_ → ∀ w a, Span v x n w a → Span v lba (end_ - lba) w a := by
    intro x n hx hn w a hw
    omega
  refine ⟨h4.settled,?_,?_⟩
  · exact (h1.alters.mono (hsub (by omega) (by omega))).trans
      ((h2.alters.mono (hsub (by omega) (by omega))).trans
        ((h3.mono (hsub (by omega) (by omega))).trans (h4.alters.mono (hsub (by omega) (by omega)))))
  · intro a ha
    by_cases hin : lo ≤ a ∧ a < hi
    · exact h4.zero a (by omega)
    · have hout : ¬ Span v lo (hi - lo) v a := by
        omega
      rw [h4.alters.view v a hout,h3.view v a hout]
      by_cases htail : hi ≤ a
      · exact h2.zero a (by omega)
      · rw [h2.alters.view v a (fun h => htail h.2.1)]
        exact h1.zero a (by omega)

/-- The one-chunk zero buffer is long enough: nothing is left to do, the range
has at most a chunk of sectors, or it contains a whole chunk. -/
def ZeroFits (lba end_ : Nat) : Prop :=
  end_ ≤ lba ∨ end_ - lba ≤ chunkSectors ∨
    (lba + chunkSectors - 1) / chunkSectors * chunkSectors < end_ / chunkSectors * chunkSectors

/-- Where the range ends on the device. -/
def zeroEnd (s : Layer) (v lba count : Nat) : Nat := min ((lba + count) % 2 ^ 64) (s.totalOf v)

theorem write_zeroes_call_wp (hs : Settled q s) (hfit : ZeroFits lba (s.zeroEnd v lba count))
    (hq : q → ∃ d, s.slotRef v = some d ∧ d.readOnly = false) : Wp (writeZeroes v lba count) s
      (fun _ t => Zeroed q s t v lba (s.zeroEnd v lba count - lba)) (Refused q) := by
  unfold writeZeroes
  refine .bind (.get ?_)
  cases hd : s.slotRef v with
  | none =>
    refine .throw ⟨fun h => (nomatch h),?_⟩
    intro hq'
    obtain ⟨d,hd',-⟩ := hq hq'
    cases hd.symm.trans hd'
  | some d =>
    dsimp only
    split
    · rename_i hro
      refine .throw ⟨fun h => (nomatch h),?_⟩
      intro hq'
      obtain ⟨d',hd',hro'⟩ := hq hq'
      cases hd.symm.trans hd'
      rw [hro] at hro'
      cases hro'
    have hend : s.zeroEnd v lba count = min ((lba + count) % 2 ^ 64) d.total := by
      rw [zeroEnd,totalOf_of_slot hd]
    have hle : s.zeroEnd v lba count ≤ s.totalOf v := Nat.min_le_right _ _
    rw [← hend]
    generalize s.zeroEnd v lba count = end_ at hfit hle ⊢
    split
    · exact .pure (.empty hs (by omega))
    rename_i hlt
    split
    · rename_i hmid
      refine zero_edge_wp hs ?_ hle
      unfold ZeroFits at hfit
      omega
    · rename_i hmid
      have hlo : lba ≤ (lba + chunkSectors - 1) / chunkSectors * chunkSectors ∧
          (lba + chunkSectors - 1) / chunkSectors * chunkSectors < lba + chunkSectors := by
        unfold chunkSectors
        omega
      have hhi : end_ / chunkSectors * chunkSectors ≤ end_ ∧
          end_ < end_ / chunkSectors * chunkSectors + chunkSectors := by
        unfold chunkSectors
        omega
      have hdvd : (lba + chunkSectors - 1) / chunkSectors * chunkSectors % chunkSectors = 0 ∧
          end_ / chunkSectors * chunkSectors % chunkSectors = 0 :=
        ⟨Nat.mul_mod_left _ _,Nat.mul_mod_left _ _⟩
      generalize (lba + chunkSectors - 1) / chunkSectors * chunkSectors = lo at *
      generalize end_ / chunkSectors * chunkSectors = hi at *
      refine .bind ((zero_edge_wp hs (by omega) (by omega)).mono ?_)
      intro _ t1 h1
      refine .bind ((zero_edge_wp h1.settled (by omega) (by rw [h1.alters.total]; exact hle)).mono ?_)
      intro _ t2 h2
      refine .bind (.modify ?_)
      obtain ⟨hcoh,halt,hgone⟩ := @covered_dropped _ v lo (hi - lo) _ h2.settled.coherent rfl
      have htotal := (halt.total v).trans ((h2.alters.total v).trans (h1.alters.total v))
      refine (zero_middle_wp ⟨hcoh,fun hq => h2.settled.calm hq⟩ ?_ ?_ ?_).imp
        (fun _ t4 h4 => .join hlo.1 (by omega) hhi.1 h1 h2 halt h4) (fun _ _ h => h)
      · intro a ha
        refine hgone _ ?_
        unfold Covers chunkSectors at *
        omega
      · refine slot_of_total ?_
        rw [htotal]
        omega
      · rw [htotal]
        omega

/-- `write_zeroes` does not run out of its buffers, and if it returns `Ok` the
requested sectors that exist show zeroes and all others what they did. What a
sector shows is what a read of it returns, by `read_sector`. -/
def ZeroesExactly (s : Layer) (v lba count : Nat) : Prop :=
  match writeZeroes v lba count s with
  | .error e _ => e ≠ .panic
  | .ok _ t =>
    (∀ a, lba ≤ a ∧ a < min (lba + count) (s.totalOf v) → t.view v a = zeroSector) ∧
      ∀ w a, ¬ (w = v ∧ lba ≤ a ∧ a < min (lba + count) (s.totalOf v)) → t.view w a = s.view w a

theorem zeroes_exactly (hs : Coherent s) (hwrap : s.totalOf v ≤ lba ∨ lba + count < 2 ^ 64)
    (hfit : ZeroFits lba (min (lba + count) (s.totalOf v))) : ZeroesExactly s v lba count := by
  have hend : s.zeroEnd v lba count - lba = min (lba + count) (s.totalOf v) - lba := by
    unfold zeroEnd
    rcases hwrap with h | h
    · omega
    · rw [Nat.mod_eq_of_lt h]
  have hfit' : ZeroFits lba (s.zeroEnd v lba count) := by
    rcases hwrap with h | h
    · refine .inl ?_
      omega
    · rw [zeroEnd,Nat.mod_eq_of_lt h]
      exact hfit
  have hrun := write_zeroes_call_wp (q := False) ⟨hs,fun h => h.elim⟩ hfit' (fun h => h.elim)
  rw [hend] at hrun
  unfold ZeroesExactly
  generalize min (lba + count) (s.totalOf v) = end_ at hrun ⊢
  cases hx : writeZeroes v lba count s with
  | error e t => exact (hrun.error hx).1
  | ok r t =>
    have hz := hrun.ok hx
    refine ⟨fun a ha => hz.zero a (by omega),?_⟩
    intro w a hout
    refine hz.alters.view w a ?_
    omega

/-- A machine with one device of the given size, filled with ones, and no cache. -/
def bareDisk (total : Nat) : Layer :=
  ⟨fun v => if v = 0 then some ⟨total,false,false,false,fun _ _ => 1,fun _ _ => 1,.none,.online,0⟩
    else none,none⟩

theorem bareDisk_coherent (total : Nat) : Coherent (bareDisk total) := by
  have hnone : ∀ v k, (bareDisk total).line v k = none := line_no_cache rfl
  refine ⟨fun c hc => (nomatch hc),?_,?_⟩
  · intro v k ℓ hl
    rw [hnone] at hl
    cases hl
  · intro v k ℓ hl
    rw [hnone] at hl
    cases hl

theorem write_zeroes_readOnly (hd : s.slotRef v = some d) (hro : d.readOnly = true) :
    Wp (writeZeroes v lba count) s (fun _ _ => False) (fun _ t => t = s) := by
  refine .bind (.get ?_)
  simp only [hd,hro,↓reduceIte]
  exact .throw rfl

section Writable

variable {d : Device} (hd : s.slotRef v = some d) (hro : d.readOnly = false)
include hd hro

theorem write_zeroes_empty (h : s.zeroEnd v lba count ≤ lba) :
    Wp (writeZeroes v lba count) s (fun _ t => t = s) (fun _ _ => False) := by
  rw [zeroEnd,totalOf_of_slot hd] at h
  refine .bind (.get ?_)
  simp only [hd,hro,Bool.false_eq_true,↓reduceIte]
  rw [if_pos h]
  exact .pure rfl

theorem write_zeroes_overrun (h : ¬ ZeroFits lba (s.zeroEnd v lba count)) :
    Wp (writeZeroes v lba count) s (fun _ _ => False) (fun e _ => e = .panic) := by
  rw [zeroEnd,totalOf_of_slot hd] at h
  unfold writeZeroes
  refine .bind (.get ?_)
  simp only [hd,hro,Bool.false_eq_true,↓reduceIte]
  generalize min ((lba + count) % 2 ^ 64) d.total = end_ at h ⊢
  unfold ZeroFits at h
  rw [if_neg (by omega),if_pos (by omega)]
  unfold zeroEdge
  rw [if_pos (by omega)]
  refine .bind ?_
  unfold zeroSlice
  rw [if_neg (by omega)]
  exact .throw rfl

end Writable

theorem write_zeroes_exact {total : Nat} (hlba : lba < 2 ^ 64) (hcount : count < 2 ^ 32)
    (htotal : total + chunkSectors ≤ 2 ^ 64) :
    (∀ s v, Coherent s → s.totalOf v = total → ZeroesExactly s v lba count) ↔
      total ≤ lba ∨ (lba + count < 2 ^ 64 ∧ ZeroFits lba (min (lba + count) total)) := by
  constructor
  · intro h
    have hdisk := h (bareDisk total) 0 (bareDisk_coherent total) rfl
    by_contra hno
    have hlt : lba < total := Nat.lt_of_not_le (fun h => hno (.inl h))
    by_cases hwrap : lba + count < 2 ^ 64
    · have hfit : ¬ ZeroFits lba (min (lba + count) total) := fun h => hno (.inr ⟨hwrap,h⟩)
      have hpanic : Wp (writeZeroes 0 lba count) (bareDisk total) (fun _ _ => False)
          (fun e _ => e = .panic) :=
        write_zeroes_overrun rfl rfl (by rw [zeroEnd,Nat.mod_eq_of_lt hwrap]; exact hfit)
      unfold ZeroesExactly at hdisk
      cases hx : writeZeroes 0 lba count (bareDisk total) with
      | ok r t => exact hpanic.ok hx
      | error e t =>
        rw [hx] at hdisk
        exact hdisk (hpanic.error hx)
    · -- the sum wraps below `lba`, so the call returns at once
      have hend : (bareDisk total).zeroEnd 0 lba count ≤ lba := by
        unfold zeroEnd
        omega
      have hsame := write_zeroes_empty (s := bareDisk total) (v := 0) rfl rfl hend
      unfold ZeroesExactly at hdisk
      cases hx : writeZeroes 0 lba count (bareDisk total) with
      | error e t => exact hsame.error hx
      | ok r t =>
        rw [hx] at hdisk
        cases hsame.ok hx
        have hlba' := hdisk.1 lba ⟨.refl,by
          have : (bareDisk total).totalOf 0 = total := rfl
          omega⟩
        have hone : ((1 : UInt8) = 0) := congrFun hlba' 0
        exact absurd hone (by decide)
  · rintro (h | ⟨hwrap,hfit⟩) s v hs rfl
    · refine zeroes_exactly hs (.inl h) (.inl ?_)
      omega
    · exact zeroes_exactly hs (.inr hwrap) hfit

theorem write_zeroes_exact_chunks :
    (∀ s v, Coherent s → s.totalOf v = 64 → ZeroesExactly s v 3 20) ↔
      64 ≤ 3 ∨ (3 + 20 < 2 ^ 64 ∧ ZeroFits 3 (min (3 + 20) 64)) :=
  write_zeroes_exact (by decide) (by decide) (by decide)

/-- Sectors 1 to 14 contain no whole chunk, and the zero buffer has eight. -/
theorem write_zeroes_overruns : Coherent (bareDisk 64) ∧ ¬ ZeroesExactly (bareDisk 64) 0 1 14 := by
  refine ⟨bareDisk_coherent 64,?_⟩
  have hrun : writeZeroes 0 1 14 (bareDisk 64) = .error .panic (bareDisk 64) := rfl
  unfold ZeroesExactly
  rw [hrun]
  exact fun h => h rfl

end Layer

end Miku.Block
