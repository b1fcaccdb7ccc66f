import Miku.Block.Layer
import Miku.Lib.Wp

namespace Miku.Block
open Lib Device

variable {data : Sectors} {n lba count : Nat} {buf : Buf} {α : Type}

theorem blit_in (h : at_ ≤ i ∧ i < at_ + n) : blit dst at_ src off n i = src (off + (i - at_)) :=
  if_pos h

theorem blit_out (h : ¬ (at_ ≤ i ∧ i < at_ + n)) : blit dst at_ src off n i = dst i := if_neg h

namespace Device

variable {d d' : Device} {run : Command Unit}

/-- What a command cannot change. -/
def shape (d : Device) : Nat × Bool × Bool × Bool :=
  (d.total,d.readOnly,d.nativeFua,d.nativeZeroes)

/-- Every run of the command, failed or not, stays within its sectors; a
successful one leaves `data` there. -/
structure Writes (run : Command Unit) (lba count : Nat) (data : Sectors) : Prop where
  shape : ∀ d, (run d).2.shape = d.shape
  state : ∀ d, (run d).2.state = d.state
  outside : ∀ d a, ¬ (lba ≤ a ∧ a < lba + count) → (run d).2.media a = d.media a
  written : ∀ d a, (run d).1 = .ok () → lba ≤ a ∧ a < lba + count →
    (run d).2.media a = data (a - lba)

theorem Writes.of_run (h : ∀ d, (run d).2.shape = d.shape ∧ (run d).2.state = d.state ∧
    (∀ a, ¬ (lba ≤ a ∧ a < lba + count) → (run d).2.media a = d.media a) ∧
    ∀ a, (run d).1 = .ok () → lba ≤ a ∧ a < lba + count → (run d).2.media a = data (a - lba)) :
    Writes run lba count data :=
  ⟨fun d => (h d).1,fun d => (h d).2.1,fun d => (h d).2.2.1,fun d => (h d).2.2.2⟩

theorem writeBlocks_writes (lba count : Nat) (buf : Buf) :
    Writes (writeBlocks lba count buf) lba count buf.data := by
  refine .of_run fun d => ?_
  unfold writeBlocks
  repeat' split
  · exact ⟨rfl,rfl,fun _ _ => rfl,fun _ h => (nomatch h)⟩
  · exact ⟨rfl,rfl,fun _ _ => rfl,fun _ h => (nomatch h)⟩
  · exact ⟨rfl,rfl,fun _ ha => if_neg ha,fun _ h => (nomatch h)⟩
  · exact ⟨rfl,rfl,fun _ => blit_out,fun a _ ha => by simp [blit_in ha]⟩

theorem flush_media (d : Device) : (flush d).2.media = d.media ∧ (flush d).2.shape = d.shape ∧
    (flush d).2.state = d.state := by
  unfold flush
  dsimp only
  split
  · exact ⟨rfl,rfl,rfl⟩
  · exact ⟨rfl,rfl,rfl⟩

theorem writeBlocksFua_writes (lba count : Nat) (buf : Buf) :
    Writes (writeBlocksFua lba count buf) lba count buf.data := by
  have hw := writeBlocks_writes lba count buf
  -- after the write only `stable` and the faults change
  have hfua : ∀ d, ((writeBlocksFua lba count buf d).2.media = (writeBlocks lba count buf d).2.media ∧
      (writeBlocksFua lba count buf d).2.shape = (writeBlocks lba count buf d).2.shape ∧
      (writeBlocksFua lba count buf d).2.state = (writeBlocks lba count buf d).2.state) ∧
      ((writeBlocksFua lba count buf d).1 = .ok () → (writeBlocks lba count buf d).1 = .ok ()) := by
    intro d
    unfold writeBlocksFua
    rcases writeBlocks lba count buf d with ⟨r,d'⟩
    cases r with
    | error e => exact ⟨⟨rfl,rfl,rfl⟩,fun h => (nomatch h)⟩
    | ok u =>
      dsimp only
      split
      · exact ⟨⟨rfl,rfl,rfl⟩,fun _ => rfl⟩
      · exact ⟨flush_media d',fun _ => rfl⟩
  refine .of_run fun d => ?_
  obtain ⟨⟨hm,hsh,hst⟩,hok⟩ := hfua d
  rw [hm,hsh,hst]
  exact ⟨hw.shape d,hw.state d,hw.outside d,fun a h => hw.written d a (hok h)⟩

theorem writeZeroes_writes (lba count : Nat) : Writes (writeZeroes lba count) lba count zeros := by
  have hw := writeBlocks_writes lba count ⟨count,zeros⟩
  refine .of_run fun d => ?_
  unfold writeZeroes
  split
  · exact ⟨rfl,rfl,fun _ _ => rfl,fun _ h => (nomatch h)⟩
  · exact ⟨hw.shape d,hw.state d,hw.outside d,hw.written d⟩

theorem attempts_succ (run : Command α) (n : Nat) (d : Device) :
    attempts run (n + 1) d = match run d with
      | (.error e,d) => if transient e then attempts run n d else (.error e,d)
      | (.ok a,d) => (.ok a,d) := rfl

theorem Writes.attempts (h : Writes run lba count data) (n : Nat) :
    Writes (attempts run n) lba count data := by
  induction n with
  | zero => exact h
  | succ n ih =>
    refine .of_run fun d => ?_
    have hd := h.shape d
    have hst := h.state d
    have hout := h.outside d
    have hwr := h.written d
    rw [attempts_succ]
    generalize run d = x at *
    obtain ⟨r,d'⟩ := x
    cases r with
    | ok u => exact ⟨hd,hst,hout,hwr⟩
    | error e =>
      dsimp only
      split
      · exact ⟨(ih.shape d').trans hd,(ih.state d').trans hst,
          fun a ha => (ih.outside d' a ha).trans (hout a ha),ih.written d'⟩
      · exact ⟨hd,hst,hout,fun _ h => (nomatch h)⟩

/-- The write outcomes to come hold no hard error, and no more failures in a row
than there are retries; `n` retries are left for the first command. -/
def Recovers : Nat → List (Option (BlkError × Torn)) → Prop
  | _, [] => True
  | _, none :: rs => Recovers maxRetries rs
  | 0, some _ :: _ => False
  | n + 1, some (e,_) :: rs => transient e = true ∧ Recovers n rs

instance Recovers.decidable : (n : Nat) → (rs : List (Option (BlkError × Torn))) →
    Decidable (Recovers n rs)
  | _, [] => inferInstanceAs (Decidable True)
  | _, none :: rs => Recovers.decidable maxRetries rs
  | 0, some _ :: _ => inferInstanceAs (Decidable False)
  | n + 1, some (e,_) :: rs =>
    have := Recovers.decidable n rs
    inferInstanceAs (Decidable (transient e = true ∧ Recovers n rs))

/-- The driver does not reject the write out of hand. -/
def Accepts (d : Device) (lba count : Nat) (buf : Buf) : Prop :=
  count ≤ buf.len ∧ lba + count ≤ d.total

theorem account_ok_online (h : d.state ≠ .offline) :
    (d.account (.ok r : Except BlkError α)).state ≠ .offline := by
  unfold account
  dsimp only
  split
  · exact fun h => (nomatch h)
  · exact h

theorem writeBlocks_accepted (ha : d.Accepts lba count buf) : writeBlocks lba count buf d =
      (match (nextFault d.faults.writes).1 with
        | some (e,torn) => (.error e,({ d with
            faults := { d.faults with writes := (nextFault d.faults.writes).2 } }).tear lba count torn)
        | none => (.ok (),{ d with
            faults := { d.faults with writes := (nextFault d.faults.writes).2 }
            media := blit d.media lba buf.data 0 count })) := by
  exact (if_neg (Nat.not_lt.mpr ha.1)).trans (if_neg (Nat.not_lt.mpr ha.2))

/-- On devices with `P` the command turns out as the next write outcome says. -/
structure Follows (run : Command Unit) (P : Device → Prop) : Prop where
  online : ∀ d, P d → d.state ≠ .offline
  account : ∀ d, P d → P (d.account (.ok () : Except BlkError Unit))
  ok : ∀ d, P d → (nextFault d.faults.writes).1 = none →
    ∃ d', run d = (.ok (),d') ∧ P d' ∧ d'.faults.writes = (nextFault d.faults.writes).2
  fail : ∀ d e torn, P d → (nextFault d.faults.writes).1 = some (e,torn) →
    ∃ d', run d = (.error e,d') ∧ P d' ∧ d'.faults.writes = (nextFault d.faults.writes).2

theorem recovers_none
    (h : (nextFault ws).1 = none) (hr : Recovers n ws) : Recovers maxRetries (nextFault ws).2 := by
  rcases ws with _ | ⟨f,rs⟩
  · trivial
  · cases h
    cases n <;> exact hr

theorem recovers_some (h : (nextFault ws).1 = some (e,torn)) (hr : Recovers n ws) :
    ∃ m, n = m + 1 ∧ transient e = true ∧ Recovers m (nextFault ws).2 := by
  rcases ws with _ | ⟨f,rs⟩
  · cases h
  · cases h
    cases n with
    | zero => exact hr.elim
    | succ m => exact ⟨m,rfl,hr⟩

theorem Follows.attempts (h : Follows run P) (hp : P d)
    (hr : Recovers n d.faults.writes) :
    ∃ d', attempts run n d = (.ok (),d') ∧ P d' ∧ Recovers maxRetries d'.faults.writes := by
  induction n generalizing d with
  | zero =>
    cases hf : (nextFault d.faults.writes).1 with
    | none =>
      obtain ⟨d',hrun,hp',hw⟩ := h.ok d hp hf
      exact ⟨d',hrun,hp',hw ▸ recovers_none hf hr⟩
    | some f =>
      obtain ⟨m,hm,-⟩ := recovers_some hf hr
      cases hm
  | succ n ih =>
    rw [attempts_succ]
    cases hf : (nextFault d.faults.writes).1 with
    | none =>
      obtain ⟨d',hrun,hp',hw⟩ := h.ok d hp hf
      rw [hrun]
      exact ⟨d',rfl,hp',hw ▸ recovers_none hf hr⟩
    | some f =>
      obtain ⟨d',hrun,hp',hw⟩ := h.fail d f.1 f.2 hp hf
      obtain ⟨m,hm,htr,hr'⟩ := recovers_some hf hr
      cases hm
      rw [hrun]
      simp only [htr,↓reduceIte]
      exact ih hp' (hw ▸ hr')

theorem writeBlocks_follows : Follows (writeBlocks lba count buf)
      (fun d => d.Accepts lba count buf ∧ d.state ≠ .offline) := by
  refine ⟨fun d hp => hp.2,fun d hp => ⟨hp.1,account_ok_online hp.2⟩,?_,?_⟩
  · intro d hp hf
    rw [writeBlocks_accepted hp.1,hf]
    exact ⟨_,rfl,hp,rfl⟩
  · intro d e torn hp hf
    rw [writeBlocks_accepted hp.1,hf]
    exact ⟨_,rfl,hp,rfl⟩

theorem writeBlocksFua_follows :
    Follows (writeBlocksFua lba count buf)
      (fun d => (d.Accepts lba count buf ∧ d.state ≠ .offline) ∧
        (d.nativeFua = true ∨ d.faults.flushes = [])) := by
  refine ⟨fun d hp => hp.1.2,fun d hp => ⟨⟨hp.1.1,account_ok_online hp.1.2⟩,hp.2⟩,?_,?_⟩
  · intro d hp hf
    unfold writeBlocksFua
    rw [writeBlocks_accepted hp.1.1,hf]
    dsimp only
    split
    · exact ⟨_,rfl,hp,rfl⟩
    · rename_i hn
      have hflush : d.faults.flushes = [] := hp.2.resolve_left hn
      simp only [flush,hflush,nextFault]
      exact ⟨_,rfl,⟨hp.1,.inr rfl⟩,rfl⟩
  · intro d e torn hp hf
    unfold writeBlocksFua
    rw [writeBlocks_accepted hp.1.1,hf]
    exact ⟨_,rfl,hp,rfl⟩

/-- A device that never fails. -/
structure Calm (d : Device) : Prop where
  online : d.state ≠ .offline
  faults : d.faults = .none

theorem Calm.account (h : d.Calm) : (d.account (.ok r : Except BlkError α)).Calm :=
  ⟨account_ok_online h.online,h.faults⟩

theorem attempts_ok {run : Command α} (h : run d = (.ok r,d')) (n : Nat) :
    attempts run n d = (.ok r,d') := by
  cases n with
  | zero => exact h
  | succ n => rw [attempts_succ,h]

theorem attempts_accepted (h : (attempts (writeBlocks lba count buf) n d).1 = .ok ()) :
    d.Accepts lba count buf := by
  by_contra hno
  have hrej : ∀ m, (attempts (writeBlocks lba count buf) m d).1 ≠ .ok () := by
    have hrun : ∃ e, writeBlocks lba count buf d = (.error e,d) := by
      unfold writeBlocks
      by_cases h1 : count > buf.len
      · exact ⟨_,if_pos h1⟩
      · have h2 : lba + count > d.total := by
          unfold Accepts at hno
          omega
        exact ⟨_,by rw [if_neg h1,if_pos h2]⟩
    obtain ⟨e,hrun⟩ := hrun
    intro m
    induction m with
    | zero =>
      rw [attempts,hrun]
      exact fun h => (nomatch h)
    | succ m ih =>
      rw [attempts_succ,hrun]
      dsimp only
      split
      · exact ih
      · exact fun h => (nomatch h)
  exact hrej n h

theorem writeBlocks_follows_calm (lba count : Nat) (buf : Buf) :
    Follows (writeBlocks lba count buf) (fun d => d.Accepts lba count buf ∧ d.Calm) := by
  refine ⟨fun d hp => hp.2.online,fun d hp => ⟨hp.1,hp.2.account⟩,?_,?_⟩
  · intro d hp hf
    rw [writeBlocks_accepted hp.1,hf]
    refine ⟨_,rfl,⟨hp.1,hp.2.online,?_⟩,rfl⟩
    simp [hp.2.faults,Faults.none,nextFault]
  · intro d e torn hp hf
    rw [hp.2.faults] at hf
    cases hf

theorem writeBlocksFua_follows_calm (lba count : Nat) (buf : Buf) :
    Follows (writeBlocksFua lba count buf) (fun d => d.Accepts lba count buf ∧ d.Calm) := by
  have hw := writeBlocks_follows_calm lba count buf
  refine ⟨hw.online,hw.account,?_,?_⟩
  · intro d hp hf
    obtain ⟨d',hrun,hp',hws⟩ := hw.ok d hp hf
    unfold writeBlocksFua
    rw [hrun]
    dsimp only
    split
    · exact ⟨_,rfl,⟨hp'.1,hp'.2.online,hp'.2.faults⟩,hws⟩
    · have hfl : d'.faults.flushes = [] := by rw [hp'.2.faults]; rfl
      simp only [flush,hfl,nextFault]
      refine ⟨_,rfl,⟨hp'.1,hp'.2.online,?_⟩,hws⟩
      simp [hp'.2.faults,Faults.none]
  · intro d e torn hp hf
    rw [hp.2.faults] at hf
    cases hf

theorem writeZeroes_follows_calm (lba count : Nat) : Follows (writeZeroes lba count)
      (fun d => (d.Accepts lba count ⟨count,zeros⟩ ∧ d.Calm) ∧ d.nativeZeroes = true) := by
  have hw := writeBlocks_follows_calm lba count ⟨count,zeros⟩
  refine ⟨fun d hp => hw.online d hp.1,fun d hp => ⟨hw.account d hp.1,hp.2⟩,?_,?_⟩
  · intro d hp hf
    obtain ⟨d',hrun,hp',hws⟩ := hw.ok d hp.1 hf
    have hsh := (writeBlocks_writes lba count ⟨count,zeros⟩).shape d
    rw [hrun] at hsh
    have hn : d'.nativeZeroes = true := (congrArg (fun p => p.2.2.2) hsh).trans hp.2
    refine ⟨d',?_,⟨hp',hn⟩,hws⟩
    simp [writeZeroes,hp.2,hrun]
  · intro d e torn hp hf
    rw [hp.1.2.faults] at hf
    cases hf

end Device

namespace Layer

variable {s t : Layer} {v : Nat}

/-- What the device returns for its sectors. -/
def media (s : Layer) (v : Nat) : Sectors :=
  match s.slotRef v with
  | some d => d.media
  | none => zeros

def shape (s : Layer) (v : Nat) : Option (Nat × Bool × Bool × Bool) := (s.slotRef v).map Device.shape

theorem totalOf_eq_shape (s : Layer) (v : Nat) : s.totalOf v = ((s.shape v).map Prod.fst).getD 0 := by
  unfold totalOf shape
  cases s.slotRef v <;> rfl

variable {d : Device}

theorem slotRef_setDev_self (h : s.slotRef v = some d) : (s.setDev v d').slotRef v = some d' := by
  unfold slotRef at h
  split at h
  · rename_i hv
    simp [slotRef,setDev,hv]
  · cases h

theorem slotRef_setDev_ne (h : u ≠ v) : (s.setDev v d).slotRef u = s.slotRef u := by
  simp only [slotRef,setDev,Function.update_of_ne h]

theorem dispatch_wp
    (hnone : s.slotRef v = none → E (.err .noDevice) s)
    (hoff : ∀ d, s.slotRef v = some d → d.state = .offline → E (.err .offline) s)
    (hok : ∀ d r d', s.slotRef v = some d → d.state ≠ .offline →
      Device.attempts run maxRetries d = (.ok r,d') →
      Q r (s.setDev v (d'.account (.ok r : Except BlkError α))))
    (herr : ∀ d e d', s.slotRef v = some d → d.state ≠ .offline →
      Device.attempts run maxRetries d = (.error e,d') →
      E (.err e) (s.setDev v (d'.account (.error e : Except BlkError α)))) :
    Wp (dispatch v run) s Q E := by
  unfold Wp dispatch
  cases hs : s.slotRef v with
  | none => exact hnone hs
  | some d =>
    by_cases ho : d.state = .offline
    · simp only [ho,↓reduceIte]
      exact hoff d hs ho
    · simp only [ho,↓reduceIte]
      rcases ha : Device.attempts run maxRetries d with ⟨r,d'⟩
      cases r with
      | ok a => exact hok d a d' hs ho ha
      | error e => exact herr d e d' hs ho ha

/-- A command went to device `v` that may have written the given sectors. -/
structure Sent (s t : Layer) (v lba count : Nat) : Prop where
  cache : t.cache = s.cache
  shape : ∀ u, t.shape u = s.shape u
  others : ∀ u, u ≠ v → t.slotRef u = s.slotRef u
  outside : ∀ a, ¬ (lba ≤ a ∧ a < lba + count) → t.media v a = s.media v a

theorem Sent.refl (s : Layer) (v lba count : Nat) : Sent s s v lba count :=
  ⟨rfl,fun _ => rfl,fun _ _ => rfl,fun _ _ => rfl⟩

theorem account_shape (d : Device) (r : Except BlkError α) : (d.account r).shape = d.shape ∧
    (d.account r).media = d.media ∧ (d.account r).faults = d.faults := by
  unfold Device.account
  split
  · exact ⟨rfl,rfl,rfl⟩
  · exact ⟨rfl,rfl,rfl⟩
  · exact ⟨rfl,rfl,rfl⟩

theorem media_of_slot (h : s.slotRef v = some d) : s.media v = d.media := by
  simp [media,h]

theorem sent_of_writes {run : Command Unit} {r : Except BlkError Unit}
    (hw : Device.Writes run lba count data) (hs : s.slotRef v = some d) :
    Sent s (s.setDev v (((Device.attempts run maxRetries d).2).account r)) v lba count := by
  have ha := hw.attempts maxRetries
  obtain ⟨hsh,hmed,-⟩ := account_shape (Device.attempts run maxRetries d).2 r
  refine ⟨rfl,?_,fun u hu => slotRef_setDev_ne hu,?_⟩
  · intro u
    by_cases hu : u = v
    · subst hu
      simp [shape,slotRef_setDev_self hs,hs,hsh,ha.shape]
    · simp [shape,slotRef_setDev_ne hu]
  · intro a hout
    rw [media_of_slot (slotRef_setDev_self hs),media_of_slot hs,hmed,ha.outside d a hout]

/-- The writes sent to the device get through, with the retries they have. -/
def Steady (s : Layer) (v : Nat) : Prop :=
  ∀ d, s.slotRef v = some d → d.state ≠ .offline ∧ Device.Recovers Device.maxRetries d.faults.writes

def AllCalm (s : Layer) : Prop := ∀ v d, s.slotRef v = some d → d.Calm

theorem AllCalm.steady (h : AllCalm s) (v : Nat) : Steady s v := by
  intro d hd
  refine ⟨(h v d hd).online,?_⟩
  rw [(h v d hd).faults]
  trivial

theorem Sent.steady (h : Sent s t v lba count) (hu : u ≠ v) (hs : Steady s u) : Steady t u := by
  unfold Steady
  rw [h.others u hu]
  exact hs

theorem Sent.media (h : Sent s t v lba count) (ha : ¬ (u = v ∧ lba ≤ a ∧ a < lba + count)) :
    t.media u a = s.media u a := by
  by_cases hu : u = v
  · subst hu
    exact h.outside a (fun hin => ha ⟨rfl,hin⟩)
  · simp [Layer.media,h.others u hu]

theorem Sent.total (h : Sent s t v lba count) (u : Nat) : t.totalOf u = s.totalOf u := by
  rw [totalOf_eq_shape,totalOf_eq_shape,h.shape]

theorem totalOf_of_slot (h : s.slotRef v = some d) : s.totalOf v = d.total := by
  simp [totalOf,h]

theorem slot_of_total (h : 0 < s.totalOf v) : ∃ d, s.slotRef v = some d := by
  unfold totalOf at h
  cases hs : s.slotRef v with
  | none =>
    rw [hs] at h
    exact absurd h (by decide)
  | some d => exact ⟨d,rfl⟩

/-- A write command of any kind, with what carries over to the state after it. -/
theorem sent_wp {run : Command Unit} (hw : Device.Writes run lba count data) (s : Layer) (v : Nat) :
    Wp (dispatch v run) s (fun _ t => Sent s t v lba count ∧
        (∀ a, lba ≤ a ∧ a < lba + count → t.media v a = data (a - lba)) ∧
        (∃ d, s.slotRef v = some d ∧ (Device.attempts run maxRetries d).1 = .ok ()) ∧
        ∀ P, Device.Follows run P → ∀ d, s.slotRef v = some d → P d →
          Device.Recovers maxRetries d.faults.writes → ∃ d', t.slotRef v = some d' ∧ P d' ∧
            Device.Recovers maxRetries d'.faults.writes)
      (fun e t => e ≠ .panic ∧ Sent s t v lba count ∧
        ∀ P, Device.Follows run P → ∀ d, s.slotRef v = some d → P d →
          ¬ Device.Recovers maxRetries d.faults.writes) := by
  refine dispatch_wp ?_ ?_ ?_ ?_
  · intro hs
    refine ⟨fun h => (nomatch h),.refl _ _ _ _,?_⟩
    intro P _ d hd
    rw [hs] at hd
    cases hd
  · intro d hs ho
    refine ⟨fun h => (nomatch h),.refl _ _ _ _,?_⟩
    intro P hf d' hd hp
    cases hs.symm.trans hd
    exact absurd ho (hf.online d hp)
  · intro d r d' hs _ ha
    have hsent := sent_of_writes (r := .ok r) hw hs
    rw [ha] at hsent
    refine ⟨hsent,?_,⟨d,hs,by rw [ha]⟩,?_⟩
    · intro a hin
      have hwr := (hw.attempts maxRetries).written d a (by rw [ha]) hin
      rw [media_of_slot (slotRef_setDev_self hs),(account_shape d' (.ok r)).2.1]
      rw [ha] at hwr
      exact hwr
    · intro P hf d2 hd hp hr
      cases hs.symm.trans hd
      obtain ⟨d3,ha3,hp3,hr3⟩ := hf.attempts hp hr
      cases ha.symm.trans ha3
      exact ⟨_,slotRef_setDev_self hs,hf.account d' hp3,hr3⟩
  · intro d e d' hs _ ha
    have hsent := sent_of_writes (r := .error e) hw hs
    rw [ha] at hsent
    refine ⟨fun h => (nomatch h),hsent,?_⟩
    intro P hf d2 hd hp hr
    cases hs.symm.trans hd
    obtain ⟨d3,ha3,-⟩ := hf.attempts hp hr
    cases ha.symm.trans ha3

theorem AllCalm.sent (h : AllCalm s) (hsent : Sent s t v lba count)
    (ht : t.slotRef v = some d') (hd' : d'.Calm) : AllCalm t := by
  intro u d hd
  by_cases hu : u = v
  · subst hu
    cases ht.symm.trans hd
    exact hd'
  · rw [hsent.others u hu] at hd
    exact h u d hd

theorem write_blocks_wp (s : Layer) (v lba count : Nat) (buf : Buf) :
    Wp (dispatch v (writeBlocks lba count buf)) s (fun _ t => Sent s t v lba count ∧
        (∀ a, lba ≤ a ∧ a < lba + count → t.media v a = buf.data (a - lba)) ∧
        (∀ u, Steady s u → Steady t u) ∧ (AllCalm s → AllCalm t) ∧ lba + count ≤ s.totalOf v)
      (fun e t => e ≠ .panic ∧ Sent s t v lba count ∧
        (0 < count → count ≤ buf.len → lba + count ≤ s.totalOf v → ¬ Steady s v)) := by
  refine (sent_wp (writeBlocks_writes lba count buf) s v).imp ?_ ?_
  · rintro - t ⟨hsent,hwr,⟨d,hd,hok⟩,hfollow⟩
    have hacc := attempts_accepted hok
    refine ⟨hsent,hwr,?_,?_,?_⟩
    · intro u hu
      by_cases huv : u = v
      · subst huv
        obtain ⟨d',hd',hp',hr'⟩ := hfollow _ writeBlocks_follows d hd
          ⟨hacc,(hu d hd).1⟩ (hu d hd).2
        intro d2 hd2
        cases hd'.symm.trans hd2
        exact ⟨hp'.2,hr'⟩
      · exact hsent.steady huv hu
    · intro hcalm
      obtain ⟨d',hd',hp',-⟩ := hfollow _ (writeBlocks_follows_calm lba count buf) d hd
        ⟨hacc,hcalm v d hd⟩ (hcalm.steady v d hd).2
      exact hcalm.sent hsent hd' hp'.2
    · rw [totalOf_of_slot hd]
      exact hacc.2
  · rintro e t ⟨he,hsent,hno⟩
    refine ⟨he,hsent,?_⟩
    intro hpos hlen hin hst
    obtain ⟨d,hd⟩ := slot_of_total (s := s) (v := v) (by omega)
    rw [totalOf_of_slot hd] at hin
    exact hno _ writeBlocks_follows d hd ⟨⟨hlen,hin⟩,(hst d hd).1⟩ (hst d hd).2

theorem write_fua_wp (s : Layer) (v lba count : Nat) (buf : Buf) :
    Wp (dispatch v (writeBlocksFua lba count buf)) s (fun _ t => Sent s t v lba count ∧
        (∀ a, lba ≤ a ∧ a < lba + count → t.media v a = buf.data (a - lba)) ∧
        (count ≤ buf.len → lba + count ≤ s.totalOf v → AllCalm s → AllCalm t))
      (fun e t => e ≠ .panic ∧ Sent s t v lba count ∧
        (0 < count → count ≤ buf.len → lba + count ≤ s.totalOf v →
          (∀ d, s.slotRef v = some d → d.nativeFua = true ∨ d.faults.flushes = []) →
          ¬ Steady s v)) := by
  refine (sent_wp (writeBlocksFua_writes lba count buf) s v).imp ?_ ?_
  · rintro - t ⟨hsent,hwr,⟨d,hd,-⟩,hfollow⟩
    refine ⟨hsent,hwr,?_⟩
    intro hlen hin hcalm
    rw [totalOf_of_slot hd] at hin
    obtain ⟨d',hd',hp',-⟩ := hfollow _ (writeBlocksFua_follows_calm lba count buf) d hd
      ⟨⟨hlen,hin⟩,hcalm v d hd⟩ (hcalm.steady v d hd).2
    exact hcalm.sent hsent hd' hp'.2
  · rintro e t ⟨he,hsent,hno⟩
    refine ⟨he,hsent,?_⟩
    intro hpos hlen hin hfua hst
    obtain ⟨d,hd⟩ := slot_of_total (s := s) (v := v) (by omega)
    rw [totalOf_of_slot hd] at hin
    exact hno _ writeBlocksFua_follows d hd
      ⟨⟨⟨hlen,hin⟩,(hst d hd).1⟩,hfua d hd⟩ (hst d hd).2

theorem write_zeroes_wp (s : Layer) (v lba count : Nat) :
    Wp (dispatch v (Device.writeZeroes lba count)) s (fun _ t => Sent s t v lba count ∧
        (∀ a, lba ≤ a ∧ a < lba + count → t.media v a = zeroSector) ∧
        (lba + count ≤ s.totalOf v → AllCalm s → AllCalm t))
      (fun e t => e ≠ .panic ∧ Sent s t v lba count ∧
        (lba + count ≤ s.totalOf v → AllCalm s → (∃ d, s.slotRef v = some d) →
          e = .err .unsupported ∧ AllCalm t)) := by
  -- without the command nothing happens
  have hplain : ∀ d : Device, d.nativeZeroes = false →
      Device.attempts (Device.writeZeroes lba count) maxRetries d = (.error .unsupported,d) := by
    intro d hn
    have hrun : Device.writeZeroes lba count d = (.error .unsupported,d) := by
      simp [Device.writeZeroes,hn]
    rw [maxRetries,attempts_succ,hrun]
    rfl
  have hw := writeZeroes_writes lba count
  cases hs : s.slotRef v with
  | none =>
    refine dispatch_wp ?_ ?_ ?_ ?_
    · exact fun _ => ⟨fun h => (nomatch h),.refl _ _ _ _,fun _ _ h => (nomatch h)⟩
    · intro d hd
      cases hs.symm.trans hd
    · intro d r d' hd
      cases hs.symm.trans hd
    · intro d e d' hd
      cases hs.symm.trans hd
  | some d =>
    cases hn : d.nativeZeroes with
    | false =>
      refine dispatch_wp ?_ ?_ ?_ ?_
      · intro hd
        cases hs.symm.trans hd
      · intro d' hd ho
        cases hs.symm.trans hd
        exact ⟨fun h => (nomatch h),.refl _ _ _ _,fun _ hc => absurd ho (hc v d hs).online⟩
      · intro d2 r d' hd _ ha
        cases hs.symm.trans hd
        cases (hplain d hn).symm.trans ha
      · intro d2 e d' hd _ ha
        cases hs.symm.trans hd
        have hsent := sent_of_writes (r := .error e) hw hs
        rw [ha] at hsent
        refine ⟨fun h => (nomatch h),hsent,?_⟩
        intro _ hcalm _
        cases (hplain d hn).symm.trans ha
        exact ⟨rfl,hcalm.sent hsent (slotRef_setDev_self hs) (hcalm v d hs)⟩
    | true =>
      refine (sent_wp hw s v).imp ?_ ?_
      · rintro - t ⟨hsent,hwr,-,hfollow⟩
        refine ⟨hsent,hwr,?_⟩
        intro hin hcalm
        rw [totalOf_of_slot hs] at hin
        obtain ⟨d',hd',hp',-⟩ := hfollow _ (writeZeroes_follows_calm lba count) d hs
          ⟨⟨⟨.refl,hin⟩,hcalm v d hs⟩,hn⟩ (hcalm.steady v d hs).2
        exact hcalm.sent hsent hd' hp'.1.2
      · rintro e t ⟨he,hsent,hno⟩
        refine ⟨he,hsent,?_⟩
        intro hin hcalm _
        rw [totalOf_of_slot hs] at hin
        exact absurd (hcalm.steady v d hs).2 (hno _ (writeZeroes_follows_calm lba count) d hs
            ⟨⟨⟨.refl,hin⟩,hcalm v d hs⟩,hn⟩)

theorem readBlocks_reads :
    (∃ rest, (readBlocks lba count d).2 = { d with faults := { d.faults with reads := rest } } ∧
        (d.faults.reads = [] → rest = [])) ∧
      ∀ w, (readBlocks lba count d).1 = .ok w → w = fun i => d.media (lba + i) := by
  unfold readBlocks
  split
  · exact ⟨⟨d.faults.reads,rfl,id⟩,fun w h => (nomatch h)⟩
  · have hrest : d.faults.reads = [] → (nextFault d.faults.reads).2 = [] := fun h => by rw [h]; rfl
    dsimp only
    split
    · exact ⟨⟨_,rfl,hrest⟩,fun w h => (nomatch h)⟩
    · refine ⟨⟨_,rfl,hrest⟩,?_⟩
      intro w h
      cases h
      rfl

theorem attempts_reads (lba count : Nat) (n : Nat) (d : Device) :
    (∃ rest, (Device.attempts (readBlocks lba count) n d).2 =
        { d with faults := { d.faults with reads := rest } } ∧ (d.faults.reads = [] → rest = [])) ∧
      ∀ w, (Device.attempts (readBlocks lba count) n d).1 = .ok w →
        w = fun i => d.media (lba + i) := by
  induction n generalizing d with
  | zero => exact readBlocks_reads
  | succ n ih =>
    obtain ⟨⟨rest,hd,hrest⟩,hw⟩ := readBlocks_reads
    rw [attempts_succ]
    rcases hr : readBlocks lba count d with ⟨r,d'⟩
    rw [hr] at hd hw
    cases r with
    | ok w => exact ⟨⟨rest,hd,hrest⟩,hw⟩
    | error e =>
      dsimp only at hd ⊢
      split
      · obtain ⟨⟨rest',hd',hrest'⟩,hw'⟩ := ih d'
        subst hd
        exact ⟨⟨rest',hd',fun h => hrest' (hrest h)⟩,hw'⟩
      · exact ⟨⟨rest,hd,hrest⟩,fun w h => (nomatch h)⟩

theorem driver_read_wp (s : Layer) (v lba count : Nat) : Wp (driverRead v lba count) s
      (fun w t => Sent s t v lba 0 ∧ w = (fun i => s.media v (lba + i)) ∧
        (∀ u, Steady s u → Steady t u) ∧ (AllCalm s → AllCalm t))
      (fun e t => e ≠ .panic ∧ Sent s t v lba 0 ∧
        (0 < count → lba + count ≤ s.totalOf v → ¬ AllCalm s)) := by
  have hsent : ∀ (d d' : Device) (r : Except BlkError Sectors) (rest), s.slotRef v = some d →
      d' = { d with faults := { d.faults with reads := rest } } →
      Sent s (s.setDev v (d'.account r)) v lba 0 := by
    intro d d' r rest hs hd'
    obtain ⟨hsh,hmed,-⟩ := account_shape d' r
    refine ⟨rfl,?_,fun u hu => slotRef_setDev_ne hu,?_⟩
    · intro u
      by_cases hu : u = v
      · subst hu
        simp only [shape,slotRef_setDev_self hs,hs,Option.map_some,hsh]
        subst hd'
        rfl
      · simp [shape,slotRef_setDev_ne hu]
    · intro a _
      rw [media_of_slot (slotRef_setDev_self hs),media_of_slot hs,hmed,hd']
  refine dispatch_wp ?_ ?_ ?_ ?_
  · intro hs
    refine ⟨fun h => (nomatch h),.refl _ _ _ _,?_⟩
    intro hpos hin
    obtain ⟨d,hd⟩ := slot_of_total (s := s) (v := v) (by omega)
    cases hs.symm.trans hd
  · intro d hs ho
    exact ⟨fun h => (nomatch h),.refl _ _ _ _,fun _ _ hc => (hc v d hs).online ho⟩
  · intro d w d' hs ho ha
    obtain ⟨⟨rest,hd',hrest⟩,hw⟩ := attempts_reads lba count maxRetries d
    rw [ha] at hd' hw
    dsimp only at hd'
    have hsd := hsent d d' (.ok w) rest hs hd'
    refine ⟨hsd,?_,?_,?_⟩
    · rw [media_of_slot hs]
      exact hw w rfl
    · intro u hu
      by_cases huv : u = v
      · subst huv
        intro d2 hd2
        cases (slotRef_setDev_self hs).symm.trans hd2
        refine ⟨account_ok_online (hd' ▸ ho),?_⟩
        rw [(account_shape d' (.ok w)).2.2]
        subst hd'
        exact (hu d hs).2
      · exact hsd.steady huv hu
    · intro hcalm
      have hr : rest = [] := hrest (by rw [(hcalm v d hs).faults]; rfl)
      refine hcalm.sent hsd (slotRef_setDev_self hs) (Device.Calm.account ⟨hd' ▸ ho,?_⟩)
      simp [hd',hr,(hcalm v d hs).faults,Faults.none]
  · intro d e d' hs ho ha
    obtain ⟨⟨rest,hd',-⟩,-⟩ := attempts_reads lba count maxRetries d
    rw [ha] at hd'
    refine ⟨fun h => (nomatch h),hsent d d' (.error e) rest hs hd',?_⟩
    intro _ hin hcalm
    rw [totalOf_of_slot hs] at hin
    have hrun : ∃ w d2, readBlocks lba count d = (.ok w,d2) := by
      unfold readBlocks
      rw [if_neg (Nat.not_lt.mpr hin),(hcalm v d hs).faults]
      exact ⟨_,_,rfl⟩
    obtain ⟨w,d2,hrun⟩ := hrun
    cases ha.symm.trans (attempts_ok hrun maxRetries)

end Layer

end Miku.Block
